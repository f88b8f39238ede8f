import QuickNote.Firestore.ObjectValue

/-!
# Field masks

`ObjectValue::ToFieldMask` (`core/src/model/object_value.cc`) lists the paths of
the leaves of a document, and `PatchMutation::GetPatch`
(`core/src/model/patch_mutation.cc`) reads the values at the paths of a mask.
Together they are what a write with `merge` sends: its own leaves and nothing
else.
-/

namespace QuickNote.Firestore

open SortedEntries

/-- `FieldMask`: a `std::set` of paths, in their order. -/
abbrev FieldMask (κ : Type) := List (FieldPath κ)

section Extract

variable {κ α : Type} [LinearOrder κ]

mutual

/-- The mask of a nested map; none for a value that is not a map. -/
def Value.nestedMask : Value κ α → Option (FieldMask κ)
  | .scalar _ => none
  | .map fields => some (extractFieldMask fields)

/-- `ObjectValue::ExtractFieldMask` (`object_value.cc:265`). -/
def extractFieldMask : List (κ × Value κ α) → FieldMask κ
  | [] => []
  | entry :: rest => (entryMask entry).foldr insertKey (extractFieldMask rest)

def entryMask : κ × Value κ α → FieldMask κ
  | (key, value) =>
      match value.nestedMask with
      | none => [[key]]
      -- Preserve the empty map by adding it to the mask.
      | some [] => [[key]]
      | some nested => nested.map (key :: ·)

end

/-- `PatchMutation::Rep::GetPatch` (`patch_mutation.cc:129`). -/
def getPatch (value : List (κ × Value κ α)) (mask : FieldMask κ) : TransformMap κ α :=
  (mask.filter (· ≠ [])).map fun path => (path, (Value.map value).get path)

end Extract

section Leaves

variable {κ α : Type}

mutual

/-- The values without fields below a value, each with its path. -/
def Value.leaves : Value κ α → List (FieldPath κ × Value κ α)
  | .scalar content => [([], .scalar content)]
  | .map fields => if fields.isEmpty then [([], .map [])] else leavesEach fields

def leavesEach : List (κ × Value κ α) → List (FieldPath κ × Value κ α)
  | [] => []
  | entry :: rest => leavesEntry entry ++ leavesEach rest

def leavesEntry : κ × Value κ α → List (FieldPath κ × Value κ α)
  | (key, value) => value.leaves.map fun leaf => (key :: leaf.1, leaf.2)

end

/-- Neither path leads through the other. -/
def Apart (path other : FieldPath κ) : Prop := ¬ path <+: other ∧ ¬ other <+: path

theorem apart_cons_cons {key : κ} {path other : FieldPath κ} :
    Apart (key :: path) (key :: other) ↔ Apart path other := by
  simp [Apart]

theorem apart_of_ne {key key' : κ} (different : key ≠ key') (path other : FieldPath κ) :
    Apart (key :: path) (key' :: other) := by
  simp [Apart, different, Ne.symm different]

theorem mem_leavesEach {fields : List (κ × Value κ α)} {leaf : FieldPath κ × Value κ α} :
    leaf ∈ leavesEach fields ↔ ∃ e ∈ fields, leaf ∈ leavesEntry e := by
  induction fields with
  | nil => simp [leavesEach]
  | cons e rest ih => simp [leavesEach, ih]

theorem leavesEntry_eq (e : κ × Value κ α) :
    leavesEntry e = e.2.leaves.map fun leaf => (e.1 :: leaf.1, leaf.2) := by
  cases e
  rw [leavesEntry]

theorem mem_leavesEntry {e : κ × Value κ α} {leaf : FieldPath κ × Value κ α} :
    leaf ∈ leavesEntry e ↔ ∃ below ∈ e.2.leaves, leaf = (e.1 :: below.1, below.2) := by
  rw [leavesEntry_eq]
  simp [eq_comm]

theorem leaves_map_of_ne {fields : List (κ × Value κ α)} (some_field : fields ≠ []) :
    (Value.map fields).leaves = leavesEach fields := by
  rw [Value.leaves, if_neg (by simpa using some_field)]

theorem named_leavesEach {fields : List (κ × Value κ α)} :
    ∀ leaf ∈ leavesEach fields, leaf.1 ≠ [] := by
  intro leaf member
  obtain ⟨e, _, inside⟩ := mem_leavesEach.mp member
  obtain ⟨below, _, rfl⟩ := mem_leavesEntry.mp inside
  simp

end Leaves

section Merge

variable {κ α : Type} [LinearOrder κ]

theorem Value.Ordered.leaves_ne_nil {value : Value κ α} (ordered : value.Ordered) :
    value.leaves ≠ [] := by
  induction ordered with
  | scalar content => simp [Value.leaves]
  | @map fields ascending values ih =>
    cases fields with
    | nil => simp [Value.leaves]
    | cons e rest =>
      rw [leaves_map_of_ne (by simp), leavesEach]
      intro empty
      have first : leavesEntry e = [] := (List.append_eq_nil_iff.mp empty).1
      rw [leavesEntry_eq, List.map_eq_nil_iff] at first
      exact ih e (by simp) first

/-- Every leaf of a map is read at its path. -/
theorem Value.Ordered.get_leaf {value : Value κ α} (ordered : value.Ordered) :
    ∀ leaf ∈ value.leaves, value.get leaf.1 = some leaf.2 ∧ leaf.2.Ordered := by
  induction ordered with
  | scalar content =>
    intro leaf member
    rw [List.mem_singleton.mp member]
    exact ⟨rfl, .scalar content⟩
  | @map fields ascending values ih =>
    intro leaf member
    by_cases none_left : fields = []
    · subst none_left
      rw [List.mem_singleton.mp member]
      exact ⟨rfl, .map ascending values⟩
    · rw [leaves_map_of_ne none_left] at member
      obtain ⟨e, here, inside⟩ := mem_leavesEach.mp member
      obtain ⟨below, deeper, rfl⟩ := mem_leavesEntry.mp inside
      obtain ⟨read, sorted⟩ := ih e here below deeper
      refine ⟨?_, sorted⟩
      rw [Value.get, findEntry_map ascending, ascending.lookup_of_mem here]
      exact read

/-- Leaves come in the order of their paths, and none is on the way to another. -/
theorem Value.Ordered.leaves_pairwise {value : Value κ α} (ordered : value.Ordered) :
    value.leaves.Pairwise fun a b => a.1 < b.1 ∧ Apart a.1 b.1 := by
  induction ordered with
  | scalar content => exact List.pairwise_singleton _ _
  | @map fields ascending values ih =>
    by_cases none_left : fields = []
    · subst none_left
      exact List.pairwise_singleton _ _
    · rw [leaves_map_of_ne none_left]
      clear none_left
      induction fields with
      | nil => exact List.Pairwise.nil
      | cons e rest ihRest =>
        obtain ⟨above, tail⟩ := Ascending.cons.mp ascending
        rw [leavesEach, List.pairwise_append]
        refine ⟨?_, ihRest tail (fun e' member => values e' (by simp [member]))
          (fun e' member => ih e' (by simp [member])), ?_⟩
        · rw [leavesEntry_eq, List.pairwise_map]
          refine (ih e (by simp)).imp fun {a b} both => ?_
          exact ⟨List.cons_lt_cons_iff.mpr (Or.inr ⟨rfl, both.1⟩), apart_cons_cons.mpr both.2⟩
        · intro a inFirst b inRest
          obtain ⟨below, _, rfl⟩ := mem_leavesEntry.mp inFirst
          obtain ⟨e', here, inside⟩ := mem_leavesEach.mp inRest
          obtain ⟨below', _, rfl⟩ := mem_leavesEntry.mp inside
          have before : e.1 < e'.1 := above e' here
          exact ⟨List.cons_lt_cons_iff.mpr (Or.inl before), apart_of_ne before.ne _ _⟩

theorem extractFieldMask_of_entries {fields : List (κ × Value κ α)}
    (ordered : (Value.map fields).Ordered)
    (entries : ∀ e ∈ fields, entryMask e = (leavesEntry e).map Prod.fst) :
    extractFieldMask fields = (leavesEach fields).map Prod.fst := by
  by_cases none_left : fields = []
  · subst none_left
    rfl
  · have inOrder : ((leavesEach fields).map Prod.fst).Pairwise (· < ·) := by
      rw [← leaves_map_of_ne none_left]
      exact List.pairwise_map.mpr (ordered.leaves_pairwise.imp fun both => both.1)
    clear ordered none_left
    induction fields with
    | nil => rfl
    | cons e rest ih =>
      rw [leavesEach, List.map_append] at inOrder ⊢
      rw [extractFieldMask, entries e (by simp),
        ih (fun e' member => entries e' (by simp [member])) (List.pairwise_append.mp inOrder).2.1]
      exact foldr_insertKey_of_lt inOrder

theorem Value.Ordered.entryMask_eq {value : Value κ α} (ordered : value.Ordered) (key : κ) :
    entryMask (key, value) = (leavesEntry (key, value)).map Prod.fst := by
  induction ordered generalizing key with
  | scalar content => rfl
  | @map fields ascending values ih =>
    have nested : extractFieldMask fields = (leavesEach fields).map Prod.fst :=
      extractFieldMask_of_entries (.map ascending values) fun e member => ih e member e.1
    rw [entryMask, Value.nestedMask, nested, leavesEntry_eq]
    cases fields with
    | nil => rfl
    | cons e rest =>
      have some_leaf : leavesEach (e :: rest) ≠ [] := by
        rw [← leaves_map_of_ne (by simp)]
        exact (Value.Ordered.map ascending values).leaves_ne_nil
      rw [leaves_map_of_ne (by simp)]
      obtain ⟨leaf, others, shape⟩ := List.exists_cons_of_ne_nil some_leaf
      rw [shape]
      simp

/-- The mask of a document is the list of the paths of its leaves. -/
theorem extractFieldMask_eq {fields : List (κ × Value κ α)} (ordered : (Value.map fields).Ordered) :
    extractFieldMask fields = (leavesEach fields).map Prod.fst :=
  extractFieldMask_of_entries ordered fun e member => by
    cases ordered with
    | map ascending values => exact (values e member).entryMask_eq e.1

/-- Values set one after the other at paths that are apart are all read afterwards,
and beside them everything is as before. -/
theorem foldl_set_apart {data : List (FieldPath κ × Value κ α)}
    (apart : data.Pairwise fun a b => Apart a.1 b.1) (named : ∀ e ∈ data, e.1 ≠ [])
    (sorted : ∀ e ∈ data, e.2.Ordered) {fields : List (κ × Value κ α)}
    (ordered : (Value.map fields).Ordered) :
    (Value.map (data.foldl (fun fields e => set e.1 e.2 fields) fields)).Ordered ∧
      (∀ e ∈ data, (Value.map (data.foldl (fun fields e => set e.1 e.2 fields) fields)).get e.1 =
        some e.2) ∧
      ∀ other, (∀ e ∈ data, Apart other e.1) →
        (Value.map (data.foldl (fun fields e => set e.1 e.2 fields) fields)).get other =
          (Value.map fields).get other := by
  induction data generalizing fields with
  | nil => exact ⟨ordered, by simp, fun _ _ => rfl⟩
  | cons e rest ih =>
    obtain ⟨first, later⟩ := List.pairwise_cons.mp apart
    have placed := ordered_set ordered e.1 (sorted e (by simp))
    obtain ⟨keeps, reads, beside⟩ := ih later (fun e' member => named e' (by simp [member]))
      (fun e' member => sorted e' (by simp [member])) placed
    rw [List.foldl_cons]
    refine ⟨keeps, fun e' member => ?_, fun other away => ?_⟩
    · rcases List.mem_cons.mp member with rfl | behind
      · rw [beside e'.1 first]
        exact get_set_self ordered (named e' (by simp)) (sorted e' (by simp))
      · exact reads e' behind
    · rw [beside other fun e' member => away e' (by simp [member])]
      exact get_set_other ordered e.2 (away e (by simp)).1 (away e (by simp)).2

theorem leavesEach_spec {fields : List (κ × Value κ α)} (ordered : (Value.map fields).Ordered) :
    (leavesEach fields).Pairwise (fun a b => Apart a.1 b.1) ∧
      ∀ leaf ∈ leavesEach fields, (Value.map fields).get leaf.1 = some leaf.2 ∧ leaf.2.Ordered := by
  by_cases none_left : fields = []
  · subst none_left
    exact ⟨List.Pairwise.nil, by simp [leavesEach]⟩
  · rw [← leaves_map_of_ne none_left]
    exact ⟨ordered.leaves_pairwise.imp fun both => both.2, ordered.get_leaf⟩

/-- A document patched over its own mask contributes its leaves. -/
theorem getPatch_extractFieldMask {fields : List (κ × Value κ α)}
    (ordered : (Value.map fields).Ordered) :
    getPatch fields (extractFieldMask fields) =
      (leavesEach fields).map fun leaf => (leaf.1, some leaf.2) := by
  have all : (extractFieldMask fields).filter (· ≠ []) = extractFieldMask fields := by
    refine List.filter_eq_self.mpr fun path member => ?_
    rw [extractFieldMask_eq ordered] at member
    obtain ⟨leaf, inside, rfl⟩ := List.mem_map.mp member
    simpa using named_leavesEach leaf inside
  rw [getPatch, all, extractFieldMask_eq ordered, List.map_map]
  refine List.map_congr_left fun leaf member => ?_
  simp [((leavesEach_spec ordered).2 leaf member).1]

theorem setAll_getPatch {new old : List (κ × Value κ α)} (ordered : (Value.map old).Ordered)
    (written : (Value.map new).Ordered) :
    setAll (getPatch new (extractFieldMask new)) old =
      (leavesEach new).foldl (fun fields leaf => set leaf.1 leaf.2 fields) old := by
  rw [getPatch_extractFieldMask written]
  exact setAll_eq_foldl_set ordered named_leavesEach fun leaf member =>
    ((leavesEach_spec written).2 leaf member).2

theorem set_cons {fields : List (κ × Value κ α)} (ordered : (Value.map fields).Ordered) (key : κ)
    {rest : FieldPath κ} (inside : rest ≠ []) (value : Value κ α) :
    set (key :: rest) value fields =
      insertEntry key (.map (set rest value (childFields fields key))) fields := by
  rcases List.eq_nil_or_concat' rest with rfl | ⟨parent, last, rfl⟩
  · exact absurd rfl inside
  · rw [← List.cons_append, set_append_singleton ordered, atParentMap_cons ordered.ascending,
      set_append_singleton (ordered.childFields key)]

/-- Values set below one key change only the map at that key. -/
theorem foldl_set_below {data : List (FieldPath κ × Value κ α)} (some_data : data ≠ [])
    (named : ∀ e ∈ data, e.1 ≠ []) (sorted : ∀ e ∈ data, e.2.Ordered) (key : κ)
    {fields : List (κ × Value κ α)} (ordered : (Value.map fields).Ordered) :
    data.foldl (fun fields e => set (key :: e.1) e.2 fields) fields =
      insertEntry key
        (.map (data.foldl (fun fields e => set e.1 e.2 fields) (childFields fields key))) fields := by
  induction data generalizing fields with
  | nil => exact absurd rfl some_data
  | cons e rest ih =>
    have step := set_cons ordered key (named e (by simp)) e.2
    rw [List.foldl_cons, List.foldl_cons, step]
    by_cases last : rest = []
    · subst last
      rfl
    · have placed : (Value.map (set e.1 e.2 (childFields fields key))).Ordered :=
        ordered_set (ordered.childFields key) e.1 (sorted e (by simp))
      rw [ih last (fun e' member => named e' (by simp [member]))
        (fun e' member => sorted e' (by simp [member])) (ordered.insertEntry key placed),
        childFields_insertEntry, insertEntry_insertEntry ordered.ascending]

/-- Entries that their leaves build up, in key order, build up the whole map. -/
theorem foldl_set_leavesEach {inner : List (κ × Value κ α)} (sorted : (Value.map inner).Ordered)
    (entries : ∀ e ∈ inner, ∀ (key : κ) {fields : List (κ × Value κ α)},
      (Value.map fields).Ordered → fields.lookup key = none →
        (leavesEntry (key, e.2)).foldl (fun fields leaf => set leaf.1 leaf.2 fields) fields =
          insertEntry key e.2 fields) :
    (leavesEach inner).foldl (fun fields leaf => set leaf.1 leaf.2 fields) [] = inner := by
  have onto : ∀ {rest : List (κ × Value κ α)}, (∀ e ∈ rest, e ∈ inner) → Ascending rest →
      ∀ {fields : List (κ × Value κ α)}, (Value.map fields).Ordered →
        (∀ e ∈ rest, fields.lookup e.1 = none) →
        (leavesEach rest).foldl (fun fields leaf => set leaf.1 leaf.2 fields) fields =
          insertAll fields rest := by
    intro rest
    induction rest with
    | nil => exact fun _ _ _ _ _ => rfl
    | cons e rest ih =>
      intro within ascending fields ordered fresh
      obtain ⟨above, tail⟩ := Ascending.cons.mp ascending
      have value : e.2.Ordered := by
        cases sorted with
        | map _ values => exact values e (within e (by simp))
      rw [leavesEach, List.foldl_append, insertAll_cons,
        entries e (within e (by simp)) e.1 ordered (fresh e (by simp))]
      refine ih (fun e' member => within e' (by simp [member])) tail
        (ordered.insertEntry e.1 value) fun e' member => ?_
      rw [lookup_insertEntry, if_neg (above e' member).ne']
      exact fresh e' (by simp [member])
  rw [onto (fun e member => member) sorted.ascending Value.ordered_nil (fun _ _ => rfl)]
  refine (Ascending.nil.insertNews inner).ext sorted.ascending fun key => ?_
  rw [lookup_insertAll sorted.ascending]
  simp

/-- The leaves below a new key build up its value. -/
theorem foldl_set_leavesEntry {value : Value κ α} (ordered : value.Ordered) (key : κ)
    {fields : List (κ × Value κ α)} (rest : (Value.map fields).Ordered)
    (fresh : fields.lookup key = none) :
    (leavesEntry (key, value)).foldl (fun fields leaf => set leaf.1 leaf.2 fields) fields =
      insertEntry key value fields := by
  induction ordered generalizing key fields with
  | scalar content => exact set_append_singleton rest [] key (.scalar content)
  | @map inner ascending values ih =>
    by_cases none_left : inner = []
    · subst none_left
      exact set_append_singleton rest [] key (.map [])
    · have sorted : (Value.map inner).Ordered := .map ascending values
      have nothing : childFields fields key = [] := by rw [childFields, fresh]
      have leaf_read := (leavesEach_spec sorted).2
      have some_leaf : leavesEach inner ≠ [] := by
        rw [← leaves_map_of_ne none_left]
        exact sorted.leaves_ne_nil
      have built : (leavesEach inner).foldl (fun fields leaf => set leaf.1 leaf.2 fields) [] =
          inner := foldl_set_leavesEach sorted fun e member => ih e member
      rw [leavesEntry_eq, leaves_map_of_ne none_left, List.foldl_map,
        foldl_set_below some_leaf named_leavesEach (fun leaf member => (leaf_read leaf member).2) key
          rest, nothing, built]

end Merge

namespace ObjectValue

variable {κ α : Type} [LinearOrder κ]

/-- `ObjectValue::ToFieldMask` (`object_value.cc:261`). -/
def toFieldMask (self : ObjectValue κ α) : FieldMask κ := extractFieldMask self.fields

/-- `SetAll(GetPatch())` of a patch mutation with this value and mask
(`patch_mutation.cc:93`). -/
def patch (self value : ObjectValue κ α) (mask : FieldMask κ) : ObjectValue κ α where
  fields := setAll (getPatch value.fields mask) self.fields
  ordered := by
    refine ordered_setAll (fun it member v read => ?_) self.ordered
    obtain ⟨path, _, rfl⟩ := List.mem_map.mp member
    exact value.ordered.get read

/-- A document written with `merge` over an old one reads as written at each of its
own paths and, apart from them, as the old one did. -/
theorem patch_toFieldMask_reads (old new : ObjectValue κ α) :
    (∀ path ∈ new.toFieldMask, (old.patch new new.toFieldMask).get path = new.get path) ∧
      ∀ other, (∀ path ∈ new.toFieldMask, Apart other path) →
        (old.patch new new.toFieldMask).get other = old.get other := by
  obtain ⟨apart, leaf_read⟩ := leavesEach_spec new.ordered
  obtain ⟨_, reads, beside⟩ := foldl_set_apart apart named_leavesEach
    (fun leaf member => (leaf_read leaf member).2) old.ordered
  rw [← setAll_getPatch old.ordered new.ordered] at reads beside
  rw [toFieldMask, extractFieldMask_eq new.ordered] at *
  refine ⟨fun path member => ?_, fun other away => beside other fun leaf member => ?_⟩
  · obtain ⟨leaf, inside, rfl⟩ := List.mem_map.mp member
    exact (reads leaf inside).trans (leaf_read leaf inside).1.symm
  · exact away leaf.1 (List.mem_map_of_mem member)

/-- Merging into an empty document gives the written document: `merge` on a document
that does not exist is a plain `set`. -/
theorem empty_patch_toFieldMask (value : ObjectValue κ α) :
    (empty : ObjectValue κ α).patch value value.toFieldMask = value := by
  refine ext ?_
  rw [patch, toFieldMask]
  have built := setAll_getPatch Value.ordered_nil value.ordered
  refine built.trans (foldl_set_leavesEach value.ordered fun e member key {old} rest fresh => ?_)
  cases value.ordered with
  | map ascending values => exact foldl_set_leavesEntry (values e member) key rest fresh

end ObjectValue

end QuickNote.Firestore
