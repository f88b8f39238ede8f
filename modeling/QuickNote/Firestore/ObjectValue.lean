import QuickNote.Firestore.FieldChanges
import Mathlib.Data.List.Lex

/-!
# Documents as nested maps

`ObjectValue` of the Firestore client (`core/src/model/object_value.cc`): the data
of a document, read and changed at field paths.
-/

namespace QuickNote.Firestore

open SortedEntries

/-- `FieldPath`: the keys on the way into nested maps. -/
abbrev FieldPath (κ : Type) := List κ

section Operations

variable {κ α : Type} [LinearOrder κ]

/-- `FindEntry` (`object_value.cc:68`), by `std::equal_range`. -/
def findEntry (value : Value κ α) (segment : κ) : Option (Value κ α) :=
  match value with
  | .scalar _ => none
  | .map fields =>
      match fields.dropWhile fun e => e.1 < segment with
      | [] => none
      | e :: _ => if segment < e.1 then none else some e.2

/-- `ObjectValue::Get` (`object_value.cc:293`). -/
def Value.get : FieldPath κ → Value κ α → Option (Value κ α)
  | [], value => some value
  | segment :: rest, value => (findEntry value segment).bind (Value.get rest)

/-- A write through the pointer to the value of an entry. -/
def writeEntry (segment : κ) (value : Value κ α) (fields : List (κ × Value κ α)) :
    List (κ × Value κ α) :=
  fields.map fun e => if e.1 = segment then (e.1, value) else e

/-- `ParentMap` (`object_value.cc:389`) and then `change` on the map it returns a
pointer to. -/
def atParentMap (change : List (κ × Value κ α) → List (κ × Value κ α)) :
    FieldPath κ → List (κ × Value κ α) → List (κ × Value κ α)
  | [], fields => change fields
  | segment :: rest, fields =>
      match findEntry (.map fields) segment with
      | some (.map inner) => writeEntry segment (.map (atParentMap change rest inner)) fields
      -- The element is not a map value: it becomes an empty one.
      | some (.scalar _) => writeEntry segment (.map (atParentMap change rest [])) fields
      | none =>
          writeEntry segment (.map (atParentMap change rest []))
            (applyChanges fields [(segment, .map [])] [])

/-- `ObjectValue::Set` (`object_value.cc:320`). -/
def set (path : FieldPath κ) (value : Value κ α) (fields : List (κ × Value κ α)) :
    List (κ × Value κ α) :=
  match path.getLast? with
  | none => fields
  | some last => atParentMap (applyChanges · [(last, value)] []) path.dropLast fields

/-- `ObjectValue::Delete` (`object_value.cc:363`). -/
def delete : FieldPath κ → List (κ × Value κ α) → List (κ × Value κ α)
  | [], fields => fields
  | [last], fields => applyChanges fields [] [last]
  | segment :: rest, fields =>
      match findEntry (.map fields) segment with
      | some (.map inner) => writeEntry segment (.map (delete rest inner)) fields
      | _ => fields

/-- `TransformMap`: a value for each path, none where the field is to go. -/
abbrev TransformMap (κ α : Type) := List (FieldPath κ × Option (Value κ α))

/-- `IsImmediateParentOf` (`base_path.h`). -/
def isImmediateParentOf (parent path : FieldPath κ) : Bool :=
  parent.length + 1 = path.length ∧ parent <+: path

/-- The variables of the loop of `SetAll`. -/
structure SetAllState (κ α : Type) where
  parent : FieldPath κ
  upserts : List (κ × Value κ α)
  deletes : List κ
  fields : List (κ × Value κ α)

/-- Insert the accumulated changes at the parent location. -/
def SetAllState.flush (s : SetAllState κ α) : List (κ × Value κ α) :=
  atParentMap (applyChanges · s.upserts s.deletes) s.parent s.fields

def SetAllState.accumulate (last : κ) (value : Option (Value κ α)) (s : SetAllState κ α) :
    SetAllState κ α :=
  match value with
  | some value => { s with upserts := insertEntry last value s.upserts }
  | none => { s with deletes := insertKey last s.deletes }

def SetAllState.next (s : SetAllState κ α) (it : FieldPath κ × Option (Value κ α)) :
    SetAllState κ α :=
  match it.1.getLast? with
  | none => s
  | some last =>
      if isImmediateParentOf s.parent it.1 then s.accumulate last it.2
      else
        SetAllState.accumulate last it.2
          { parent := it.1.dropLast, upserts := [], deletes := [], fields := s.flush }

/-- `ObjectValue::SetAll` (`object_value.cc:332`). -/
def setAll (data : TransformMap κ α) (fields : List (κ × Value κ α)) : List (κ × Value κ α) :=
  (data.foldl SetAllState.next { parent := [], upserts := [], deletes := [], fields }).flush

end Operations

section Paths

variable {κ α : Type} [LinearOrder κ] {fields : List (κ × Value κ α)}

theorem Value.Ordered.ascending (ordered : (Value.map fields).Ordered) : Ascending fields := by
  cases ordered with
  | map ascending values => exact ascending

theorem Value.Ordered.of_lookup (ordered : (Value.map fields).Ordered) {key : κ}
    {value : Value κ α} (found : fields.lookup key = some value) : value.Ordered := by
  cases ordered with
  | map ascending values => exact values (key, value) (mem_keys_of_lookup found)

theorem Value.Ordered.insertEntry (ordered : (Value.map fields).Ordered) (key : κ)
    {value : Value κ α} (inner : value.Ordered) :
    (Value.map (insertEntry key value fields)).Ordered := by
  cases ordered with
  | map ascending values =>
    refine .map (ascending.insert key value) fun e member => ?_
    rcases mem_insertEntry member with rfl | old
    · exact inner
    · exact values e old

/-- Binary search finds what is there. -/
theorem findEntry_map (ascending : Ascending fields) (segment : κ) :
    findEntry (.map fields) segment = fields.lookup segment := by
  induction fields with
  | nil => rfl
  | cons e rest ih =>
    obtain ⟨above, tail⟩ := Ascending.cons.mp ascending
    have found := ih tail
    rw [findEntry] at found ⊢
    rw [lookup_cons]
    by_cases before : e.1 < segment
    · rw [List.dropWhile_cons_of_pos (by simpa using before), if_neg before.ne']
      exact found
    · rw [List.dropWhile_cons_of_neg (by simpa using before)]
      by_cases equal : segment = e.1
      · simp [equal]
      · have after : segment < e.1 := lt_of_le_of_ne (not_lt.mp before) equal
        have absent : rest.lookup segment = none :=
          lookup_eq_none_of_lt fun e' member => after.trans (above e' member)
        simp [equal, after, absent]

/-- The fields of the map value at `segment`, none where there is no map. -/
def childFields (fields : List (κ × Value κ α)) (segment : κ) : List (κ × Value κ α) :=
  match fields.lookup segment with
  | some (.map inner) => inner
  | _ => []

theorem Value.Ordered.childFields (ordered : (Value.map fields).Ordered) (segment : κ) :
    (Value.map (childFields fields segment)).Ordered := by
  rw [Firestore.childFields]
  cases found : fields.lookup segment with
  | none => exact .map Ascending.nil (by simp)
  | some value =>
    cases value with
    | scalar content => exact .map Ascending.nil (by simp)
    | map inner => exact ordered.of_lookup found

@[simp] theorem childFields_insertEntry (fields inner : List (κ × Value κ α)) (segment : κ) :
    childFields (insertEntry segment (.map inner) fields) segment = inner := by
  simp [childFields]

theorem lookup_writeEntry (segment key : κ) (value : Value κ α) :
    (writeEntry segment value fields).lookup key =
      if key = segment then (fields.lookup key).map fun _ => value else fields.lookup key := by
  induction fields with
  | nil => simp [writeEntry]
  | cons e rest ih =>
    rw [writeEntry] at ih ⊢
    rw [List.map_cons, lookup_cons, lookup_cons, ih]
    by_cases written : e.1 = segment
    · by_cases here : key = e.1
      · simp [here, written]
      · simp [written, written ▸ here]
    · by_cases here : key = e.1
      · simp [here, written]
      · simp [here, written]

theorem ascending_writeEntry (ascending : Ascending fields) (segment : κ) (value : Value κ α) :
    Ascending (writeEntry segment value fields) := by
  refine List.pairwise_map.mpr (ascending.imp fun {a b} lt => ?_)
  have same : ∀ e : κ × Value κ α, (if e.1 = segment then (e.1, value) else e).1 = e.1 := by
    intro e
    by_cases written : e.1 = segment <;> simp [written]
  rw [same, same]
  exact lt

/-- An entry that is there is overwritten in its place. -/
theorem writeEntry_eq (ascending : Ascending fields) {segment : κ}
    (present : fields.lookup segment ≠ none) (value : Value κ α) :
    writeEntry segment value fields = insertEntry segment value fields := by
  refine (ascending_writeEntry ascending segment value).ext (ascending.insert segment value) ?_
  intro key
  rw [lookup_writeEntry, lookup_insertEntry]
  by_cases here : key = segment
  · subst here
    obtain ⟨old, found⟩ := Option.ne_none_iff_exists'.mp present
    simp [found]
  · simp [here]

/-- One step down to the parent map: the entry is made to hold a map if it does not
already, and the rest of the way is inside that map. -/
theorem atParentMap_cons (ascending : Ascending fields)
    (change : List (κ × Value κ α) → List (κ × Value κ α)) (segment : κ) (rest : FieldPath κ) :
    atParentMap change (segment :: rest) fields =
      insertEntry segment (.map (atParentMap change rest (childFields fields segment))) fields := by
  rw [atParentMap, findEntry_map ascending, childFields]
  cases found : fields.lookup segment with
  | none =>
    have created : applyChanges fields [(segment, .map [])] [] =
        insertEntry segment (.map []) fields := by
      rw [applyChanges_upserts ascending (List.pairwise_singleton _ _)]
      rfl
    simp only [created]
    rw [writeEntry_eq (ascending.insert segment _) (by simp), insertEntry_insertEntry ascending]
  | some value =>
    cases value with
    | scalar content => exact writeEntry_eq ascending (by simp [found]) _
    | map inner => exact writeEntry_eq ascending (by simp [found]) _

/-- What keeps the order of the parent map keeps it everywhere. -/
theorem ordered_atParentMap {change : List (κ × Value κ α) → List (κ × Value κ α)}
    (keeps : ∀ inner : List (κ × Value κ α), (Value.map inner).Ordered →
      (Value.map (change inner)).Ordered) (path : FieldPath κ)
    (ordered : (Value.map fields).Ordered) : (Value.map (atParentMap change path fields)).Ordered := by
  induction path generalizing fields with
  | nil => exact keeps fields ordered
  | cons segment rest ih =>
    rw [atParentMap_cons ordered.ascending]
    exact ordered.insertEntry segment (ih (ordered.childFields segment))

/-- Two changes of the same parent map, one after the other. -/
theorem atParentMap_atParentMap (first second : List (κ × Value κ α) → List (κ × Value κ α))
    (path : FieldPath κ) (ordered : (Value.map fields).Ordered) :
    atParentMap second path (atParentMap first path fields) =
      atParentMap (second ∘ first) path fields := by
  induction path generalizing fields with
  | nil => rfl
  | cons segment rest ih =>
    have inner := ordered.childFields segment
    rw [atParentMap_cons ordered.ascending, atParentMap_cons (ordered.ascending.insert segment _),
      atParentMap_cons ordered.ascending, childFields_insertEntry, ih inner,
      insertEntry_insertEntry ordered.ascending]

theorem atParentMap_congr {first second : List (κ × Value κ α) → List (κ × Value κ α)}
    (same : ∀ inner : List (κ × Value κ α), (Value.map inner).Ordered → first inner = second inner)
    (path : FieldPath κ) (ordered : (Value.map fields).Ordered) :
    atParentMap first path fields = atParentMap second path fields := by
  induction path generalizing fields with
  | nil => exact same fields ordered
  | cons segment rest ih =>
    rw [atParentMap_cons ordered.ascending, atParentMap_cons ordered.ascending,
      ih (ordered.childFields segment)]

/-- `Set` puts the value into the parent map of its path. -/
theorem set_append_singleton (ordered : (Value.map fields).Ordered) (parent : FieldPath κ) (last : κ)
    (value : Value κ α) :
    set (parent ++ [last]) value fields =
      atParentMap (insertEntry last value.sortFields) parent fields := by
  rw [set, List.getLast?_concat, List.dropLast_concat]
  refine atParentMap_congr (fun inner sorted => ?_) parent ordered
  rw [applyChanges_upserts sorted.ascending (List.pairwise_singleton _ _)]
  rfl

theorem ordered_set (ordered : (Value.map fields).Ordered) (path : FieldPath κ) {value : Value κ α}
    (sorted : value.Ordered) : (Value.map (set path value fields)).Ordered := by
  rcases List.eq_nil_or_concat' path with rfl | ⟨parent, last, rfl⟩
  · exact ordered
  · rw [set_append_singleton ordered, sorted.sortFields_eq]
    exact ordered_atParentMap (fun inner keeps => keeps.insertEntry last sorted) parent ordered

/-! ### What is read after a change -/

theorem get_singleton (ascending : Ascending fields) (segment : κ) :
    (Value.map fields).get [segment] = fields.lookup segment := by
  rw [Value.get, findEntry_map ascending]
  cases fields.lookup segment <;> rfl

/-- Below an entry, reads see only the fields of the map that it holds. -/
theorem get_cons (ascending : Ascending fields) (segment : κ) {rest : FieldPath κ}
    (inside : rest ≠ []) :
    (Value.map fields).get (segment :: rest) = (Value.map (childFields fields segment)).get rest := by
  obtain ⟨next, others, rfl⟩ := List.exists_cons_of_ne_nil inside
  rw [Value.get, findEntry_map ascending, childFields]
  cases found : fields.lookup segment with
  | none => rfl
  | some value =>
    cases value with
    | scalar content => rfl
    | map inner => rfl

/-- The value set at a path is the one read there. -/
theorem get_set_self (ordered : (Value.map fields).Ordered) {path : FieldPath κ} (field : path ≠ [])
    {value : Value κ α} (sorted : value.Ordered) :
    (Value.map (set path value fields)).get path = some value := by
  rcases List.eq_nil_or_concat' path with rfl | ⟨parent, last, rfl⟩
  · exact absurd rfl field
  · clear field
    rw [set_append_singleton ordered, sorted.sortFields_eq]
    induction parent generalizing fields with
    | nil =>
      rw [List.nil_append, atParentMap, get_singleton (ordered.ascending.insert last value)]
      simp
    | cons segment rest ih =>
      rw [atParentMap_cons ordered.ascending, List.cons_append,
        get_cons (ordered.ascending.insert segment _) segment (by simp), childFields_insertEntry]
      exact ih (ordered.childFields segment)

/-- A read beside the path that was set sees what it saw before. -/
theorem get_set_other (ordered : (Value.map fields).Ordered) {path other : FieldPath κ}
    (value : Value κ α) (above : ¬ other <+: path) (below : ¬ path <+: other) :
    (Value.map (set path value fields)).get other = (Value.map fields).get other := by
  rcases List.eq_nil_or_concat' path with rfl | ⟨parent, last, rfl⟩
  · exact absurd (List.nil_prefix) below
  · rw [set_append_singleton ordered]
    induction parent generalizing fields other with
    | nil =>
      cases other with
      | nil => exact absurd List.nil_prefix above
      | cons key others =>
        have different : key ≠ last := fun equal => below (by simp [equal])
        rw [atParentMap, Value.get, Value.get,
          findEntry_map (ordered.ascending.insert last _), findEntry_map ordered.ascending,
          lookup_insertEntry, if_neg different]
    | cons segment rest ih =>
      rw [atParentMap_cons ordered.ascending]
      cases other with
      | nil => exact absurd List.nil_prefix above
      | cons key others =>
        by_cases same : key = segment
        · subst same
          have inside : others ≠ [] := fun none_left => above (by simp [none_left])
          rw [get_cons (ordered.ascending.insert key _) key inside, childFields_insertEntry,
            get_cons ordered.ascending key inside]
          exact ih (ordered.childFields key)
            (fun pre => above (by simpa using pre)) (fun pre => below (by simpa using pre))
        · rw [Value.get, Value.get, findEntry_map (ordered.ascending.insert segment _),
            findEntry_map ordered.ascending, lookup_insertEntry, if_neg same]

end Paths

section SetAll

variable {κ α : Type} [LinearOrder κ] {fields : List (κ × Value κ α)}

theorem isImmediateParentOf_iff {parent path : FieldPath κ} {last : κ} :
    isImmediateParentOf parent (path ++ [last]) = true ↔ parent = path := by
  rw [isImmediateParentOf, decide_eq_true_iff]
  constructor
  · rintro ⟨size, pre⟩
    have shorter : parent.length = path.length := by simpa using size
    exact (List.prefix_of_prefix_length_le pre (List.prefix_append path [last])
      shorter.le).eq_of_length shorter
  · rintro rfl
    exact ⟨by simp, List.prefix_append parent [last]⟩

/-- The changes that the loop of `SetAll` holds back are upserts in key order. -/
structure SetAllState.Holding (s : SetAllState κ α) : Prop where
  nothing_deleted : s.deletes = []
  ascending : Ascending s.upserts
  values : ∀ e ∈ s.upserts, e.2.Ordered
  ordered : (Value.map s.fields).Ordered

theorem mapValues_sortFields {upserts : List (κ × Value κ α)}
    (values : ∀ e ∈ upserts, e.2.Ordered) : mapValues Value.sortFields upserts = upserts := by
  rw [mapValues]
  exact (List.map_congr_left fun e member => by rw [(values e member).sortFields_eq]).trans
    (List.map_id' upserts)

theorem Value.Ordered.insertAll (ordered : (Value.map fields).Ordered)
    {upserts : List (κ × Value κ α)} (values : ∀ e ∈ upserts, e.2.Ordered) :
    (Value.map (insertAll fields upserts)).Ordered := by
  induction upserts generalizing fields with
  | nil => exact ordered
  | cons e rest ih =>
    exact ih (ordered.insertEntry e.1 (values e (by simp))) fun e' member =>
      values e' (by simp [member])

namespace SetAllState.Holding

variable {s : SetAllState κ α}

theorem flush_eq (h : s.Holding) :
    s.flush = atParentMap (SortedEntries.insertAll · s.upserts) s.parent s.fields := by
  rw [SetAllState.flush, h.nothing_deleted]
  refine atParentMap_congr (fun inner sorted => ?_) s.parent h.ordered
  rw [applyChanges_upserts sorted.ascending h.ascending, mapValues_sortFields h.values]

theorem ordered_flush (h : s.Holding) : (Value.map s.flush).Ordered := by
  rw [h.flush_eq]
  exact ordered_atParentMap (fun inner sorted => sorted.insertAll h.values) s.parent h.ordered

/-- Nothing held back yet for a parent map. -/
theorem of_ordered (ordered : (Value.map fields).Ordered) (parent : FieldPath κ) :
    SetAllState.Holding { parent, upserts := [], deletes := [], fields } ∧
      SetAllState.flush { parent, upserts := [], deletes := [], fields } =
        atParentMap id parent fields := by
  have holding : SetAllState.Holding { parent, upserts := [], deletes := [], fields } :=
    ⟨rfl, Ascending.nil, by simp, ordered⟩
  exact ⟨holding, holding.flush_eq⟩

/-- Holding back one more change of the same parent map. -/
theorem accumulate (h : s.Holding) (last : κ) {value : Value κ α} (sorted : value.Ordered) :
    (s.accumulate last (some value)).Holding ∧
      (s.accumulate last (some value)).flush = set (s.parent ++ [last]) value s.flush := by
  have holding : (s.accumulate last (some value)).Holding := by
    refine ⟨h.nothing_deleted, h.ascending.insert last value, fun e member => ?_, h.ordered⟩
    rcases mem_insertEntry member with rfl | old
    · exact sorted
    · exact h.values e old
  refine ⟨holding, ?_⟩
  rw [holding.flush_eq, set_append_singleton h.ordered_flush, sorted.sortFields_eq, h.flush_eq,
    atParentMap_atParentMap _ _ _ h.ordered]
  exact atParentMap_congr (fun inner keeps =>
    insertAll_insertEntry keeps.ascending h.ascending last value) s.parent h.ordered

/-- One round of the loop sets one path. -/
theorem next (h : s.Holding) {path : FieldPath κ} (field : path ≠ []) {value : Value κ α}
    (sorted : value.Ordered) :
    (s.next (path, some value)).Holding ∧
      (s.next (path, some value)).flush = set path value s.flush := by
  rcases List.eq_nil_or_concat' path with rfl | ⟨parent, last, rfl⟩
  · exact absurd rfl field
  · rw [SetAllState.next, List.getLast?_concat, List.dropLast_concat]
    by_cases same : isImmediateParentOf s.parent (parent ++ [last]) = true
    · obtain rfl := isImmediateParentOf_iff.mp same
      simp only [if_pos same]
      exact h.accumulate last sorted
    · simp only [if_neg same]
      -- The changes held back so far are inserted first.
      obtain ⟨empty, nothing⟩ := of_ordered h.ordered_flush parent
      obtain ⟨held, flushed⟩ := empty.accumulate last sorted
      have created : (Value.map (atParentMap id parent s.flush)).Ordered :=
        ordered_atParentMap (fun _ keeps => keeps) parent h.ordered_flush
      refine ⟨held, flushed.trans ?_⟩
      show set (parent ++ [last]) value _ = _
      rw [nothing, set_append_singleton created, set_append_singleton h.ordered_flush,
        atParentMap_atParentMap _ _ _ h.ordered_flush]
      rfl

end SetAllState.Holding

/-- A batch of values goes in as if each were set on its own, in the order of the
batch. -/
theorem setAll_eq_foldl_set (ordered : (Value.map fields).Ordered)
    {data : List (FieldPath κ × Value κ α)} (named : ∀ e ∈ data, e.1 ≠ [])
    (sorted : ∀ e ∈ data, e.2.Ordered) :
    setAll (data.map fun e => (e.1, some e.2)) fields =
      data.foldl (fun fields e => set e.1 e.2 fields) fields := by
  have run : ∀ {data : List (FieldPath κ × Value κ α)} {s : SetAllState κ α}, s.Holding →
      (∀ e ∈ data, e.1 ≠ []) → (∀ e ∈ data, e.2.Ordered) →
      ((data.map fun e => (e.1, some e.2)).foldl SetAllState.next s).flush =
        data.foldl (fun fields e => set e.1 e.2 fields) s.flush := by
    intro data
    induction data with
    | nil => exact fun _ _ _ => rfl
    | cons e rest ih =>
      intro s holding named sorted
      obtain ⟨kept, stepped⟩ := holding.next (named e (by simp)) (sorted e (by simp))
      rw [List.map_cons, List.foldl_cons, List.foldl_cons, ← stepped]
      exact ih kept (fun e' member => named e' (by simp [member]))
        (fun e' member => sorted e' (by simp [member]))
  obtain ⟨empty, nothing⟩ := SetAllState.Holding.of_ordered ordered []
  rw [setAll, run empty named sorted, nothing]
  rfl

end SetAll

section Invariant

variable {κ α : Type} [LinearOrder κ] {fields : List (κ × Value κ α)}

theorem Value.ordered_nil : (Value.map ([] : List (κ × Value κ α))).Ordered :=
  .map Ascending.nil (by simp)

/-- Whatever `ApplyChanges` does with the deletes, the order is kept. -/
theorem Value.Ordered.applyChanges (ordered : (Value.map fields).Ordered)
    {upserts : List (κ × Value κ α)} (news : Ascending upserts)
    (values : ∀ e ∈ upserts, e.2.Ordered) {deletes : List κ} (sorted : deletes.Pairwise (· < ·)) :
    (Value.map (applyChanges fields upserts deletes)).Ordered := by
  refine .map (ascending_applyChanges ordered.ascending news sorted) fun e member => ?_
  rw [Firestore.applyChanges, mergeLoop_eq ordered.ascending (news.mapValues _) sorted
    (by simp [mapValues]), mapValues_sortFields values] at member
  have kept : (Value.map (without fields (matched deletes fields))).Ordered := by
    cases ordered with
    | map ascending old =>
      exact .map (ascending.remove _) fun e' inside => old e' (List.mem_filter.mp inside).1
  cases kept.insertAll values with
  | map _ all => exact all e (List.mem_of_mem_take member)

theorem Value.Ordered.writeEntry (ordered : (Value.map fields).Ordered) {segment : κ}
    (present : fields.lookup segment ≠ none) {value : Value κ α} (sorted : value.Ordered) :
    (Value.map (writeEntry segment value fields)).Ordered := by
  rw [writeEntry_eq ordered.ascending present]
  exact ordered.insertEntry segment sorted

theorem ordered_delete (path : FieldPath κ) (ordered : (Value.map fields).Ordered) :
    (Value.map (delete path fields)).Ordered := by
  induction path generalizing fields with
  | nil => exact ordered
  | cons segment rest ih =>
    cases rest with
    | nil =>
      exact ordered.applyChanges Ascending.nil (by simp) (List.pairwise_singleton _ _)
    | cons next others =>
      rw [delete, findEntry_map ordered.ascending]
      · cases found : fields.lookup segment with
        | none => exact ordered
        | some value =>
          cases value with
          | scalar content => exact ordered
          | map inner => exact ordered.writeEntry (by simp [found]) (ih (ordered.of_lookup found))
      · simp

/-- The changes held back are what the loop may hold back. -/
structure SetAllState.Valid (s : SetAllState κ α) : Prop where
  ascending : Ascending s.upserts
  values : ∀ e ∈ s.upserts, e.2.Ordered
  sorted : s.deletes.Pairwise (· < ·)
  ordered : (Value.map s.fields).Ordered

theorem SetAllState.Valid.flush {s : SetAllState κ α} (h : s.Valid) : (Value.map s.flush).Ordered :=
  ordered_atParentMap (fun _ inner => inner.applyChanges h.ascending h.values h.sorted) s.parent
    h.ordered

theorem SetAllState.Valid.accumulate {s : SetAllState κ α} (h : s.Valid) (last : κ)
    {value : Option (Value κ α)} (sorted : ∀ v ∈ value, v.Ordered) :
    (s.accumulate last value).Valid := by
  cases value with
  | none => exact ⟨h.ascending, h.values, insertKey_pairwise last h.sorted, h.ordered⟩
  | some value =>
    refine ⟨h.ascending.insert last value, fun e member => ?_, h.sorted, h.ordered⟩
    rcases mem_insertEntry member with rfl | old
    · exact sorted value rfl
    · exact h.values e old

theorem SetAllState.Valid.next {s : SetAllState κ α} (h : s.Valid)
    {it : FieldPath κ × Option (Value κ α)} (sorted : ∀ v ∈ it.2, v.Ordered) : (s.next it).Valid := by
  rw [SetAllState.next]
  cases it.1.getLast? with
  | none => exact h
  | some last =>
    by_cases same : isImmediateParentOf s.parent it.1 = true
    · simp only [if_pos same]
      exact h.accumulate last sorted
    · simp only [if_neg same]
      exact SetAllState.Valid.accumulate ⟨Ascending.nil, by simp, List.Pairwise.nil, h.flush⟩ last
        sorted

theorem ordered_setAll {data : TransformMap κ α} (sorted : ∀ it ∈ data, ∀ v ∈ it.2, v.Ordered)
    (ordered : (Value.map fields).Ordered) : (Value.map (setAll data fields)).Ordered := by
  have run : ∀ {data : TransformMap κ α} {s : SetAllState κ α}, s.Valid →
      (∀ it ∈ data, ∀ v ∈ it.2, v.Ordered) → (data.foldl SetAllState.next s).Valid := by
    intro data
    induction data with
    | nil => exact fun h _ => h
    | cons it rest ih =>
      intro s h sorted
      exact ih (h.next (sorted it (by simp))) fun it' member => sorted it' (by simp [member])
  exact (run ⟨Ascending.nil, by simp, List.Pairwise.nil, ordered⟩ sorted).flush

/-- Whatever is read from a document is in order itself. -/
theorem Value.Ordered.get {value : Value κ α} (ordered : value.Ordered) {path : FieldPath κ}
    {read : Value κ α} (found : value.get path = some read) : read.Ordered := by
  induction path generalizing value with
  | nil =>
    rw [Value.get, Option.some.injEq] at found
    exact found ▸ ordered
  | cons segment rest ih =>
    cases value with
    | scalar content => simp [Value.get, findEntry] at found
    | map fields =>
      rw [Value.get, findEntry_map ordered.ascending, Option.bind_eq_some_iff] at found
      obtain ⟨inner, here, below⟩ := found
      exact ih (ordered.of_lookup here) below

end Invariant

/-- `ObjectValue`: the fields of a document, in order at every level. -/
structure ObjectValue (κ α : Type) [LinearOrder κ] where
  fields : List (κ × Value κ α)
  ordered : (Value.map fields).Ordered

namespace ObjectValue

variable {κ α : Type} [LinearOrder κ]

@[ext] theorem ext {a b : ObjectValue κ α} (same : a.fields = b.fields) : a = b := by
  cases a
  cases b
  simpa using same

/-- The default constructor (`object_value.cc:190`). -/
def empty : ObjectValue κ α := ⟨[], Value.ordered_nil⟩

def get (self : ObjectValue κ α) (path : FieldPath κ) : Option (Value κ α) :=
  (Value.map self.fields).get path

/-- `self.Set(path, DeepClone(*source.Get(path)))`, or `self.Delete(path)` where
`source` has no value there. -/
def copyFrom (self source : ObjectValue κ α) (path : FieldPath κ) : ObjectValue κ α :=
  match found : source.get path with
  | some value => ⟨set path value self.fields, ordered_set self.ordered path (source.ordered.get found)⟩
  | none => ⟨delete path self.fields, ordered_delete path self.ordered⟩

end ObjectValue

end QuickNote.Firestore
