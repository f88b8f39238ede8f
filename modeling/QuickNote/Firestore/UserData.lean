import QuickNote.Firestore.FieldPath
import QuickNote.Firestore.Overlay

/-!
# The data of a write

`FSTUserDataReader` (`Source/API`) with `ParseAccumulator` and `ParseContext`
(`core/src/core/user_data.cc`): what `setData` and `updateData` make of the
dictionaries that they are given.  Arrays, sentinels such as `FieldValue.delete()`
and data that is not in dictionaries with string keys are left out.
-/

namespace QuickNote.Firestore

open SortedEntries

section Dictionaries

variable {κ α : Type}

/-- A dictionary lists each key once, in no particular order. -/
inductive Value.Distinct : Value κ α → Prop
  | scalar (content : α) : Distinct (.scalar content)
  | map {fields : List (κ × Value κ α)} (nodup : (fields.map Prod.fst).Nodup)
      (values : ∀ e ∈ fields, Distinct e.2) : Distinct (.map fields)

/-- `NSDictionary`, and the dictionaries in it. -/
structure Dictionary (κ α : Type) where
  fields : List (κ × Value κ α)
  distinct : (Value.map fields).Distinct

theorem Dictionary.values_distinct (self : Dictionary κ α) : ∀ e ∈ self.fields, e.2.Distinct := by
  obtain ⟨fields, distinct⟩ := self
  cases distinct with
  | map _ values => exact values

theorem Value.Distinct.leaves_ne_nil {value : Value κ α} (distinct : value.Distinct) :
    value.leaves ≠ [] := by
  induction distinct with
  | scalar content => simp [Value.leaves]
  | @map fields nodup values ih =>
    cases fields with
    | nil => simp [Value.leaves]
    | cons e rest =>
      rw [leaves_map_of_ne (by simp), leavesEach]
      intro empty
      have first : leavesEntry e = [] := (List.append_eq_nil_iff.mp empty).1
      rw [leavesEntry_eq, List.map_eq_nil_iff] at first
      exact ih e (by simp) first

variable [LinearOrder κ]

theorem mem_sorted {fields : List (κ × Value κ α)} {e : κ × Value κ α} :
    e ∈ (sortFieldsEach fields).insertionSort (fun a b => a.1 ≤ b.1) ↔
      ∃ e' ∈ fields, (e'.1, e'.2.sortFields) = e := by
  rw [(List.perm_insertionSort _ _).mem_iff, sortFieldsEach_eq_map, mapValues, List.mem_map]

/-- Sorting gives a document the form that `ObjectValue` keeps. -/
theorem Value.Distinct.ordered_sortFields {value : Value κ α} (distinct : value.Distinct) :
    value.sortFields.Ordered := by
  induction distinct with
  | scalar content => exact .scalar content
  | @map fields nodup values ih =>
    refine .map ?_ fun e member => ?_
    · have total : Std.Total fun a b : κ × Value κ α => a.1 ≤ b.1 := ⟨fun a b => le_total a.1 b.1⟩
      have trans : IsTrans (κ × Value κ α) fun a b => a.1 ≤ b.1 := ⟨fun _ _ _ => le_trans⟩
      have sorted := List.pairwise_insertionSort (fun a b : κ × Value κ α => a.1 ≤ b.1)
        (sortFieldsEach fields)
      have keys : ((sortFieldsEach fields).insertionSort fun a b => a.1 ≤ b.1).Pairwise
          fun a b => a.1 ≠ b.1 := by
        rw [← List.pairwise_map (f := Prod.fst), ← List.Nodup,
          ((List.perm_insertionSort _ _).map Prod.fst).nodup_iff, sortFieldsEach_eq_map,
          keys_mapValues]
        exact nodup
      exact sorted.imp₂ (fun _ _ le ne => lt_of_le_of_ne le ne) keys
    · obtain ⟨e', inside, rfl⟩ := mem_sorted.mp member
      exact ih e' inside

theorem mem_leavesEach_sorted {fields : List (κ × Value κ α)}
    (entries : ∀ e ∈ fields, ∀ {leaf : FieldPath κ × Value κ α},
      leaf ∈ e.2.sortFields.leaves ↔ leaf ∈ e.2.leaves) {leaf : FieldPath κ × Value κ α} :
    leaf ∈ leavesEach ((sortFieldsEach fields).insertionSort fun a b => a.1 ≤ b.1) ↔
      leaf ∈ leavesEach fields := by
  rw [mem_leavesEach, mem_leavesEach]
  constructor
  · rintro ⟨e, member, inside⟩
    obtain ⟨e', here, rfl⟩ := mem_sorted.mp member
    obtain ⟨below, deeper, rfl⟩ := mem_leavesEntry.mp inside
    exact ⟨e', here, mem_leavesEntry.mpr ⟨below, (entries e' here).mp deeper, rfl⟩⟩
  · rintro ⟨e, here, inside⟩
    obtain ⟨below, deeper, rfl⟩ := mem_leavesEntry.mp inside
    exact ⟨(e.1, e.2.sortFields), mem_sorted.mpr ⟨e, here, rfl⟩,
      mem_leavesEntry.mpr ⟨below, (entries e here).mpr deeper, rfl⟩⟩

/-- Sorting moves no leaf. -/
theorem Value.Distinct.mem_leaves_sortFields {value : Value κ α} (distinct : value.Distinct)
    {leaf : FieldPath κ × Value κ α} : leaf ∈ value.sortFields.leaves ↔ leaf ∈ value.leaves := by
  induction distinct generalizing leaf with
  | scalar content => rfl
  | @map fields nodup values ih =>
    rw [Value.sortFields]
    by_cases none_left : fields = []
    · subst none_left
      rfl
    · obtain ⟨first, others, whole⟩ := List.exists_cons_of_ne_nil none_left
      have some_left : (sortFieldsEach fields).insertionSort (fun a b => a.1 ≤ b.1) ≠ [] :=
        List.ne_nil_of_mem (mem_sorted.mpr ⟨first, by simp [whole], rfl⟩)
      rw [leaves_map_of_ne some_left, leaves_map_of_ne none_left]
      exact mem_leavesEach_sorted fun e member => ih e member

/-- `ObjectValue{std::move(*updateData)}`, which sorts the fields. -/
def Dictionary.toObjectValue (self : Dictionary κ α) : ObjectValue κ α where
  fields := (sortFieldsEach self.fields).insertionSort fun a b => a.1 ≤ b.1
  ordered := self.distinct.ordered_sortFields

theorem ObjectValue.toFieldMask_pairwise (self : ObjectValue κ α) :
    self.toFieldMask.Pairwise (· < ·) := by
  rw [toFieldMask, extractFieldMask_eq self.ordered]
  by_cases none_left : self.fields = []
  · rw [none_left]
    exact List.Pairwise.nil
  · rw [← leaves_map_of_ne none_left]
    exact List.pairwise_map.mpr (self.ordered.leaves_pairwise.imp fun both => both.1)

theorem Dictionary.mem_toFieldMask (self : Dictionary κ α) {path : FieldPath κ} :
    path ∈ self.toObjectValue.toFieldMask ↔ ∃ leaf ∈ leavesEach self.fields, leaf.1 = path := by
  rw [ObjectValue.toFieldMask, extractFieldMask_eq self.toObjectValue.ordered, List.mem_map]
  refine exists_congr fun leaf => and_congr_left fun _ => ?_
  exact mem_leavesEach_sorted fun e member => (self.values_distinct e member).mem_leaves_sortFields

end Dictionaries

section Reader

variable {α : Type}

/-- `RESERVED_FIELD_DESIGNATOR`. -/
def reservedFieldDesignator : List Char := ['_', '_']

/-- `ValidatePathSegment` (`user_data.cc:185`): the name is not empty and does not begin
and end with the designator. -/
def validatePathSegment (segment : String) : Bool :=
  segment ≠ "" ∧ ¬ (reservedFieldDesignator.isPrefixOf segment.toList ∧
    reservedFieldDesignator.isSuffixOf segment.toList)

mutual

/-- `parseData:context:` (`FSTUserDataReader.mm:269`) at a path, with the field mask of the
accumulator; the value itself is taken over.  An invalid name throws. -/
def parseData (path : FieldPath String) : Value String α → FieldMask String →
    Option (FieldMask String)
  | .scalar _, fieldMask => some (insertKey path fieldMask)
  | .map dict, fieldMask =>
      if dict.isEmpty then
        if path ≠ [] then some (insertKey path fieldMask) else some fieldMask
      else parseDictionary path dict fieldMask

/-- `parseDictionary:context:` (`FSTUserDataReader.mm:305`). -/
def parseDictionary (path : FieldPath String) : List (String × Value String α) →
    FieldMask String → Option (FieldMask String)
  | [], fieldMask => some fieldMask
  | entry :: rest, fieldMask => (parseEntry path entry fieldMask).bind (parseDictionary path rest)

def parseEntry (path : FieldPath String) : String × Value String α → FieldMask String →
    Option (FieldMask String)
  | (key, value), fieldMask =>
      if validatePathSegment key then parseData (path ++ [key]) value fieldMask else none

end

/-- `ParsedSetData` and `ParsedUpdateData`; the mask is there where `patch_` is. -/
structure ParsedData (α : Type) where
  data : ObjectValue String α
  fieldMask : Option (FieldMask String)

/-- `parsedSetData:` (`FSTUserDataReader.mm:145`). -/
def parsedSetData (input : Dictionary String α) : Option (ParsedData α) := do
  let _ ← parseData [] (.map input.fields) []
  some { data := input.toObjectValue, fieldMask := none }

/-- `parsedMergeData:fieldMask:` (`FSTUserDataReader.mm:159`) without a mask of the user's. -/
def parsedMergeData (input : Dictionary String α) : Option (ParsedData α) := do
  let fieldMask ← parseData [] (.map input.fields) []
  some { data := input.toObjectValue, fieldMask := some fieldMask }

/-- The value of an entry of `updateData`. -/
abbrev UpdateValue (α : Type) := { value : Value String α // value.Distinct }

/-- `updateData.Set(path, std::move(*parsedValue))`. -/
def ObjectValue.set (self : ObjectValue String α) (path : FieldPath String)
    (value : UpdateValue α) : ObjectValue String α where
  fields := Firestore.set path value.val self.fields
  ordered := by
    rcases List.eq_nil_or_concat' path with rfl | ⟨parent, last, rfl⟩
    · exact self.ordered
    · rw [set_append_singleton self.ordered]
      exact ordered_atParentMap
        (fun inner keeps => keeps.insertEntry last value.property.ordered_sortFields) parent
        self.ordered

/-- The block of `parsedUpdateData:` on an entry of the dictionary, with the path that
`FromDotSeparatedString` makes of its key.  `ChildContext` validates the path. -/
def addUpdate (parsed : ObjectValue String α × FieldMask String)
    (entry : FieldPath String × UpdateValue α) : Option (ObjectValue String α × FieldMask String) := do
  guard (entry.1.all validatePathSegment)
  let fieldMask ← parseData entry.1 entry.2.val parsed.2
  some (parsed.1.set entry.1 entry.2, insertKey entry.1 fieldMask)

/-- `parsedUpdateData:` (`FSTUserDataReader.mm:204`). -/
def parsedUpdateData (input : List (FieldPath String × UpdateValue α)) :
    Option (ParsedData α) := do
  let (data, fieldMask) ← input.foldlM addUpdate (ObjectValue.empty, [])
  some { data, fieldMask := some fieldMask }

/-- `ToMutation` (`user_data.cc:227`, `:249`). -/
def ParsedData.toMutation {δ : Type} (self : ParsedData α) (key : δ) (precondition : Precondition) :
    Mutation δ String α where
  key := key
  precondition := precondition
  operation :=
    match self.fieldMask with
    | some fieldMask => .patch self.data fieldMask
    | none => .set self.data

namespace DocumentReference

variable {δ : Type}

/-- `setData:merge:` (`FIRDocumentReference.mm:160`) and `SetData`
(`document_reference.cc:96`). -/
def setData (key : δ) (documentData : Dictionary String α) (merge : Bool) :
    Option (Mutation δ String α) :=
  (if merge then parsedMergeData documentData else parsedSetData documentData).map
    (·.toMutation key .none)

/-- `updateData:` (`FIRDocumentReference.mm:181`) and `UpdateData`
(`document_reference.cc:103`). -/
def updateData (key : δ) (fields : List (String × UpdateValue α)) :
    Option (Mutation δ String α) := do
  let entries ← fields.mapM fun entry =>
    (FieldPath.fromDotSeparatedString entry.1).toOption.map (·, entry.2)
  let parsed ← parsedUpdateData entries
  some (parsed.toMutation key (.exist true))

/-- `DeleteDocument` (`document_reference.cc:110`). -/
def deleteDocument (key : δ) : Mutation δ String α where
  key := key
  precondition := .none
  operation := .delete

end DocumentReference

/-- What parsing adds to the mask: the paths of the leaves, unless one has an invalid
name in it. -/
def Collects (path : FieldPath String) (leaves : List (FieldPath String × Value String α))
    (fieldMask : FieldMask String) (parsed : Option (FieldMask String)) : Prop :=
  match parsed with
  | none => ∃ leaf ∈ leaves, ∃ segment ∈ leaf.1, validatePathSegment segment = false
  | some all => all.Pairwise (· < ·) ∧
      (∀ leaf ∈ leaves, ∀ segment ∈ leaf.1, validatePathSegment segment = true) ∧
      ∀ other, other ∈ all ↔ other ∈ fieldMask ∨ ∃ leaf ∈ leaves, other = path ++ leaf.1

theorem collects_parseDictionary {path : FieldPath String}
    {fields : List (String × Value String α)}
    (entries : ∀ e ∈ fields, ∀ {fieldMask : FieldMask String}, fieldMask.Pairwise (· < ·) →
      Collects path (leavesEntry e) fieldMask (parseEntry path e fieldMask))
    {fieldMask : FieldMask String} (sorted : fieldMask.Pairwise (· < ·)) :
    Collects path (leavesEach fields) fieldMask (parseDictionary path fields fieldMask) := by
  induction fields generalizing fieldMask with
  | nil =>
    rw [parseDictionary]
    exact ⟨sorted, by simp [leavesEach], by simp [leavesEach]⟩
  | cons e rest ih =>
    rw [parseDictionary, leavesEach]
    have first := entries e (by simp) sorted
    cases parsed : parseEntry path e fieldMask with
    | none =>
      rw [parsed] at first
      obtain ⟨leaf, member, bad⟩ := first
      exact ⟨leaf, List.mem_append_left _ member, bad⟩
    | some next =>
      rw [parsed] at first
      obtain ⟨sortedNext, valid, members⟩ := first
      have later := ih (fun e' member => entries e' (by simp [member])) sortedNext
      rw [Option.bind_some]
      cases parsedRest : parseDictionary path rest next with
      | none =>
        rw [parsedRest] at later
        obtain ⟨leaf, member, bad⟩ := later
        exact ⟨leaf, List.mem_append_right _ member, bad⟩
      | some all =>
        rw [parsedRest] at later
        obtain ⟨sortedAll, validRest, membersRest⟩ := later
        refine ⟨sortedAll, fun leaf member => ?_, fun other => ?_⟩
        · rcases List.mem_append.mp member with here | there
          · exact valid leaf here
          · exact validRest leaf there
        · rw [membersRest, members, or_assoc]
          refine or_congr_right ?_
          simp only [List.mem_append]
          constructor
          · rintro (⟨leaf, here, same⟩ | ⟨leaf, there, same⟩)
            · exact ⟨leaf, Or.inl here, same⟩
            · exact ⟨leaf, Or.inr there, same⟩
          · rintro ⟨leaf, here | there, same⟩
            · exact Or.inl ⟨leaf, here, same⟩
            · exact Or.inr ⟨leaf, there, same⟩

theorem collects_insertKey {path : FieldPath String} {key : String}
    (valid : validatePathSegment key = true) (value : Value String α)
    {fieldMask : FieldMask String} (sorted : fieldMask.Pairwise (· < ·)) :
    Collects path [([key], value)] fieldMask (some (insertKey (path ++ [key]) fieldMask)) := by
  refine ⟨insertKey_pairwise _ sorted, ?_, fun other => ?_⟩
  · simpa using valid
  · rw [mem_insertKey, or_comm]
    simp

theorem collects_parseEntry {path : FieldPath String} {key : String} {value : Value String α}
    (some_leaf : value.leaves ≠ []) {fieldMask : FieldMask String}
    (parsed : validatePathSegment key = true → Collects path (leavesEntry (key, value)) fieldMask
      (parseData (path ++ [key]) value fieldMask)) :
    Collects path (leavesEntry (key, value)) fieldMask (parseEntry path (key, value) fieldMask) := by
  rw [parseEntry]
  by_cases valid : validatePathSegment key = true
  · rw [if_pos valid]
    exact parsed valid
  · rw [if_neg valid]
    obtain ⟨leaf, others, whole⟩ := List.exists_cons_of_ne_nil some_leaf
    refine ⟨(key :: leaf.1, leaf.2), ?_, key, by simp, by simpa using valid⟩
    rw [leavesEntry_eq, whole]
    simp

/-- The leaves below a valid name. -/
theorem Collects.below {path : FieldPath String} {key : String}
    (valid : validatePathSegment key = true) {leaves : List (FieldPath String × Value String α)}
    {fieldMask : FieldMask String} {parsed : Option (FieldMask String)}
    (collects : Collects (path ++ [key]) leaves fieldMask parsed) :
    Collects path (leaves.map fun leaf => (key :: leaf.1, leaf.2)) fieldMask parsed := by
  cases parsed with
  | none =>
    obtain ⟨leaf, member, segment, inside, bad⟩ := collects
    exact ⟨_, List.mem_map_of_mem member, segment, List.mem_cons_of_mem _ inside, bad⟩
  | some all =>
    obtain ⟨sorted, names, members⟩ := collects
    refine ⟨sorted, fun leaf member segment inside => ?_, fun other => ?_⟩
    · obtain ⟨below, here, rfl⟩ := List.mem_map.mp member
      rcases List.mem_cons.mp inside with rfl | deeper
      · exact valid
      · exact names below here segment deeper
    · rw [members]
      refine or_congr_right ?_
      constructor
      · rintro ⟨leaf, here, rfl⟩
        exact ⟨_, List.mem_map_of_mem here, by simp⟩
      · rintro ⟨_, member, rfl⟩
        obtain ⟨below, here, rfl⟩ := List.mem_map.mp member
        exact ⟨below, here, by simp⟩

/-- Parsing collects the leaves of each value. -/
theorem Value.Distinct.collects {value : Value String α} (distinct : value.Distinct) (key : String)
    {path : FieldPath String} {fieldMask : FieldMask String} (sorted : fieldMask.Pairwise (· < ·)) :
    Collects path (leavesEntry (key, value)) fieldMask (parseEntry path (key, value) fieldMask) := by
  induction distinct generalizing key path fieldMask with
  | scalar content =>
    refine collects_parseEntry (by simp [Value.leaves]) fun valid => ?_
    rw [parseData]
    exact collects_insertKey valid _ sorted
  | @map fields nodup values ih =>
    refine collects_parseEntry (Value.Distinct.map nodup values).leaves_ne_nil fun valid => ?_
    rw [parseData]
    by_cases none_left : fields = []
    · subst none_left
      have named : path ++ [key] ≠ [] := by simp
      simp only [List.isEmpty_nil, if_true, if_pos named]
      exact collects_insertKey valid _ sorted
    · rw [if_neg (by simpa using none_left), leavesEntry_eq, leaves_map_of_ne none_left]
      exact (collects_parseDictionary (fun e member => fun sorted => ih e member e.1 sorted)
        sorted).below valid

/-- Parsing a dictionary collects all of its leaves. -/
theorem Dictionary.collects (self : Dictionary String α) :
    Collects [] (leavesEach self.fields) [] (parseData [] (.map self.fields) []) := by
  rw [parseData]
  by_cases none_left : self.fields = []
  · rw [none_left]
    exact ⟨List.Pairwise.nil, by simp [leavesEach], by simp [leavesEach]⟩
  · rw [if_neg (by simpa using none_left)]
    exact collects_parseDictionary
      (fun e member => fun sorted => (self.values_distinct e member).collects e.1 sorted)
      List.Pairwise.nil

/-- `setData` with `merge` sends the mask that `ToFieldMask` makes of its data, in whatever
order the dictionary is enumerated; it throws exactly if a name on the way to a value is
not allowed. -/
theorem parsedMergeData_eq (input : Dictionary String α) :
    parsedMergeData input =
      if ∀ path ∈ input.toObjectValue.toFieldMask, ∀ segment ∈ path,
          validatePathSegment segment = true then
        some { data := input.toObjectValue, fieldMask := some input.toObjectValue.toFieldMask }
      else none := by
  have parsed := input.collects
  rw [parsedMergeData]
  cases result : parseData [] (.map input.fields) [] with
  | none =>
    rw [result] at parsed
    obtain ⟨leaf, member, segment, inside, bad⟩ := parsed
    rw [if_neg]
    · rfl
    · intro valid
      have good := valid leaf.1 (input.mem_toFieldMask.mpr ⟨leaf, member, rfl⟩) segment inside
      simp [good] at bad
  | some all =>
    rw [result] at parsed
    obtain ⟨sorted, valid, members⟩ := parsed
    have same : all = input.toObjectValue.toFieldMask := by
      refine eq_of_mem_iff sorted input.toObjectValue.toFieldMask_pairwise fun path => ?_
      rw [members, input.mem_toFieldMask]
      simp [eq_comm]
    rw [if_pos]
    · rw [same]
      rfl
    · intro path member segment inside
      obtain ⟨leaf, here, rfl⟩ := input.mem_toFieldMask.mp member
      exact valid leaf here segment inside

end Reader

section Flat

variable {α : Type}

/-- A dictionary of values that are not dictionaries themselves. -/
def Dictionary.flat (entries : List (String × α)) (nodup : (entries.map Prod.fst).Nodup) :
    Dictionary String α where
  fields := entries.map fun e => (e.1, .scalar e.2)
  distinct := by
    refine .map ?_ fun e member => ?_
    · rw [List.map_map]
      exact nodup
    · obtain ⟨_, _, rfl⟩ := List.mem_map.mp member
      exact .scalar _

variable {entries : List (String × α)} {nodup : (entries.map Prod.fst).Nodup}

theorem Dictionary.read_flat {field : String} {value : Value String α} :
    (flat entries nodup).toObjectValue.read field = some value ↔
      ∃ e ∈ entries, e.1 = field ∧ .scalar e.2 = value := by
  have ascending := (flat entries nodup).toObjectValue.ordered.ascending
  show (flat entries nodup).toObjectValue.fields.lookup field = some value ↔ _
  have member : (field, value) ∈ (flat entries nodup).toObjectValue.fields ↔
      ∃ e ∈ entries, e.1 = field ∧ .scalar e.2 = value := by
    rw [toObjectValue, mem_sorted]
    simp [flat, Value.sortFields]
  exact ascending.mem_iff.symm.trans member

theorem Dictionary.leavesEach_flat (nodup : (entries.map Prod.fst).Nodup) :
    leavesEach (flat entries nodup).fields = entries.map fun e => ([e.1], .scalar e.2) := by
  show leavesEach (entries.map fun e => (e.1, .scalar e.2)) = _
  clear nodup
  induction entries with
  | nil => rfl
  | cons e rest ih =>
    rw [List.map_cons, leavesEach, ih, leavesEntry_eq]
    rfl

/-- The names of the entries. -/
def flatMask (entries : List (String × α)) : FieldMask String :=
  (entries.map fun e => [e.1]).foldr insertKey []

theorem flatMask_pairwise : (flatMask entries).Pairwise (· < ·) :=
  foldr_insertKey_pairwise _ List.Pairwise.nil

theorem mem_flatMask {path : FieldPath String} :
    path ∈ flatMask entries ↔ ∃ e ∈ entries, path = [e.1] := by
  rw [flatMask, mem_foldr_insertKey]
  simp [eq_comm]

/-- Parsing a flat dictionary makes a mask of its names. -/
theorem Dictionary.parseData_flat : parseData [] (.map (flat entries nodup).fields) [] =
    if ∀ e ∈ entries, validatePathSegment e.1 = true then some (flatMask entries) else none := by
  have parsed := (flat entries nodup).collects
  rw [leavesEach_flat] at parsed
  cases result : parseData [] (.map (flat entries nodup).fields) [] with
  | none =>
    rw [result] at parsed
    obtain ⟨leaf, member, segment, inside, bad⟩ := parsed
    obtain ⟨e, here, rfl⟩ := List.mem_map.mp member
    rw [List.mem_singleton.mp inside] at bad
    rw [if_neg fun valid => by simp [valid e here] at bad]
  | some all =>
    rw [result] at parsed
    obtain ⟨sorted, valid, members⟩ := parsed
    have same : all = flatMask entries := by
      refine eq_of_mem_iff sorted flatMask_pairwise fun path => ?_
      rw [members, mem_flatMask]
      simp [eq_comm]
    have names : ∀ e ∈ entries, validatePathSegment e.1 = true := fun e member =>
      valid _ (List.mem_map_of_mem member) e.1 (by simp)
    rw [if_pos names, same]

theorem ObjectValue.read_set (self : ObjectValue String α) (name : String) (value : UpdateValue α)
    (field : String) :
    (self.set [name] value).read field =
      if field = name then some value.val.sortFields else self.read field := by
  show (Firestore.set [name] value.val self.fields).lookup field = _
  have placed := set_append_singleton self.ordered [] name value.val
  rw [List.nil_append] at placed
  rw [placed, atParentMap, lookup_insertEntry]
  rfl

/-- Entries that are set one by one in a document. -/
theorem read_foldl_set (entries : List (String × α)) (data : ObjectValue String α) (field : String) :
    (entries.foldl (fun data e => data.set [e.1] ⟨.scalar e.2, .scalar e.2⟩) data).read field =
      (((entries.reverse.find? (·.1 = field)).map fun e => .scalar e.2).or (data.read field)) := by
  induction entries generalizing data with
  | nil => rfl
  | cons e rest ih =>
    rw [List.foldl_cons, ih, ObjectValue.read_set, List.reverse_cons, List.find?_append]
    cases rest.reverse.find? (·.1 = field) with
    | some other => rfl
    | none =>
      by_cases same : field = e.1
      · subst same
        simp [Value.sortFields]
      · simp [same, Ne.symm same]

/-- Updating the fields of a flat dictionary parses as merging it does. -/
theorem parsedUpdateData_flat (entries : List (String × α)) (nodup : (entries.map Prod.fst).Nodup) :
    parsedUpdateData (entries.map fun e => ([e.1], ⟨.scalar e.2, .scalar e.2⟩)) =
      if ∀ e ∈ entries, validatePathSegment e.1 = true then
        some { data := (Dictionary.flat entries nodup).toObjectValue,
               fieldMask := some (flatMask entries) }
      else none := by
  have run : ∀ (entries : List (String × α)) (data : ObjectValue String α)
      (fieldMask : FieldMask String),
      (entries.map fun e => (([e.1], ⟨.scalar e.2, .scalar e.2⟩) :
          FieldPath String × UpdateValue α)).foldlM addUpdate (data, fieldMask) =
        if ∀ e ∈ entries, validatePathSegment e.1 = true then
          some (entries.foldl (fun data e => data.set [e.1] ⟨.scalar e.2, .scalar e.2⟩) data,
            entries.foldl (fun fieldMask e => insertKey [e.1] fieldMask) fieldMask)
        else none := by
    intro entries
    induction entries with
    | nil => exact fun _ _ => rfl
    | cons e rest ih =>
      intro data fieldMask
      rw [List.map_cons, List.foldlM_cons, addUpdate]
      by_cases valid : validatePathSegment e.1 = true
      · simp only [List.all_cons, valid, List.all_nil, Bool.and_self, guard_true, parseData,
          Option.bind_eq_bind, Option.bind_some, Option.pure_def, insertKey_insertKey, ih,
          List.forall_mem_cons, true_and, List.foldl_cons]
      · simp [valid]
  rw [parsedUpdateData, run]
  by_cases valid : ∀ e ∈ entries, validatePathSegment e.1 = true
  · have data : entries.foldl (fun data e => data.set [e.1] ⟨.scalar e.2, .scalar e.2⟩)
        ObjectValue.empty = (Dictionary.flat entries nodup).toObjectValue := by
      refine ObjectValue.ext_read fun field => Option.ext fun value => ?_
      rw [read_foldl_set, ObjectValue.read_empty, Option.or_none, Dictionary.read_flat,
        Option.map_eq_some_iff]
      constructor
      · rintro ⟨e, found, rfl⟩
        exact ⟨e, List.mem_reverse.mp (List.mem_of_find?_eq_some found),
          by simpa using List.find?_some found, rfl⟩
      · rintro ⟨e, member, rfl, rfl⟩
        obtain ⟨other, found⟩ : ∃ other, entries.reverse.find? (·.1 = e.1) = some other :=
          Option.isSome_iff_exists.mp (List.find?_isSome.mpr ⟨e, by simpa using member, by simp⟩)
        have same : other = e := List.inj_on_of_nodup_map nodup
          (List.mem_reverse.mp (List.mem_of_find?_eq_some found)) member
          (by simpa using List.find?_some found)
        exact ⟨other, found, by rw [same]⟩
    have fieldMask : entries.foldl (fun fieldMask e => insertKey [e.1] fieldMask) [] =
        flatMask entries := by
      have folded : entries.foldl (fun fieldMask e => insertKey [e.1] fieldMask) [] =
          (entries.map fun e => [e.1]).reverse.foldr insertKey [] := by
        rw [List.foldr_reverse, List.foldl_map]
      rw [folded]
      refine eq_of_mem_iff (foldr_insertKey_pairwise _ List.Pairwise.nil) flatMask_pairwise
        fun path => ?_
      rw [mem_foldr_insertKey, List.mem_reverse, flatMask, mem_foldr_insertKey]
    rw [if_pos valid, if_pos valid, data, fieldMask]
    rfl
  · rw [if_neg valid, if_neg valid]
    rfl

end Flat

end QuickNote.Firestore
