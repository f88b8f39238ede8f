import QuickNote.Library.SortedEntries
import Mathlib.Data.String.Basic

/-!
# Changes to the fields of a map value

`ApplyChanges` of the Firestore client (`core/src/model/object_value.cc`), which
builds the new fields of a map from the old ones, a sorted map of upserts and a
sorted set of deletes in one pass.  The pass has room for exactly the entries
that should remain and waits for each delete to turn up among the old fields
before it looks at the next one, so a delete of a field that is not there holds
up the deletes behind it.
-/

namespace QuickNote.Firestore

open SortedEntries

/-- `google_firestore_v1_Value`: a map of fields, or a value without fields of
its own. -/
inductive Value (κ α : Type) where
  | scalar (content : α)
  | map (fields : List (κ × Value κ α))

section Merge

variable {κ ν : Type} [LinearOrder κ]

omit [LinearOrder κ] in
/-- `CalculateSizeOfUnion` (`object_value.cc:87`). -/
def calculateSizeOfUnion [DecidableEq κ] (source upserts : List (κ × ν)) (deletes : List κ) : ℕ :=
  upserts.length +
    source.countP fun e => e.1 ∉ deletes ∧ e.1 ∉ upserts.map Prod.fst

/-- The loop of `ApplyChanges` (`object_value.cc:128-175`) on what is left of the
three sequences, with `count` entries of the target still to be written.  Every
round takes an entry from `source` or from `upserts`, so `fuel` is the number of
entries in them. -/
def mergeLoop : ℕ → ℕ → List (κ × ν) → List (κ × ν) → List κ → List (κ × ν)
  | 0, _, _, _, _ => []
  | _ + 1, 0, _, _, _ => []
  | fuel + 1, count + 1, (sourceKey, value) :: source, upserts, deletes =>
      if deletes.head? = some sourceKey then
        mergeLoop fuel (count + 1) source upserts deletes.tail
      else
        match upserts with
        | (upsertKey, upsert) :: rest =>
            if upsertKey = sourceKey then
              (sourceKey, upsert) :: mergeLoop fuel count source rest deletes
            else if sourceKey < upsertKey then
              (sourceKey, value) :: mergeLoop fuel count source ((upsertKey, upsert) :: rest) deletes
            else
              (upsertKey, upsert) :: mergeLoop fuel count ((sourceKey, value) :: source) rest deletes
        | [] => (sourceKey, value) :: mergeLoop fuel count source [] deletes
  | fuel + 1, count + 1, [], (upsertKey, upsert) :: rest, deletes =>
      (upsertKey, upsert) :: mergeLoop fuel count [] rest deletes
  -- The target has room for more than there is.
  | _ + 1, _ + 1, [], [], _ => []

/-- The deletes that the loop gets to: those with no delete before them, nor
themselves, of a key that is not among the old fields. -/
def matched (deletes : List κ) (source : List (κ × ν)) : List κ :=
  deletes.filter fun key => ∀ earlier ∈ deletes, earlier ≤ key → earlier ∈ source.map Prod.fst

theorem mem_matched {deletes : List κ} {source : List (κ × ν)} {key : κ} :
    key ∈ matched deletes source ↔
      key ∈ deletes ∧ ∀ earlier ∈ deletes, earlier ≤ key → earlier ∈ source.map Prod.fst := by
  simp [matched]

omit [LinearOrder κ] in
theorem keys_cons {e : κ × ν} {source : List (κ × ν)} {key : κ} (other : key ≠ e.1) :
    key ∈ (e :: source).map Prod.fst ↔ key ∈ source.map Prod.fst := by
  simp [other]

/-- The old field that the next delete waits for is here. -/
theorem matched_cons_cons {e : κ × ν} {source : List (κ × ν)} {rest : List κ}
    (sorted : (e.1 :: rest).Pairwise (· < ·)) {key : κ} (after : e.1 < key) :
    key ∈ matched (e.1 :: rest) (e :: source) ↔ key ∈ matched rest source := by
  have later : ∀ other ∈ rest, other ≠ e.1 := fun other member =>
    (List.rel_of_pairwise_cons sorted member).ne'
  rw [mem_matched, mem_matched]
  constructor
  · rintro ⟨member, present⟩
    have behind : key ∈ rest := by simpa [after.ne'] using member
    refine ⟨behind, fun earlier here le => ?_⟩
    exact (keys_cons (later earlier here)).mp (present earlier (by simp [here]) le)
  · rintro ⟨member, present⟩
    refine ⟨List.mem_cons_of_mem _ member, fun earlier here le => ?_⟩
    rcases List.mem_cons.mp here with rfl | behind
    · simp
    · exact (keys_cons (later earlier behind)).mpr (present earlier behind le)

/-- An old field that the next delete does not wait for changes nothing. -/
theorem matched_cons {e : κ × ν} {source : List (κ × ν)} {deletes : List κ}
    (ascending : Ascending (e :: source)) (sorted : deletes.Pairwise (· < ·))
    (other : deletes.head? ≠ some e.1) :
    e.1 ∉ matched deletes (e :: source) ∧
      ∀ key, e.1 < key → (key ∈ matched deletes (e :: source) ↔ key ∈ matched deletes source) := by
  have above := (Ascending.cons.mp ascending).1
  by_cases listed : e.1 ∈ deletes
  · -- The delete in front is of a smaller key, which the loop is past already.
    obtain ⟨front, rest, rfl⟩ : ∃ front rest, deletes = front :: rest :=
      List.exists_cons_of_ne_nil (List.ne_nil_of_mem listed)
    have different : front ≠ e.1 := fun equal => other (by simp [equal])
    have before : front < e.1 := by
      rcases List.mem_cons.mp listed with equal | behind
      · exact absurd equal.symm different
      · exact List.rel_of_pairwise_cons sorted behind
    have gone : front ∉ (e :: source).map Prod.fst := by
      intro member
      obtain ⟨e', here, equal⟩ := List.mem_map.mp member
      rcases List.mem_cons.mp here with rfl | later
      · exact different equal.symm
      · exact (before.trans (above e' later)).ne' equal
    have gone' : front ∉ source.map Prod.fst := fun member =>
      gone ((keys_cons different).mpr member)
    refine ⟨fun member => ?_, fun key after => ⟨fun member => ?_, fun member => ?_⟩⟩
    · exact gone ((mem_matched.mp member).2 front (by simp) before.le)
    · exact absurd ((mem_matched.mp member).2 front (by simp) (before.trans after).le) gone
    · exact absurd ((mem_matched.mp member).2 front (by simp) (before.trans after).le) gone'
  · refine ⟨fun member => listed (mem_matched.mp member).1, fun key _ => ?_⟩
    rw [mem_matched, mem_matched]
    refine and_congr_right fun _ => forall₂_congr fun earlier here => ?_
    rw [keys_cons fun equal => listed (equal ▸ here)]

section Rounds

variable {fuel count : ℕ} {e u : κ × ν} {source upserts rest : List (κ × ν)} {deletes : List κ}

theorem mergeLoop_deleted (deleted : deletes.head? = some e.1) :
    mergeLoop (fuel + 1) (count + 1) (e :: source) upserts deletes =
      mergeLoop fuel (count + 1) source upserts deletes.tail := by
  cases upserts with
  | nil => rw [mergeLoop, if_pos deleted]
  | cons u rest => rw [mergeLoop, if_pos deleted]

theorem mergeLoop_replaced (waits : deletes.head? ≠ some e.1) (same : u.1 = e.1) :
    mergeLoop (fuel + 1) (count + 1) (e :: source) (u :: rest) deletes =
      (e.1, u.2) :: mergeLoop fuel count source rest deletes := by
  rw [mergeLoop, if_neg waits, if_pos same]

theorem mergeLoop_kept (waits : deletes.head? ≠ some e.1) (first : ∀ u ∈ upserts, e.1 < u.1) :
    mergeLoop (fuel + 1) (count + 1) (e :: source) upserts deletes =
      e :: mergeLoop fuel count source upserts deletes := by
  cases upserts with
  | nil => rw [mergeLoop, if_neg waits]
  | cons u rest =>
    have before : e.1 < u.1 := first u (by simp)
    rw [mergeLoop, if_neg waits, if_neg before.ne', if_pos before]

theorem mergeLoop_inserted (waits : ∀ e ∈ source.head?, deletes.head? ≠ some e.1)
    (first : ∀ e ∈ source, u.1 < e.1) :
    mergeLoop (fuel + 1) (count + 1) source (u :: rest) deletes =
      u :: mergeLoop fuel count source rest deletes := by
  cases source with
  | nil => rw [mergeLoop]
  | cons e source =>
    have before : u.1 < e.1 := first e (by simp)
    rw [mergeLoop, if_neg (waits e (by simp)), if_neg before.ne, if_neg before.asymm]

end Rounds

/-- What is left of the old fields when the loop skips the one in front. -/
theorem without_matched_deleted {e : κ × ν} {source : List (κ × ν)} {rest : List κ}
    (fields : Ascending (e :: source)) (sorted : (e.1 :: rest).Pairwise (· < ·)) :
    without (e :: source) (matched (e.1 :: rest) (e :: source)) =
      without source (matched rest source) := by
  have first : e.1 ∈ matched (e.1 :: rest) (e :: source) := by
    refine mem_matched.mpr ⟨by simp, fun earlier member le => ?_⟩
    rcases List.mem_cons.mp member with rfl | behind
    · simp
    · exact absurd (List.rel_of_pairwise_cons sorted behind) le.not_gt
  rw [without, List.filter_cons_of_neg (by simpa using first)]
  exact without_congr fun e' member =>
    matched_cons_cons sorted ((Ascending.cons.mp fields).1 e' member)

theorem without_matched_kept {e : κ × ν} {source : List (κ × ν)} {deletes : List κ}
    (fields : Ascending (e :: source)) (sorted : deletes.Pairwise (· < ·))
    (waits : deletes.head? ≠ some e.1) :
    without (e :: source) (matched deletes (e :: source)) =
      e :: without source (matched deletes source) := by
  obtain ⟨first, others⟩ := matched_cons fields sorted waits
  rw [without, List.filter_cons_of_pos (by simpa using first)]
  exact congrArg _ (without_congr fun e' member =>
    others _ ((Ascending.cons.mp fields).1 e' member))

/-- The loop writes what is left after the deletes it gets to, overridden by the
upserts, until the target is full. -/
theorem mergeLoop_eq {fuel count : ℕ} {source upserts : List (κ × ν)} {deletes : List κ}
    (fields : Ascending source) (news : Ascending upserts) (sorted : deletes.Pairwise (· < ·))
    (enough : source.length + upserts.length ≤ fuel) :
    mergeLoop fuel count source upserts deletes =
      (insertAll (without source (matched deletes source)) upserts).take count := by
  induction fuel generalizing count source upserts deletes with
  | zero =>
    have none_left : source = [] := List.eq_nil_of_length_eq_zero (by omega)
    have none_new : upserts = [] := List.eq_nil_of_length_eq_zero (by omega)
    subst none_left none_new
    simp [mergeLoop, without, insertAll]
  | succ fuel ih =>
    cases count with
    | zero => simp [mergeLoop]
    | succ count =>
      cases source with
      | nil =>
        cases upserts with
        | nil => rfl
        | cons u rest =>
          obtain ⟨above, tail⟩ := Ascending.cons.mp news
          rw [mergeLoop_inserted (by simp) (by simp), ih fields tail sorted
            (by simp only [List.length_cons] at enough; omega)]
          show _ = (insertAll (insertEntry u.1 u.2 []) rest).take (count + 1)
          rw [insertEntry, insertAll_cons_of_lt u [] above, List.take_succ_cons]
          rfl
      | cons e source =>
        obtain ⟨above, tail⟩ := Ascending.cons.mp fields
        by_cases deleted : deletes.head? = some e.1
        · obtain ⟨rest, rfl⟩ := List.head?_eq_some_iff.mp deleted
          rw [mergeLoop_deleted deleted, without_matched_deleted fields sorted]
          exact ih tail news (List.Pairwise.of_cons sorted)
            (by simp only [List.length_cons] at enough; omega)
        · rw [without_matched_kept fields sorted deleted]
          have low : ∀ e' ∈ without source (matched deletes source), e.1 < e'.1 := fun e' member =>
            above e' (List.mem_filter.mp member).1
          cases upserts with
          | nil =>
            rw [mergeLoop_kept deleted (by simp), ih tail news sorted
              (by simp only [List.length_cons] at enough; omega)]
            rfl
          | cons u rest =>
            obtain ⟨behind, newer⟩ := Ascending.cons.mp news
            rcases lt_trichotomy e.1 u.1 with before | same | after
            · have below : ∀ u' ∈ u :: rest, e.1 < u'.1 := by
                intro u' member
                rcases List.mem_cons.mp member with rfl | later
                · exact before
                · exact before.trans (behind u' later)
              rw [mergeLoop_kept deleted below, insertAll_cons_of_lt e _ below, List.take_succ_cons,
                ih tail news sorted (by simp only [List.length_cons] at enough ⊢; omega)]
            · have below : ∀ u' ∈ rest, e.1 < u'.1 := fun u' member => same ▸ behind u' member
              rw [mergeLoop_replaced deleted same.symm, insertAll_cons, insertEntry,
                if_neg (by simp [same]), if_pos same.symm, ← same,
                insertAll_cons_of_lt (e.1, u.2) _ below, List.take_succ_cons,
                ih tail newer sorted (by simp only [List.length_cons] at enough; omega)]
            · have lowest : ∀ e' ∈ e :: source, u.1 < e'.1 := by
                intro e' member
                rcases List.mem_cons.mp member with rfl | later
                · exact after
                · exact after.trans (above e' later)
              rw [mergeLoop_inserted (by simpa using deleted) lowest, ih fields newer sorted
                (by simp only [List.length_cons] at enough ⊢; omega),
                without_matched_kept fields sorted deleted, insertAll_cons, insertEntry,
                if_pos after, insertAll_cons_of_lt u _ behind, List.take_succ_cons]

/-- The fields as `ApplyChanges` should leave them. -/
def changed (source upserts : List (κ × ν)) (deletes : List κ) : List (κ × ν) :=
  insertAll (without source deletes) upserts

theorem lookup_changed {source upserts : List (κ × ν)} (news : Ascending upserts)
    (deletes : List κ) (key : κ) :
    (changed source upserts deletes).lookup key =
      (upserts.lookup key).or (if key ∈ deletes then none else source.lookup key) := by
  rw [changed, lookup_insertAll news, lookup_without]

theorem ascending_changed {source upserts : List (κ × ν)} (fields : Ascending source)
    (deletes : List κ) : Ascending (changed source upserts deletes) :=
  (fields.remove deletes).insertNews upserts

/-- The target is as large as it should be. -/
theorem length_changed {source upserts : List (κ × ν)} (fields : Ascending source)
    (news : Ascending upserts) (deletes : List κ) :
    (changed source upserts deletes).length = calculateSizeOfUnion source upserts deletes := by
  rw [changed, (fields.remove deletes).length_insertAll upserts news, calculateSizeOfUnion,
    without_without, without, List.countP_eq_length_filter]
  congr 3
  funext e
  exact decide_eq_decide.mpr (by rw [List.mem_append, not_or, and_comm])

/-- A field to delete that the loop does not skip comes last in what it writes. -/
def DeletesLast (source upserts : List (κ × ν)) (deletes : List κ) : Prop :=
  ∀ absent ∈ deletes, absent ∉ source.map Prod.fst →
    ∀ present ∈ deletes, present ∈ source.map Prod.fst → absent < present →
      ∀ kept ∈ source.map Prod.fst ++ upserts.map Prod.fst, kept ∉ deletes → kept < present

theorem lookup_none_of_disjoint {upserts : List (κ × ν)} {deletes : List κ}
    (disjoint : ∀ e ∈ upserts, e.1 ∉ deletes) {key : κ} (deleted : key ∈ deletes) :
    upserts.lookup key = none := by
  cases found : upserts.lookup key with
  | none => rfl
  | some value => exact absurd deleted (disjoint _ (mem_keys_of_lookup found))

/-- The fields as they should be, from the sequence that the loop cuts off. -/
theorem changed_eq_without {source upserts : List (κ × ν)} {deletes : List κ}
    (fields : Ascending source) (news : Ascending upserts)
    (disjoint : ∀ e ∈ upserts, e.1 ∉ deletes) :
    changed source upserts deletes =
      without (insertAll (without source (matched deletes source)) upserts) deletes := by
  refine (ascending_changed fields deletes).ext
    (((fields.remove _).insertNews upserts).remove deletes) fun key => ?_
  rw [lookup_changed news, lookup_without, lookup_insertAll news, lookup_without]
  by_cases deleted : key ∈ deletes
  · simp [deleted, lookup_none_of_disjoint disjoint deleted]
  · have unmatched : key ∉ matched deletes source := fun member =>
      deleted (mem_matched.mp member).1
    simp [deleted, unmatched]

/-- The loop leaves the fields as they should be exactly when the deletes that it
does not get to come after every field that stays. -/
theorem mergeLoop_eq_changed_iff {source upserts : List (κ × ν)} {deletes : List κ}
    (fields : Ascending source) (news : Ascending upserts) (sorted : deletes.Pairwise (· < ·))
    (disjoint : ∀ e ∈ upserts, e.1 ∉ deletes) :
    mergeLoop (source.length + upserts.length) (calculateSizeOfUnion source upserts deletes)
        source upserts deletes = changed source upserts deletes ↔
      DeletesLast source upserts deletes := by
  rw [mergeLoop_eq fields news sorted le_rfl, ← length_changed fields news,
    changed_eq_without fields news disjoint, without, take_length_filter_iff,
    ((fields.remove _).insertNews upserts).pairwise_iff]
  have written : ∀ key, key ∈ (insertAll (without source (matched deletes source)) upserts).map
      Prod.fst ↔ key ∈ upserts.map Prod.fst ∨
        (key ∉ matched deletes source ∧ key ∈ source.map Prod.fst) := by
    intro key
    rw [mem_keys_iff, lookup_insertAll news, lookup_without, mem_keys_iff, mem_keys_iff]
    by_cases skipped : key ∈ matched deletes source
    · simp [skipped]
    · cases upserts.lookup key <;> simp [skipped]
  constructor
  · intro inOrder absent ha missing present hp here before kept hk stays
    have unmatched : present ∉ matched deletes source := fun member =>
      missing ((mem_matched.mp member).2 absent ha before.le)
    have first := (written present).mpr (Or.inr ⟨unmatched, here⟩)
    have second : kept ∈ (insertAll (without source (matched deletes source)) upserts).map
        Prod.fst := by
      rcases List.mem_append.mp hk with old | new
      · exact (written kept).mpr (Or.inr ⟨fun member => stays (mem_matched.mp member).1, old⟩)
      · exact (written kept).mpr (Or.inl new)
    obtain ⟨a, memberA, rfl⟩ := List.mem_map.mp first
    obtain ⟨b, memberB, rfl⟩ := List.mem_map.mp second
    rcases lt_trichotomy b.1 a.1 with lt | equal | gt
    · exact lt
    · exact absurd (equal ▸ hp) stays
    · exact absurd hp (by simpa using inOrder a memberA b memberB gt (by simpa using stays))
  · intro last a memberA b memberB lt stays
    have kept : b.1 ∉ deletes := by simpa using stays
    by_contra dropped
    have listed : a.1 ∈ deletes := by simpa using dropped
    have old : a.1 ∉ matched deletes source ∧ a.1 ∈ source.map Prod.fst := by
      rcases (written a.1).mp (List.mem_map_of_mem memberA) with new | old
      · exact absurd (lookup_none_of_disjoint disjoint listed) (mem_keys_iff.mp new)
      · exact old
    have late : ∃ absent ∈ deletes, absent ≤ a.1 ∧ absent ∉ source.map Prod.fst := by
      by_contra none_absent
      refine old.1 (mem_matched.mpr ⟨listed, fun earlier member le => ?_⟩)
      by_contra missing
      exact none_absent ⟨earlier, member, le, missing⟩
    obtain ⟨absent, member, le, missing⟩ := late
    have before : absent < a.1 := lt_of_le_of_ne le fun equal => missing (equal ▸ old.2)
    have present : b.1 ∈ source.map Prod.fst ++ upserts.map Prod.fst := by
      rcases (written b.1).mp (List.mem_map_of_mem memberB) with new | here
      · exact List.mem_append_right _ new
      · exact List.mem_append_left _ here.2
    exact absurd (last absent member missing a.1 listed old.2 before b.1 present kept) lt.asymm

theorem ascending_mergeLoop {fuel count : ℕ} {source upserts : List (κ × ν)} {deletes : List κ}
    (fields : Ascending source) (news : Ascending upserts) (sorted : deletes.Pairwise (· < ·))
    (enough : source.length + upserts.length ≤ fuel) :
    Ascending (mergeLoop fuel count source upserts deletes) := by
  rw [mergeLoop_eq fields news sorted enough]
  exact ((fields.remove _).insertNews upserts).sublist (List.take_sublist _ _)

/-- Without deletes behind one another the loop is always right. -/
theorem deletesLast_of_length {source upserts : List (κ × ν)} {deletes : List κ}
    (single : deletes.length ≤ 1) : DeletesLast source upserts deletes := by
  intro absent ha _ present hp _ before
  match deletes, single with
  | [key], _ =>
    rw [List.mem_singleton.mp ha, List.mem_singleton.mp hp] at before
    exact absurd before (lt_irrefl key)

end Merge

section Values

variable {κ α : Type} [LinearOrder κ]

mutual

/-- `SortFields` (`value_util.cc:112`): the fields of every map in key order. -/
def Value.sortFields : Value κ α → Value κ α
  | .scalar content => .scalar content
  | .map fields => .map ((sortFieldsEach fields).insertionSort fun a b => a.1 ≤ b.1)

def sortFieldsEach : List (κ × Value κ α) → List (κ × Value κ α)
  | [] => []
  | entry :: rest => sortFieldsEntry entry :: sortFieldsEach rest

def sortFieldsEntry : κ × Value κ α → κ × Value κ α
  | (key, value) => (key, value.sortFields)

end

/-- "MapValues in iOS are always stored in sorted order", at every level. -/
inductive Value.Ordered : Value κ α → Prop
  | scalar (content : α) : Ordered (.scalar content)
  | map {fields : List (κ × Value κ α)} (ascending : Ascending fields)
      (values : ∀ e ∈ fields, Ordered e.2) : Ordered (.map fields)

theorem sortFieldsEach_eq_map (fields : List (κ × Value κ α)) :
    sortFieldsEach fields = mapValues Value.sortFields fields := by
  induction fields with
  | nil => rfl
  | cons e rest ih =>
    rw [sortFieldsEach, ih, sortFieldsEntry]
    rfl

/-- Sorting what is sorted changes nothing. -/
theorem Value.Ordered.sortFields_eq {value : Value κ α} (ordered : value.Ordered) :
    value.sortFields = value := by
  induction ordered with
  | scalar content => rfl
  | @map fields ascending values ih =>
    have same : sortFieldsEach fields = fields := by
      rw [sortFieldsEach_eq_map, mapValues]
      exact (List.map_congr_left fun e member => by rw [ih e member]).trans (List.map_id' fields)
    rw [Value.sortFields, same]
    exact congrArg Value.map (List.Pairwise.insertionSort_eq (ascending.imp le_of_lt))

/-- `ApplyChanges` (`object_value.cc:110`). -/
def applyChanges (fields upserts : List (κ × Value κ α)) (deletes : List κ) :
    List (κ × Value κ α) :=
  mergeLoop (fields.length + upserts.length) (calculateSizeOfUnion fields upserts deletes) fields
    (mapValues Value.sortFields upserts) deletes

section Exact

variable {fields upserts : List (κ × Value κ α)} {deletes : List κ}

theorem ascending_applyChanges (source : Ascending fields) (news : Ascending upserts)
    (sorted : deletes.Pairwise (· < ·)) : Ascending (applyChanges fields upserts deletes) :=
  ascending_mergeLoop source (news.mapValues _) sorted (by simp [mapValues])

theorem applyChanges_eq_changed_iff (source : Ascending fields) (news : Ascending upserts)
    (sorted : deletes.Pairwise (· < ·)) (disjoint : ∀ key ∈ upserts.map Prod.fst, key ∉ deletes) :
    applyChanges fields upserts deletes =
        changed fields (mapValues Value.sortFields upserts) deletes ↔
      DeletesLast fields upserts deletes := by
  have separate : ∀ e ∈ mapValues Value.sortFields upserts, e.1 ∉ deletes := by
    intro e member
    refine disjoint e.1 ?_
    rw [← keys_mapValues Value.sortFields upserts]
    exact List.mem_map_of_mem member
  have size : calculateSizeOfUnion fields upserts deletes =
      calculateSizeOfUnion fields (mapValues Value.sortFields upserts) deletes := by
    rw [calculateSizeOfUnion, calculateSizeOfUnion, keys_mapValues, mapValues, List.length_map]
  have room : fields.length + upserts.length =
      fields.length + (mapValues Value.sortFields upserts).length := by
    rw [mapValues, List.length_map]
  rw [applyChanges, size, room, mergeLoop_eq_changed_iff source (news.mapValues _) sorted separate,
    DeletesLast, DeletesLast, keys_mapValues]

/-- The fields that `ApplyChanges` leaves are the old ones without the deletes and
with the upserts, exactly when no delete of a missing field holds up the delete of
a field that is there and has one to be kept behind it. -/
theorem applyChanges_exact (source : Ascending fields) (news : Ascending upserts)
    (sorted : deletes.Pairwise (· < ·)) (disjoint : ∀ key ∈ upserts.map Prod.fst, key ∉ deletes) :
    (∀ key, (applyChanges fields upserts deletes).lookup key =
        ((upserts.lookup key).map Value.sortFields).or
          (if key ∈ deletes then none else fields.lookup key)) ↔
      DeletesLast fields upserts deletes := by
  rw [← applyChanges_eq_changed_iff source news sorted disjoint]
  have right : ∀ key, (changed fields (mapValues Value.sortFields upserts) deletes).lookup key =
      ((upserts.lookup key).map Value.sortFields).or
        (if key ∈ deletes then none else fields.lookup key) := fun key => by
    rw [lookup_changed (news.mapValues _), lookup_mapValues]
  constructor
  · intro same
    refine (ascending_applyChanges source news sorted).ext (ascending_changed source deletes) ?_
    intro key
    rw [same, right]
  · intro equal key
    rw [equal, right]

end Exact

/-- Without deletes every upsert goes to its place. -/
theorem applyChanges_upserts {fields upserts : List (κ × Value κ α)} (source : Ascending fields)
    (news : Ascending upserts) :
    applyChanges fields upserts [] = insertAll fields (mapValues Value.sortFields upserts) := by
  rw [(applyChanges_eq_changed_iff source news List.Pairwise.nil (by simp)).mpr
    (deletesLast_of_length (by simp)), changed, without_eq_self (by simp)]

def threeFields : List (String × Value String ℕ) :=
  [("a", .scalar 1), ("c", .scalar 2), ("d", .scalar 3)]

/-- The delete of "b", which is not there, holds up that of "c", and "d" is lost. -/
theorem applyChanges_exact_blocked :
    applyChanges threeFields [] ["b", "c"] = [("a", .scalar 1), ("c", .scalar 2)] ∧
      ¬ ∀ key, (applyChanges threeFields [] ["b", "c"]).lookup key =
        ((([] : List (String × Value String ℕ)).lookup key).map Value.sortFields).or
          (if key ∈ ["b", "c"] then none else threeFields.lookup key) := by
  refine ⟨rfl, fun right => ?_⟩
  have last : DeletesLast threeFields [] ["b", "c"] :=
    (applyChanges_exact (by decide) (by decide) (by decide) (by simp)).mp right
  exact absurd (last "b" (by simp) (by decide) "c" (by simp) (by decide) (by decide) "d" (by decide)
    (by decide)) (by decide)

end Values

end QuickNote.Firestore
