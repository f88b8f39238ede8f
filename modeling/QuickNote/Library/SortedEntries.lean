import Mathlib.Data.List.Sort
import Mathlib.Order.Basic

/-!
# Maps as lists of entries in key order

A finite map over a linear order, represented by its entries with the keys
strictly ascending, as sorted arrays and tree maps hold them.  Lookup is
`List.lookup`.  A list in this form is determined by what its lookups return, so
two ways of building a map are compared key by key.  Finite sets are held the same
way and determined by their members.
-/

namespace SortedEntries

variable {κ ν : Type} [LinearOrder κ]

/-- The keys strictly ascend. -/
def Ascending (entries : List (κ × ν)) : Prop := entries.Pairwise (fun a b => a.1 < b.1)

instance (entries : List (κ × ν)) : Decidable (Ascending entries) :=
  inferInstanceAs (Decidable (entries.Pairwise _))

/-- The entry goes to its place and replaces one of the same key. -/
def insertEntry (key : κ) (value : ν) : List (κ × ν) → List (κ × ν)
  | [] => [(key, value)]
  | e :: rest =>
      if key < e.1 then (key, value) :: e :: rest
      else if key = e.1 then (key, value) :: rest
      else e :: insertEntry key value rest

/-- All of `news`, later ones over earlier ones. -/
def insertAll (entries news : List (κ × ν)) : List (κ × ν) :=
  news.foldl (fun acc e => insertEntry e.1 e.2 acc) entries

omit [LinearOrder κ] in
/-- The entries whose key is not among `keys`. -/
def without [DecidableEq κ] (entries : List (κ × ν)) (keys : List κ) : List (κ × ν) :=
  entries.filter fun e => e.1 ∉ keys

theorem lookup_cons (e : κ × ν) (rest : List (κ × ν)) (key : κ) :
    (e :: rest).lookup key = if key = e.1 then some e.2 else rest.lookup key := by
  rw [List.lookup_cons]
  by_cases equal : key = e.1
  · simp [equal]
  · simp [equal, beq_eq_false_iff_ne.mpr equal]

namespace Ascending

theorem nil : Ascending ([] : List (κ × ν)) := List.Pairwise.nil

theorem cons {e : κ × ν} {rest : List (κ × ν)} :
    Ascending (e :: rest) ↔ (∀ e' ∈ rest, e.1 < e'.1) ∧ Ascending rest :=
  List.pairwise_cons

theorem sublist {entries part : List (κ × ν)} (ascending : Ascending entries)
    (sub : part.Sublist entries) : Ascending part :=
  List.Pairwise.sublist sub ascending

end Ascending

theorem lookup_eq_none_of_lt {entries : List (κ × ν)} {key : κ}
    (above : ∀ e ∈ entries, key < e.1) : entries.lookup key = none := by
  induction entries with
  | nil => rfl
  | cons e rest ih =>
    have first : key < e.1 := above e (by simp)
    rw [lookup_cons, if_neg first.ne]
    exact ih fun e' member => above e' (by simp [member])

theorem mem_keys_of_lookup {entries : List (κ × ν)} {key : κ} {value : ν}
    (found : entries.lookup key = some value) : (key, value) ∈ entries := by
  induction entries with
  | nil => simp at found
  | cons e rest ih =>
    rw [lookup_cons] at found
    by_cases equal : key = e.1
    · rw [if_pos equal, Option.some.injEq] at found
      simp [equal, ← found]
    · rw [if_neg equal] at found
      exact List.mem_cons_of_mem e (ih found)

theorem Ascending.lookup_of_mem {entries : List (κ × ν)} (ascending : Ascending entries)
    {e : κ × ν} (member : e ∈ entries) : entries.lookup e.1 = some e.2 := by
  induction entries with
  | nil => simp at member
  | cons head rest ih =>
    obtain ⟨above, tail⟩ := Ascending.cons.mp ascending
    rw [lookup_cons]
    rcases List.mem_cons.mp member with rfl | later
    · simp
    · rw [if_neg (above e later).ne']
      exact ih tail later

/-- Backwards, the first match has the largest key. -/
theorem Ascending.le_of_find?_reverse {entries : List (κ × ν)} (ascending : Ascending entries)
    {p : κ × ν → Bool} {entry other : κ × ν} (found : entries.reverse.find? p = some entry)
    (member : other ∈ entries) (matching : p other = true) : other.1 ≤ entry.1 := by
  have descending : entries.reverse.Pairwise fun a b => b.1 < a.1 :=
    List.pairwise_reverse.mpr ascending
  obtain ⟨_, before, after, whole, skipped⟩ := List.find?_eq_some_iff_append.mp found
  rw [whole, List.pairwise_append, List.pairwise_cons] at descending
  rw [← List.mem_reverse, whole, List.mem_append, List.mem_cons] at member
  rcases member with early | rfl | behind
  · have unmatched := skipped other early
    simp [matching] at unmatched
  · exact le_refl _
  · exact (descending.2.1.1 other behind).le

theorem Ascending.mem_iff {entries : List (κ × ν)} (ascending : Ascending entries)
    {e : κ × ν} : e ∈ entries ↔ entries.lookup e.1 = some e.2 :=
  ⟨ascending.lookup_of_mem, mem_keys_of_lookup⟩

theorem mem_keys_iff {entries : List (κ × ν)} {key : κ} :
    key ∈ entries.map Prod.fst ↔ entries.lookup key ≠ none := by
  induction entries with
  | nil => simp
  | cons e rest ih =>
    rw [lookup_cons, List.map_cons, List.mem_cons, ih]
    by_cases equal : key = e.1
    · simp [equal]
    · simp [equal]

/-- The same keys with their values converted. -/
def mapValues {μ : Type} (f : ν → μ) (entries : List (κ × ν)) : List (κ × μ) :=
  entries.map fun e => (e.1, f e.2)

omit [LinearOrder κ] in
@[simp] theorem keys_mapValues {μ : Type} (f : ν → μ) (entries : List (κ × ν)) :
    (mapValues f entries).map Prod.fst = entries.map Prod.fst := by
  simp [mapValues]

theorem lookup_mapValues {μ : Type} (f : ν → μ) (entries : List (κ × ν)) (key : κ) :
    (mapValues f entries).lookup key = (entries.lookup key).map f := by
  induction entries with
  | nil => rfl
  | cons e rest ih =>
    rw [mapValues] at ih ⊢
    rw [List.map_cons, lookup_cons, lookup_cons, ih]
    by_cases equal : key = e.1
    · simp [equal]
    · simp [equal]

theorem Ascending.mapValues {μ : Type} (f : ν → μ) {entries : List (κ × ν)}
    (ascending : Ascending entries) : Ascending (mapValues f entries) :=
  List.Pairwise.map _ (fun _ _ lt => lt) ascending

/-- Maps that return the same value for every key are the same list. -/
theorem Ascending.ext {a b : List (κ × ν)} (ha : Ascending a) (hb : Ascending b)
    (same : ∀ key, a.lookup key = b.lookup key) : a = b := by
  have members : ∀ e, e ∈ a ↔ e ∈ b := fun e => by rw [ha.mem_iff, hb.mem_iff, same]
  have antisymm : Std.Antisymm fun e e' : κ × ν => e.1 < e'.1 :=
    ⟨fun e e' lt gt => absurd gt lt.asymm⟩
  have irrefl : Std.Irrefl fun e e' : κ × ν => e.1 < e'.1 := ⟨fun e => lt_irrefl e.1⟩
  exact List.Pairwise.eq_of_mem_iff ha hb members

@[simp] theorem lookup_insertEntry (key other : κ) (value : ν) (entries : List (κ × ν)) :
    (insertEntry key value entries).lookup other =
      if other = key then some value else entries.lookup other := by
  induction entries with
  | nil => rw [insertEntry, lookup_cons]
  | cons e rest ih =>
    rw [insertEntry]
    by_cases before : key < e.1
    · rw [if_pos before, lookup_cons]
    · rw [if_neg before]
      by_cases equal : key = e.1
      · rw [if_pos equal, lookup_cons, lookup_cons, equal]
        by_cases here : other = e.1
        · simp [here]
        · simp [here]
      · rw [if_neg equal, lookup_cons, ih, lookup_cons]
        by_cases here : other = e.1
        · simp [here, Ne.symm equal]
        · simp [here]

theorem mem_insertEntry {key : κ} {value : ν} {entries : List (κ × ν)} {e : κ × ν}
    (member : e ∈ insertEntry key value entries) : e = (key, value) ∨ e ∈ entries := by
  induction entries with
  | nil => simpa [insertEntry] using member
  | cons head rest ih =>
    rw [insertEntry] at member
    split_ifs at member with before equal
    · simpa using member
    · rcases List.mem_cons.mp member with new | old
      · exact Or.inl new
      · exact Or.inr (List.mem_cons_of_mem head old)
    · rcases List.mem_cons.mp member with first | later
      · exact Or.inr (by simp [first])
      · rcases ih later with new | old
        · exact Or.inl new
        · exact Or.inr (List.mem_cons_of_mem head old)

theorem Ascending.insert {entries : List (κ × ν)} (ascending : Ascending entries)
    (key : κ) (value : ν) : Ascending (insertEntry key value entries) := by
  induction entries with
  | nil => exact Ascending.cons.mpr ⟨by simp, Ascending.nil⟩
  | cons e rest ih =>
    obtain ⟨above, tail⟩ := Ascending.cons.mp ascending
    rw [insertEntry]
    split_ifs with before equal
    · refine Ascending.cons.mpr ⟨?_, ascending⟩
      intro e' member
      rcases List.mem_cons.mp member with rfl | later
      · exact before
      · exact before.trans (above e' later)
    · exact Ascending.cons.mpr ⟨fun e' member => equal ▸ above e' member, tail⟩
    · refine Ascending.cons.mpr ⟨?_, ih tail⟩
      intro e' member
      rcases mem_insertEntry member with rfl | old
      · exact lt_of_le_of_ne (not_lt.mp before) (Ne.symm equal)
      · exact above e' old

theorem insertAll_cons (entries news : List (κ × ν)) (e : κ × ν) :
    insertAll entries (e :: news) = insertAll (insertEntry e.1 e.2 entries) news := rfl

theorem Ascending.insertNews {entries : List (κ × ν)} (ascending : Ascending entries)
    (news : List (κ × ν)) : Ascending (insertAll entries news) := by
  induction news generalizing entries with
  | nil => exact ascending
  | cons e news ih => exact ih (ascending.insert e.1 e.2)

theorem lookup_insertAll {news : List (κ × ν)} (ascending : Ascending news)
    (entries : List (κ × ν)) (key : κ) :
    (insertAll entries news).lookup key = (news.lookup key).or (entries.lookup key) := by
  induction news generalizing entries with
  | nil => rfl
  | cons e news ih =>
    obtain ⟨above, tail⟩ := Ascending.cons.mp ascending
    rw [insertAll_cons, ih tail, lookup_cons, lookup_insertEntry]
    by_cases equal : key = e.1
    · subst equal
      simp [lookup_eq_none_of_lt above]
    · simp [equal]

theorem lookup_without (entries : List (κ × ν)) (keys : List κ) (key : κ) :
    (without entries keys).lookup key = if key ∈ keys then none else entries.lookup key := by
  induction entries with
  | nil => simp [without]
  | cons e rest ih =>
    rw [without] at ih ⊢
    by_cases gone : e.1 ∈ keys
    · rw [List.filter_cons_of_neg (by simpa using gone), ih, lookup_cons]
      by_cases equal : key = e.1
      · simp [equal, gone]
      · simp [equal]
    · rw [List.filter_cons_of_pos (by simpa using gone), lookup_cons, lookup_cons, ih]
      by_cases equal : key = e.1
      · simp [equal, gone]
      · simp [equal]

theorem Ascending.remove {entries : List (κ × ν)} (ascending : Ascending entries)
    (keys : List κ) : Ascending (without entries keys) :=
  ascending.sublist List.filter_sublist

theorem insertEntry_insertEntry {entries : List (κ × ν)} (ascending : Ascending entries)
    (key : κ) (old new : ν) :
    insertEntry key new (insertEntry key old entries) = insertEntry key new entries := by
  refine ((ascending.insert key old).insert key new).ext (ascending.insert key new) fun other => ?_
  by_cases here : other = key <;> simp [here]

/-- One more new entry, over all the others. -/
theorem insertAll_insertEntry {entries news : List (κ × ν)} (ascending : Ascending entries)
    (distinct : Ascending news) (key : κ) (value : ν) :
    insertAll entries (insertEntry key value news) = insertEntry key value (insertAll entries news) := by
  refine (ascending.insertNews _).ext ((ascending.insertNews news).insert key value) fun other => ?_
  rw [lookup_insertAll (distinct.insert key value), lookup_insertEntry, lookup_insertEntry,
    lookup_insertAll distinct]
  by_cases here : other = key <;> simp [here]

/-! ### Insertion at the head of a list -/

theorem insertAll_cons_of_lt {news : List (κ × ν)} (head : κ × ν) (rest : List (κ × ν))
    (above : ∀ e ∈ news, head.1 < e.1) :
    insertAll (head :: rest) news = head :: insertAll rest news := by
  induction news generalizing rest with
  | nil => rfl
  | cons e news ih =>
    have later : head.1 < e.1 := above e (by simp)
    rw [insertAll_cons, insertAll_cons, insertEntry, if_neg later.asymm, if_neg later.ne']
    exact ih _ fun e' member => above e' (by simp [member])

/-! ### How many entries there are -/

theorem without_eq_self {entries : List (κ × ν)} {keys : List κ}
    (absent : ∀ e ∈ entries, e.1 ∉ keys) : without entries keys = entries :=
  List.filter_eq_self.mpr fun e member => by simpa using absent e member

theorem Ascending.insertEntry_perm {entries : List (κ × ν)} (ascending : Ascending entries)
    (key : κ) (value : ν) :
    (insertEntry key value entries).Perm
      ((key, value) :: without entries [key]) := by
  induction entries with
  | nil => exact List.Perm.refl _
  | cons e rest ih =>
    obtain ⟨above, tail⟩ := Ascending.cons.mp ascending
    rw [insertEntry]
    by_cases before : key < e.1
    · have absent : ∀ e' ∈ e :: rest, e'.1 ∉ [key] := by
        intro e' member
        rw [List.mem_singleton]
        rcases List.mem_cons.mp member with rfl | later
        · exact before.ne'
        · exact (before.trans (above e' later)).ne'
      rw [if_pos before, without_eq_self absent]
    · rw [if_neg before]
      by_cases equal : key = e.1
      · have absent : ∀ e' ∈ rest, e'.1 ∉ [key] := by
          intro e' member
          rw [List.mem_singleton, equal]
          exact (above e' member).ne'
        rw [if_pos equal, without, List.filter_cons_of_neg (by simp [equal])]
        rw [← without, without_eq_self absent]
      · rw [if_neg equal, without,
          List.filter_cons_of_pos (by simpa using Ne.symm equal)]
        exact ((ih tail).cons e).trans (List.Perm.swap _ _ _)

theorem without_congr {entries : List (κ × ν)} {first second : List κ}
    (same : ∀ e ∈ entries, e.1 ∈ first ↔ e.1 ∈ second) :
    without entries first = without entries second :=
  List.filter_congr fun e member => by simp [same e member]

theorem without_without (entries : List (κ × ν)) (first second : List κ) :
    without (without entries first) second = without entries (second ++ first) := by
  simp only [without, List.filter_filter]
  congr 1
  funext e
  simp

theorem Ascending.length_insertAll {entries : List (κ × ν)} (ascending : Ascending entries)
    (news : List (κ × ν)) (distinct : Ascending news) :
    (insertAll entries news).length =
      news.length + (without entries (news.map Prod.fst)).length := by
  induction news generalizing entries with
  | nil => simp [insertAll, without]
  | cons e news ih =>
    obtain ⟨above, tail⟩ := Ascending.cons.mp distinct
    have kept : e.1 ∉ news.map Prod.fst := by
      intro member
      obtain ⟨e', later, equal⟩ := List.mem_map.mp member
      exact (above e' later).ne' equal
    rw [insertAll_cons, ih (ascending.insert e.1 e.2) tail]
    have shape := ((ascending.insertEntry_perm e.1 e.2).filter
      (fun e' => e'.1 ∉ news.map Prod.fst)).length_eq
    rw [List.filter_cons_of_pos (by simpa using kept)] at shape
    have rest := congrArg List.length (without_without entries [e.1] (news.map Prod.fst))
    have same : without entries ((e :: news).map Prod.fst) =
        without entries (news.map Prod.fst ++ [e.1]) := by
      simp only [without]
      congr 1
      funext e'
      simp [or_comm]
    rw [same, ← rest]
    simp only [without, List.length_cons] at shape ⊢
    omega

/-- A relation between entries in key order, as a relation between their keys. -/
theorem Ascending.pairwise_iff {R : κ × ν → κ × ν → Prop} {entries : List (κ × ν)}
    (ascending : Ascending entries) :
    entries.Pairwise R ↔ ∀ a ∈ entries, ∀ b ∈ entries, a.1 < b.1 → R a b := by
  induction entries with
  | nil => simp
  | cons e rest ih =>
    obtain ⟨above, tail⟩ := Ascending.cons.mp ascending
    rw [List.pairwise_cons, ih tail]
    constructor
    · rintro ⟨first, later⟩ a ha b hb lt
      rcases List.mem_cons.mp ha with rfl | ha'
      · rcases List.mem_cons.mp hb with rfl | hb'
        · exact absurd lt (lt_irrefl _)
        · exact first b hb'
      · rcases List.mem_cons.mp hb with rfl | hb'
        · exact absurd lt (above a ha').asymm
        · exact later a ha' b hb' lt
    · intro all
      refine ⟨fun b hb => all e (by simp) b (by simp [hb]) (above b hb), ?_⟩
      exact fun a ha b hb lt => all a (by simp [ha]) b (by simp [hb]) lt

/-! ### Cutting a list to the number of entries it should keep -/

/-- The first entries are the ones to keep exactly when no entry to drop comes
before one of them. -/
theorem take_length_filter_iff {α : Type} (p : α → Bool) (l : List α) :
    l.take (l.filter p).length = l.filter p ↔ l.Pairwise (fun a b => p b → p a) := by
  induction l with
  | nil => simp
  | cons a l ih =>
    rw [List.pairwise_cons]
    by_cases kept : p a
    · rw [List.filter_cons_of_pos kept, List.length_cons, List.take_succ_cons, List.cons_inj_right,
        ih]
      simp [kept]
    · rw [List.filter_cons_of_neg kept]
      constructor
      · intro cut
        have none_kept : l.filter p = [] := by
          cases rest : l.filter p with
          | nil => rfl
          | cons b others =>
            rw [rest, List.length_cons, List.take_succ_cons, List.cons.injEq] at cut
            have member : b ∈ l.filter p := by simp [rest]
            exact absurd (cut.1 ▸ (List.mem_filter.mp member).2) kept
        have dropped : ∀ b ∈ l, ¬ p b := List.filter_eq_nil_iff.mp none_kept
        refine ⟨fun b member holds => absurd holds (dropped b member), ?_⟩
        exact List.pairwise_of_forall_mem_list fun b _ c member holds =>
          absurd holds (dropped c member)
      · rintro ⟨first, _⟩
        have none_kept : l.filter p = [] :=
          List.filter_eq_nil_iff.mpr fun b member holds => kept (first b member holds)
        rw [none_kept]
        rfl

/-! A set of keys is the list of its members in ascending order. -/

/-- The key goes to its place unless it is there. -/
def insertKey (key : κ) : List κ → List κ
  | [] => [key]
  | other :: rest =>
      if key < other then key :: other :: rest
      else if key = other then other :: rest
      else other :: insertKey key rest

/-- The set holds the key once it is inserted, and what it held before. -/
theorem mem_insertKey {key other : κ} {keys : List κ} :
    other ∈ insertKey key keys ↔ other = key ∨ other ∈ keys := by
  induction keys with
  | nil => simp [insertKey]
  | cons first rest ih =>
    rw [insertKey]
    split_ifs with before same
    · rw [List.mem_cons]
    · subst same
      simp
    · rw [List.mem_cons, ih, List.mem_cons]
      exact or_left_comm

theorem insertKey_pairwise (key : κ) {keys : List κ} (sorted : keys.Pairwise (· < ·)) :
    (insertKey key keys).Pairwise (· < ·) := by
  induction keys with
  | nil => exact List.pairwise_singleton _ _
  | cons first rest ih =>
    obtain ⟨above, ascending⟩ := List.pairwise_cons.mp sorted
    rw [insertKey]
    split_ifs with before same
    · refine List.pairwise_cons.mpr ⟨fun other member => ?_, sorted⟩
      rcases List.mem_cons.mp member with rfl | later
      · exact before
      · exact before.trans (above other later)
    · exact sorted
    · refine List.pairwise_cons.mpr ⟨fun other member => ?_, ih ascending⟩
      rcases mem_insertKey.mp member with rfl | later
      · exact lt_of_le_of_ne (not_lt.mp before) (Ne.symm same)
      · exact above other later

theorem insertKey_insertKey (key : κ) (keys : List κ) :
    insertKey key (insertKey key keys) = insertKey key keys := by
  induction keys with
  | nil => simp [insertKey]
  | cons first rest ih =>
    rw [insertKey]
    split_ifs with before same
    · simp [insertKey]
    · simp [insertKey, same]
    · rw [insertKey, if_neg before, if_neg same, ih]

theorem insertKey_of_lt {key : κ} {keys : List κ} (first : ∀ other ∈ keys, key < other) :
    insertKey key keys = key :: keys := by
  cases keys with
  | nil => rfl
  | cons other rest => rw [insertKey, if_pos (first other (by simp))]

theorem mem_foldr_insertKey {other : κ} {news keys : List κ} :
    other ∈ news.foldr insertKey keys ↔ other ∈ news ∨ other ∈ keys := by
  induction news with
  | nil => simp
  | cons key rest ih => rw [List.foldr_cons, mem_insertKey, ih, List.mem_cons, or_assoc]

theorem foldr_insertKey_pairwise (news : List κ) {keys : List κ}
    (sorted : keys.Pairwise (· < ·)) : (news.foldr insertKey keys).Pairwise (· < ·) := by
  induction news with
  | nil => exact sorted
  | cons key rest ih => exact insertKey_pairwise key ih

theorem foldr_insertKey_of_lt {news keys : List κ} (sorted : (news ++ keys).Pairwise (· < ·)) :
    news.foldr insertKey keys = news ++ keys := by
  induction news with
  | nil => rfl
  | cons key news ih =>
    rw [List.cons_append, List.pairwise_cons] at sorted
    rw [List.foldr_cons, ih sorted.2, insertKey_of_lt sorted.1, List.cons_append]

/-- Sets with the same members are the same list. -/
theorem eq_of_mem_iff {a b : List κ} (ha : a.Pairwise (· < ·)) (hb : b.Pairwise (· < ·))
    (same : ∀ key, key ∈ a ↔ key ∈ b) : a = b := by
  have antisymm : Std.Antisymm fun x y : κ => x < y := ⟨fun _ _ lt gt => absurd gt lt.asymm⟩
  have irrefl : Std.Irrefl fun x y : κ => x < y := ⟨fun x => lt_irrefl x⟩
  exact List.Pairwise.eq_of_mem_iff ha hb same

end SortedEntries
