import Mathlib.Data.List.Basic
import Mathlib.Data.List.Infix

/-!
# Segments of a separated sequence

A sequence is cut at every separator and the empty pieces are dropped, the way
path strings are read.  The pieces of a concatenation at a separator are the
pieces of both halves, together they are the sequence without its separators,
and a sequence without superfluous separators is determined by its pieces.
-/

namespace Segments

variable {α : Type} [DecidableEq α]

/-- The non-empty pieces of `l` between separators. -/
def segments (sep : α) (l : List α) : List (List α) :=
  (l.splitOn sep).filter (· ≠ [])

/-- No separator is superfluous: none leads, none trails and no two are
adjacent. -/
def Clean (sep : α) (l : List α) : Prop :=
  l.head? ≠ some sep ∧ l.getLast? ≠ some sep ∧ ¬ [sep, sep] <:+: l

variable {sep : α}

theorem segments_append_cons (a b : List α) :
    segments sep (a ++ sep :: b) = segments sep a ++ segments sep b := by
  simp only [segments, List.splitOn_append_cons_self, List.filter_append]

@[simp] theorem segments_nil : segments sep [] = [] := by
  simp [segments]

theorem segments_cons_self (l : List α) : segments sep (sep :: l) = segments sep l := by
  rw [← List.nil_append (sep :: l), segments_append_cons, segments_nil, List.nil_append]

/-- A piece without separators is its own only segment. -/
theorem segments_of_not_mem {l : List α} (nonempty : l ≠ []) (clean : sep ∉ l) :
    segments sep l = [l] := by
  simp [segments, List.splitOn_eq_singleton clean, nonempty]

/-- The pieces are what is left of the sequence when its separators are
removed. -/
theorem flatten_segments (l : List α) :
    (segments sep l).flatten = l.filter (· ≠ sep) := by
  have dropEmpty : ∀ pieces : List (List α),
      (pieces.filter (· ≠ [])).flatten = pieces.flatten := by
    intro pieces
    induction pieces with
    | nil => rfl
    | cons piece pieces ih => cases piece <;> simp_all
  rw [segments, dropEmpty]
  induction l with
  | nil => simp
  | cons x l ih =>
    rw [List.splitOn_cons_eq_if_modifyHead]
    by_cases equal : x = sep
    · simp [equal, ih]
    · obtain ⟨head, tail, pieces⟩ :=
        List.exists_cons_of_ne_nil (List.splitOn_ne_nil sep l)
      simp only [pieces, List.flatten_cons] at ih
      simp [equal, pieces, ih]

/-- A symbol other than the separator occurs in the pieces as often as in the
sequence. -/
theorem count_flatten_segments {c : α} (different : c ≠ sep) (l : List α) :
    (segments sep l).flatten.count c = l.count c := by
  rw [flatten_segments, List.count_filter (by simpa using different)]

omit [DecidableEq α] in
private theorem splitLast {l : List α} (member : sep ∈ l) :
    ∃ front back, l = front ++ sep :: back ∧ sep ∉ back := by
  obtain ⟨back, front, shape, absent⟩ :=
    List.eq_append_cons_of_mem (List.mem_reverse.mpr member)
  refine ⟨front.reverse, back.reverse, ?_, by simpa using absent⟩
  have reversed := congrArg List.reverse shape
  simpa using reversed

/-- A symbol with no separator after it lies in the last piece. -/
theorem last_segment_of_not_mem {c : α} (different : c ≠ sep) (before after : List α)
    (tail : sep ∉ after) :
    ∃ init last, segments sep (before ++ c :: after) = init ++ [last] ∧ c ∈ last := by
  by_cases cut : sep ∈ before
  · obtain ⟨front, back, rfl, clean⟩ := splitLast cut
    refine ⟨segments sep front, back ++ c :: after, ?_, by simp⟩
    rw [List.append_assoc, List.cons_append, segments_append_cons]
    congr 1
    exact segments_of_not_mem (by simp) (by simp [clean, tail, Ne.symm different])
  · refine ⟨[], before ++ c :: after, ?_, by simp⟩
    exact segments_of_not_mem (by simp) (by simp [cut, tail, Ne.symm different])

omit [DecidableEq α] in
theorem pair_infix_cons {x : α} {l : List α} :
    [sep, sep] <:+: x :: l ↔ x = sep ∧ l.head? = some sep ∨ [sep, sep] <:+: l := by
  rw [List.infix_cons_iff]
  cases l with
  | nil => simp
  | cons y l => simp [eq_comm]

omit [DecidableEq α] in
/-- Two adjacent separators of a concatenation lie in one of its halves or where they
meet. -/
theorem pair_infix_append {l r : List α} :
    [sep, sep] <:+: l ++ r ↔
      [sep, sep] <:+: l ∨ [sep, sep] <:+: r ∨ l.getLast? = some sep ∧ r.head? = some sep := by
  induction l with
  | nil => simp
  | cons x l ih =>
    rw [List.cons_append, pair_infix_cons, pair_infix_cons, ih]
    cases l with
    | nil => simp [or_comm]
    | cons y l => simp [or_assoc]

private theorem nil_mem_tail_splitOn {l : List α} (member : [] ∈ (l.splitOn sep).tail) :
    l.getLast? = some sep ∨ [sep, sep] <:+: l := by
  induction l with
  | nil => simp at member
  | cons x l ih =>
    obtain ⟨head, tail, pieces⟩ :=
      List.exists_cons_of_ne_nil (List.splitOn_ne_nil sep l)
    have grow : (l.getLast? = some sep ∨ [sep, sep] <:+: l) →
        (x :: l).getLast? = some sep ∨ [sep, sep] <:+: x :: l := by
      rintro (ends | inside)
      · exact Or.inl (by rw [List.getLast?_cons, ends]; rfl)
      · exact Or.inr (inside.trans (List.suffix_cons x l).isInfix)
    rw [List.splitOn_cons_eq_if_modifyHead] at member
    by_cases equal : x = sep
    · subst x
      simp only [beq_self_eq_true, if_true, List.tail_cons] at member
      cases l with
      | nil => exact Or.inl rfl
      | cons y l =>
        by_cases again : y = sep
        · subst y
          exact Or.inr ⟨[], l, rfl⟩
        · apply grow
          apply ih
          rw [List.splitOn_cons_eq_if_modifyHead] at member ⊢
          obtain ⟨head', tail', pieces'⟩ :=
            List.exists_cons_of_ne_nil (List.splitOn_ne_nil sep l)
          simpa [again, pieces'] using member
    · apply grow
      apply ih
      simpa [equal, pieces] using member

/-- In a clean sequence no piece is empty, so the pieces determine it. -/
theorem intercalate_segments {l : List α} (clean : Clean sep l) :
    [sep].intercalate (segments sep l) = l := by
  obtain ⟨noLead, noTrail, noPair⟩ := clean
  cases l with
  | nil => simp [segments]
  | cons x l =>
    have full : [] ∉ (x :: l).splitOn sep := by
      intro member
      have rest : [] ∈ ((x :: l).splitOn sep).tail →
          (x :: l).getLast? = some sep ∨ [sep, sep] <:+: x :: l := nil_mem_tail_splitOn
      rw [List.splitOn_cons_eq_if_modifyHead] at member rest
      have different : x ≠ sep := by simpa using noLead
      obtain ⟨head, tail, pieces⟩ :=
        List.exists_cons_of_ne_nil (List.splitOn_ne_nil sep l)
      simp only [beq_iff_eq, different, if_false, pieces, List.modifyHead_cons,
        List.mem_cons, List.tail_cons] at member rest
      rcases member with empty | member
      · exact absurd empty (by simp)
      · exact (rest member).elim noTrail noPair
    have kept : segments sep (x :: l) = (x :: l).splitOn sep := by
      rw [segments, List.filter_eq_self]
      intro piece member
      simp only [decide_eq_true_eq]
      exact fun empty => full (empty ▸ member)
    rw [kept, List.intercalate_splitOn]

/-- Clean sequences with the same pieces are equal. -/
theorem segments_injective {l m : List α} (cleanL : Clean sep l) (cleanM : Clean sep m)
    (same : segments sep l = segments sep m) : l = m := by
  rw [← intercalate_segments cleanL, same, intercalate_segments cleanM]

/-- Without adjacent separators and one at the end, a sequence is determined by its
pieces up to a separator at its front. -/
theorem segments_injective_of_head {l m : List α} (singleL : ¬ [sep, sep] <:+: l)
    (singleM : ¬ [sep, sep] <:+: m) (endL : l.getLast? ≠ some sep) (endM : m.getLast? ≠ some sep)
    (same : segments sep l = segments sep m) : l = m ∨ l = sep :: m ∨ m = sep :: l := by
  have strip : ∀ {l : List α}, ¬ [sep, sep] <:+: l → l.getLast? ≠ some sep →
      ∃ rest, Clean sep rest ∧ segments sep l = segments sep rest ∧
        (l = rest ∨ l = sep :: rest) := by
    intro l single ends
    by_cases lead : l.head? = some sep
    · obtain ⟨rest, rfl⟩ := List.head?_eq_some_iff.mp lead
      rw [pair_infix_cons] at single
      push Not at single
      refine ⟨rest, ⟨single.1 rfl, ?_, single.2⟩, segments_cons_self rest, Or.inr rfl⟩
      intro last
      cases rest with
      | nil => simp at last
      | cons y rest => exact ends (by rw [List.getLast?_cons_cons, last])
    · exact ⟨l, ⟨lead, ends, single⟩, rfl, Or.inl rfl⟩
  obtain ⟨a, cleanA, segsA, shapeA⟩ := strip singleL endL
  obtain ⟨b, cleanB, segsB, shapeB⟩ := strip singleM endM
  obtain rfl : a = b := segments_injective cleanA cleanB (segsA.symm.trans (same.trans segsB))
  rcases shapeA with rfl | rfl
  · rcases shapeB with rfl | rfl
    · exact Or.inl rfl
    · exact Or.inr (Or.inr rfl)
  · rcases shapeB with rfl | rfl
    · exact Or.inr (Or.inl rfl)
    · exact Or.inl rfl

end Segments
