import QuickNote.Library.Segments
import Mathlib.Data.List.DropRight

/-!
# Storage paths

`StoragePath.swift`: how a path string names an object.  Slashes are compressed to
single ones by replacing pairs until nothing changes and trimmed at both ends, so
the object is determined by the segments of the path.
-/

namespace QuickNote.Storage

open Segments

/-- `replacingOccurrences(of: "//", with: "/")`, once from left to right. -/
def replaceDouble : List Char → List Char
  | '/' :: '/' :: rest => '/' :: replaceDouble rest
  | c :: rest => c :: replaceDouble rest
  | [] => []

/-- The loop of `standardizedPathForString` (`StoragePath.swift:107-113`), with a
bound on the number of rounds. -/
def compress : Nat → List Char → List Char
  | 0, output => output
  | rounds + 1, output =>
    let newOutput := replaceDouble output
    if newOutput = output then output else compress rounds newOutput

/-- `trimmingCharacters(in: ["/"])`. -/
def trimSlashes (path : List Char) : List Char :=
  (path.dropWhile (· = '/')).rdropWhile (· = '/')

/-- `standardizedPathForString` (`StoragePath.swift:105`). -/
def standardizedPath (path : List Char) : List Char := trimSlashes (compress path.length path)

/-- The object that `child(_:)` of the root names (`StoragePath.swift:160`), none
when it is the root itself. -/
def child (path : String) : Option String :=
  if path = "" then none else some (String.ofList (standardizedPath path.toList))

theorem length_replaceDouble (path : List Char) :
    replaceDouble path = path ∨ (replaceDouble path).length < path.length := by
  fun_induction replaceDouble path with
  | case1 rest ih =>
    right
    rcases ih with same | less
    · simp [same]
    · simp only [List.length_cons]
      omega
  | case2 c rest _ ih =>
    rcases ih with same | less
    · exact Or.inl (by rw [same])
    · right
      simp only [List.length_cons]
      omega
  | case3 => exact Or.inl rfl

/-- The loop ends where nothing changes any more: there are enough rounds. -/
theorem replaceDouble_compress {rounds : Nat} {path : List Char} (enough : path.length ≤ rounds) :
    replaceDouble (compress rounds path) = compress rounds path := by
  induction rounds generalizing path with
  | zero =>
    have empty : path = [] := List.length_eq_zero_iff.mp (Nat.le_zero.mp enough)
    rw [empty]
    rfl
  | succ rounds ih =>
    simp only [compress]
    by_cases same : replaceDouble path = path
    · rw [if_pos same]
      exact same
    · rw [if_neg same]
      apply ih
      have shorter := (length_replaceDouble path).resolve_left same
      omega

theorem no_double_of_fixed {path : List Char} (fixed : replaceDouble path = path) :
    ¬ ['/', '/'] <:+: path := by
  fun_induction replaceDouble path with
  | case1 rest ih =>
    have shorter := length_replaceDouble rest
    simp only [List.cons.injEq, true_and] at fixed
    rw [fixed] at shorter
    simp only [List.length_cons] at shorter
    rcases shorter with equal | less
    · exact absurd (congrArg List.length equal) (by simp)
    · omega
  | case2 c rest other ih =>
    simp only [List.cons.injEq, true_and] at fixed
    intro pair
    rcases List.infix_cons_iff.mp pair with first | later
    · obtain ⟨rfl, second⟩ := List.cons_prefix_cons.mp first
      cases rest with
      | nil => simp at second
      | cons d rest =>
        obtain ⟨rfl, _⟩ := List.cons_prefix_cons.mp second
        exact other rest rfl rfl
    · exact ih fixed later
  | case3 => simp

/-- Replacing pairs leaves the segments alone.  The text in front of the pairs
stands for the segment that is being read. -/
theorem segments_replaceDouble {front : List Char} (clean : '/' ∉ front) (path : List Char) :
    segments '/' (front ++ replaceDouble path) = segments '/' (front ++ path) := by
  fun_induction replaceDouble path generalizing front with
  | case1 rest ih =>
    have after : segments '/' (replaceDouble rest) = segments '/' rest := by
      have : '/' ∉ ([] : List Char) := by simp
      simpa using ih this
    rw [segments_append_cons, segments_append_cons, segments_cons_self, after]
  | case2 c rest _ ih =>
    by_cases slash : c = '/'
    · subst slash
      have after : segments '/' (replaceDouble rest) = segments '/' rest := by
        have : '/' ∉ ([] : List Char) := by simp
        simpa using ih this
      rw [segments_append_cons, segments_append_cons, after]
    · have longer : '/' ∉ front ++ [c] := by simp [clean, Ne.symm slash]
      simpa using ih longer
  | case3 => rfl

theorem segments_compress (rounds : Nat) (path : List Char) :
    segments '/' (compress rounds path) = segments '/' path := by
  induction rounds generalizing path with
  | zero => rfl
  | succ rounds ih =>
    simp only [compress]
    by_cases same : replaceDouble path = path
    · rw [if_pos same]
    · rw [if_neg same, ih]
      exact segments_replaceDouble List.not_mem_nil path

theorem segments_trimSlashes (path : List Char) :
    segments '/' (trimSlashes path) = segments '/' path := by
  have left : ∀ l : List Char, segments '/' (l.dropWhile (· = '/')) = segments '/' l := by
    intro l
    induction l with
    | nil => rfl
    | cons c l ih =>
      by_cases slash : c = '/'
      · subst slash
        simpa [segments_cons_self] using ih
      · simp [slash]
  have right : ∀ l : List Char, segments '/' (l.rdropWhile (· = '/')) = segments '/' l := by
    intro l
    induction l using List.reverseRecOn with
    | nil => simp
    | append_singleton l c ih =>
      by_cases slash : c = '/'
      · subst slash
        rw [List.rdropWhile_concat_pos _ _ _ (by simp), ih, segments_append_cons]
        simp
      · rw [List.rdropWhile_concat_neg _ _ _ (by simp [slash])]
  rw [trimSlashes, right, left]

/-- A standardized path has no superfluous slash. -/
theorem clean_standardizedPath (path : List Char) : Clean '/' (standardizedPath path) := by
  have single := no_double_of_fixed (replaceDouble_compress (Nat.le_refl path.length))
  have inside : standardizedPath path <+: (compress path.length path).dropWhile (· = '/') :=
    List.rdropWhile_prefix _ _
  refine ⟨?_, ?_, ?_⟩
  · intro leads
    obtain ⟨rest, shape⟩ := inside
    have kept : ((compress path.length path).dropWhile (· = '/')).head? = some '/' := by
      rw [← shape, List.head?_append, leads]
      rfl
    have first := List.head?_dropWhile_not (fun c => decide (c = '/')) (compress path.length path)
    rw [kept] at first
    simp at first
  · intro trails
    have nonempty : standardizedPath path ≠ [] := by
      intro empty
      simp [empty] at trails
    have last := List.rdropWhile_last_not (fun c => decide (c = '/')) _ nonempty
    rw [List.getLast?_eq_some_getLast nonempty] at trails
    exact last (decide_eq_true (Option.some.inj trails))
  · intro pair
    exact single ((pair.trans inside.isInfix).trans (List.dropWhile_suffix _).isInfix)

/-- Two paths name the same object exactly when they have the same segments. -/
theorem standardizedPath_eq_iff {a b : List Char} :
    standardizedPath a = standardizedPath b ↔ segments '/' a = segments '/' b := by
  have same : ∀ path, segments '/' (standardizedPath path) = segments '/' path := by
    intro path
    rw [standardizedPath, segments_trimSlashes, segments_compress]
  refine ⟨?_, ?_⟩
  · intro equal
    rw [← same a, equal, same b]
  · intro equal
    exact segments_injective (clean_standardizedPath a) (clean_standardizedPath b)
      (by rw [same, same, equal])

end QuickNote.Storage
