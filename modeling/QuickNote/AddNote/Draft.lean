import QuickNote.AddNote.Sheet

/-!
# What becomes of a draft

A press stores the fields as they are and leaves them there; the completion of the
save clears whatever they hold by then.  Text is lost when it is typed in between,
and a second press in between stores the same draft again.
-/

namespace QuickNote.AddNote

open Firestore DocumentStore Foundation

/-- The title and the details that the sheet holds. -/
def Sheet.fields (s : Sheet) : String × String :=
  (s.controller.titleTextField.getD "", s.controller.detailsTextView.getD "")

/-- The title and the details that a created note was stored with. -/
def Created.fields (made : Created) : Option (String × String) := do
  let title ← storedField made.write "title"
  let details ← storedField made.write "details"
  return (title, details)

/-- A successful completion changes the fields only if they hold exactly what its
save wrote. -/
def ClearsSaved (s : Sheet) (e : Event) (t : Sheet) : Prop :=
  match e with
  | .setDataCompleted k none =>
      t.fields ≠ s.fields → ∀ made ∈ s.created[k]?, made.fields = some s.fields
  | _ => True

/-- Of two notes created from the same revision of the draft, the save of one has
failed: between two presses that each create a document there is an edit, a pick or
a successful save. -/
def DraftsDistinct (s : Sheet) : Prop :=
  ∀ j < s.created.length, ∀ i < j, ∀ later ∈ s.created[j]?, ∀ earlier ∈ s.created[i]?,
    earlier.revision = later.revision → i ∈ s.failed ∨ j ∈ s.failed

/-- A save completes successfully only while the fields hold what it wrote or
nothing at all, and Add is pressed only when the draft has changed since the last
note was created or the save of that note has failed. -/
def DraftSettled (s : Sheet) (e : Event) (_ : Sheet) : Prop :=
  match e with
  | .setDataCompleted k none =>
      s.fields = ("", "") ∨ ∀ made ∈ s.created[k]?, made.fields = some s.fields
  | .addButtonPressed (some _) _ =>
      ∀ last ∈ s.created.getLast?, last.revision = s.revision → s.created.length - 1 ∈ s.failed
  | _ => True

instance (s : Sheet) (e : Event) (t : Sheet) : Decidable (ClearsSaved s e t) := by
  unfold ClearsSaved
  split <;> infer_instance

set_option synthInstance.maxSize 1000 in
instance : DecidablePred DraftsDistinct := by
  intro s
  unfold DraftsDistinct
  infer_instance

/-- Notes are created from ever later revisions, none later than the present, and
saves belong to notes that have been created. -/
structure SavesOrdered (s : Sheet) : Prop where
  sorted : (s.created.map Created.revision).Pairwise (· ≤ ·)
  current : ∀ made ∈ s.created, made.revision ≤ s.revision
  saving : ∀ k ∈ s.saving, k < s.created.length
  failed : ∀ k ∈ s.failed, k < s.created.length

theorem savesOrdered_step {s t : Sheet} {e : Event} (ordered : SavesOrdered s)
    (taken : step s e = some t) : SavesOrdered t := by
  have later : ∀ made ∈ s.created, made.revision ≤ s.revision + 1 :=
    fun made member => Nat.le_succ_of_le (ordered.current made member)
  have fewer : ∀ k, ∀ j ∈ s.saving.erase k, j < s.created.length :=
    fun k j member => ordered.saving j (List.mem_of_mem_erase member)
  cases step_cases taken with
  | titleChanged text => exact { ordered with current := later }
  | detailsChanged text => exact { ordered with current := later }
  | pickIgnored user url contents => exact { ordered with current := later }
  | picked user url contents upload started => exact { ordered with current := later }
  | uploadFailed k message => exact { ordered with }
  | uploaded k pick found member => exact { ordered with }
  | pressIgnored uuid => exact ordered
  | created userId uuid document =>
    exact {
      sorted := by
        rw [List.map_append, List.pairwise_append]
        refine ⟨ordered.sorted, List.pairwise_singleton _ _, ?_⟩
        intro r old r' new
        obtain ⟨made, member, rfl⟩ := List.mem_map.mp old
        rw [List.mem_singleton.mp new]
        exact ordered.current made member
      current := by
        intro made member
        rcases List.mem_append.mp member with old | new
        · exact ordered.current made old
        · rw [List.mem_singleton.mp new]
      saving := by
        intro k member
        rw [List.length_append, List.length_singleton]
        rcases List.mem_append.mp member with old | new
        · have bound := ordered.saving k old
          omega
        · rw [List.mem_singleton.mp new]
          omega
      failed := by
        intro k member
        have bound := ordered.failed k member
        rw [List.length_append, List.length_singleton]
        omega }
  | saveFailed k message member =>
    exact { ordered with
      saving := fewer k
      failed := by
        intro j done
        rcases List.mem_append.mp done with old | new
        · exact ordered.failed j old
        · rw [List.mem_singleton.mp new]
          exact ordered.saving k member }
  | saved k member => exact { ordered with current := later, saving := fewer k }

theorem savesOrdered {s : Sheet} (reachable : system.Reachable s) : SavesOrdered s := by
  refine reachable.invariant ?_ (fun s e t ordered taken => savesOrdered_step ordered taken)
  exact {
    sorted := by simp [system]
    current := by simp [system]
    saving := by simp [system]
    failed := by simp [system] }

/-- The last note was created from the latest revision of all. -/
theorem SavesOrdered.last {s : Sheet} (ordered : SavesOrdered s) {i : Nat} {earlier last : Created}
    (found : s.created[i]? = some earlier) (final : s.created.getLast? = some last)
    (current : earlier.revision = s.revision) :
    last.revision = s.revision := by
  have bound : i < s.created.length := (List.getElem?_eq_some_iff.mp found).1
  have upper : last.revision ≤ s.revision := ordered.current last (List.mem_of_getLast? final)
  have lower : earlier.revision ≤ last.revision := by
    rw [List.getLast?_eq_getElem?] at final
    by_cases same : i = s.created.length - 1
    · rw [← same, found] at final
      rw [Option.some.inj final]
    · obtain ⟨boundLast, atLast⟩ := List.getElem?_eq_some_iff.mp final
      obtain ⟨_, atFirst⟩ := List.getElem?_eq_some_iff.mp found
      have sorted := List.pairwise_iff_getElem.mp ordered.sorted i (s.created.length - 1)
        (by simpa using bound) (by simpa using boundLast) (by omega)
      simpa [atFirst, atLast] using sorted
  omega

/-- While no draft is stored twice, the first of two notes from the same revision
has failed by the time the second is created. -/
def EarlierFailed (s : Sheet) : Prop :=
  ∀ i j, i < j → ∀ later ∈ s.created[j]?, ∀ earlier ∈ s.created[i]?,
    earlier.revision = later.revision → i ∈ s.failed

theorem earlierFailed_step {s t : Sheet} {e : Event} (reachable : system.Reachable s)
    (earlier : EarlierFailed s) (taken : step s e = some t) (distinct : DraftsDistinct t) :
    EarlierFailed t := by
  have ordered := savesOrdered reachable
  cases step_cases taken with
  | created userId uuid document =>
    intro i j less b atJ a atI same
    obtain ⟨boundJ, _⟩ := List.getElem?_eq_some_iff.mp atJ
    rcases distinct j boundJ i less b atJ a atI same with first | second
    · exact first
    · have old : j < s.created.length := ordered.failed j second
      rw [List.getElem?_append_left old] at atJ
      rw [List.getElem?_append_left (by omega)] at atI
      exact earlier i j less b atJ a atI same
  | saveFailed k message member =>
    intro i j less b atJ a atI same
    exact List.mem_append_left _ (earlier i j less b atJ a atI same)
  | _ => exact earlier

/-- Only a press can store a draft twice. -/
theorem draftsDistinct_step {s t : Sheet} {e : Event} (reachable : system.Reachable s)
    (distinct : DraftsDistinct s) (earlierFailed : EarlierFailed s) (taken : step s e = some t) :
    DraftsDistinct t ↔ ∀ user uuid, e = .addButtonPressed (some user) uuid →
      ∀ last ∈ s.created.getLast?, last.revision = s.revision →
        s.created.length - 1 ∈ s.failed := by
  have ordered := savesOrdered reachable
  cases step_cases taken with
  | created userId uuid document =>
    refine ⟨?_, ?_⟩
    · intro after _ _ _ last final current
      have nonempty : s.created ≠ [] := List.ne_nil_of_mem (List.mem_of_getLast? final)
      have bound : s.created.length - 1 < s.created.length := by
        have positive := List.length_pos_iff.mpr nonempty
        omega
      rw [List.getLast?_eq_getElem?] at final
      have stored := after s.created.length (by simp) (s.created.length - 1) bound _
        List.getElem?_concat_length last (by rw [List.getElem?_append_left bound]; exact final) current
      rcases stored with first | second
      · exact first
      · exact absurd (ordered.failed _ second) (by omega)
    · intro settled j boundJ i less later atJ earlier atI same
      by_cases old : j < s.created.length
      · rw [List.getElem?_append_left old] at atJ
        rw [List.getElem?_append_left (by omega)] at atI
        exact distinct j old i less later atJ earlier atI same
      · have new : j = s.created.length := by
          rw [List.length_append, List.length_singleton] at boundJ
          omega
        subst new
        rw [List.getElem?_concat_length] at atJ
        cases atJ
        rw [List.getElem?_append_left less] at atI
        have final := List.getElem?_eq_getElem (l := s.created) (i := s.created.length - 1)
          (by omega)
        have last := ordered.last atI (by rw [List.getLast?_eq_getElem?]; exact final) same
        have failed := settled userId uuid rfl _ (by rw [List.getLast?_eq_getElem?]; exact final)
          last
        by_cases one : i = s.created.length - 1
        · exact Or.inl (one ▸ failed)
        · exact Or.inl (earlierFailed i (s.created.length - 1) (by omega) _ final _ atI
            (same.trans last.symm))
  | saveFailed k message member =>
    refine iff_of_true ?_ (by simp)
    intro j boundJ i less later atJ earlier atI same
    exact (distinct j boundJ i less later atJ earlier atI same).imp
      (List.mem_append_left _) (List.mem_append_left _)
  | _ => exact iff_of_true distinct (by simp)

theorem clearsSaved_iff {s t : Sheet} {k : Nat} (taken : step s (.setDataCompleted k none) = some t) :
    ClearsSaved s (.setDataCompleted k none) t ↔ DraftSettled s (.setDataCompleted k none) t := by
  cases step_cases taken with
  | saved k member =>
    have cleared : Sheet.fields { s with
        controller := s.controller.setDataCompletion none
        saving := s.saving.erase k
        revision := s.revision + 1 } = ("", "") := rfl
    simp only [ClearsSaved, DraftSettled, cleared]
    by_cases empty : s.fields = ("", "")
    · simp [empty]
    · simp [empty, Ne.symm empty]

/-- Along every run, no text is cleared unsaved and no draft is stored twice if
and only if the fields are left alone while a save is on its way and Add is not
pressed again for the same draft. -/
theorem draftKept_iff_draftSettled (events : List Event) :
    (system.EveryStep ClearsSaved events ∧ system.Always DraftsDistinct events) ↔
      system.EveryStep DraftSettled events := by
  have distinct : system.Always DraftsDistinct events ↔
      system.EveryStep (fun s e _ => ∀ user uuid, e = .addButtonPressed (some user) uuid →
        ∀ last ∈ s.created.getLast?, last.revision = s.revision →
          s.created.length - 1 ∈ s.failed) events :=
    EventSystem.always_iff_everyStep (J := EarlierFailed)
      (by decide) (by simp [EarlierFailed, system])
      (fun _ _ _ reachable earlier taken _ distinct =>
        earlierFailed_step reachable earlier taken distinct)
      (fun _ _ _ reachable distinct earlier taken =>
        draftsDistinct_step reachable distinct earlier taken) events
  rw [distinct, ← EventSystem.EveryStep.and]
  refine EventSystem.everyStep_congr ?_
  intro before e s t pre run taken
  cases e with
  | setDataCompleted k error =>
    cases error with
    | none => simpa using clearsSaved_iff taken
    | some message => simp [ClearsSaved, DraftSettled]
  | addButtonPressed user uuid =>
    cases user with
    | none => simp [ClearsSaved, DraftSettled]
    | some userId => simp [ClearsSaved, DraftSettled]
  | _ => simp [ClearsSaved, DraftSettled]

/-- A text is typed while the save of the one before is on its way. -/
def typedWhileSaving : List Event :=
  [.titleChanged "Milk", .addButtonPressed (some "ann@mail.org") firstNote,
    .titleChanged "Bread", .setDataCompleted 0 none]

/-- The completion clears the new text, which no save has written. -/
theorem typedWhileSaving_not_kept :
    ¬ (system.EveryStep ClearsSaved typedWhileSaving ∧
      system.Always DraftsDistinct typedWhileSaving) := by
  intro both
  have lost : ¬ system.EveryStep ClearsSaved typedWhileSaving := by decide
  exact lost both.1

end QuickNote.AddNote
