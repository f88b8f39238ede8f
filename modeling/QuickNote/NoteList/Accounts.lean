import QuickNote.NoteList.Loads

/-!
# Whose notes a list screen holds

The cache, the `load` notification and the requests on their way belong to the
process, not to an account, and a detail screen rebuilds the path of its note
from the account signed in at the press.  Lists and writes stay with their
account exactly in the runs where no result and no press outlives a change of
the account.
-/

namespace QuickNote.NoteList

open Firestore

/-- The note was made from a document of `users/<user>/Notes`. -/
def NoteOf (user : String) (note : Note) : Prop :=
  (collection (notesPath user)).map (·.listed note.id) = some note.readFrom

/-- A list screen created for an account holds notes of that account only. -/
def Home.OwnNotes (home : Home) : Prop :=
  ∀ user ∈ home.createdFor, ∀ note ∈ home.controller.notes, NoteOf user note

/-- The write addresses the document that the note was read from. -/
def DetailWrite.Addressed (w : DetailWrite) : Prop :=
  w.openedFor.isSome → w.write.key = w.note.readFrom

/-- Every list holds notes of its own account, and every write of a detail screen
opened from such a list has addressed the document of its note. -/
def AccountsSeparate (s : State) : Prop :=
  (∀ home ∈ s.homes, home.OwnNotes) ∧ ∀ w ∈ s.detailWrites, w.Addressed

/-- A non-empty result is delivered only while every list screen was created for
the account whose notes it is, and Save or Delete is pressed only while the
account of the list is signed in, or nobody is. -/
def AccountKept (s : State) (e : Event) (_ : State) : Prop :=
  match e with
  | .getDocumentsCompleted id result =>
      ∀ load ∈ s.loads.find? (·.id = id), ∀ documents ∈ result.documents, documents ≠ [] →
        ∀ home ∈ s.homes, ∀ user ∈ home.createdFor,
          collection (notesPath user) = some load.collection
  | .saveButtonPressed i | .deleteConfirmed i =>
      ∀ detail ∈ s.details[i]?, ∀ user ∈ detail.openedFor, ∀ current ∈ s.currentUser,
        current = user
  | _ => True

instance (user : String) (note : Note) : Decidable (NoteOf user note) := by
  unfold NoteOf
  infer_instance

instance (home : Home) : Decidable home.OwnNotes := by
  unfold Home.OwnNotes
  infer_instance

instance (w : DetailWrite) : Decidable w.Addressed := by
  unfold DetailWrite.Addressed
  infer_instance

instance : DecidablePred AccountsSeparate := by
  intro s
  unfold AccountsSeparate
  infer_instance

theorem noteOf_iff {user : String} {note : Note} :
    NoteOf user note ↔ ∃ reference,
      collection (notesPath user) = some reference ∧ reference.listed note.id = note.readFrom := by
  simp [NoteOf, Option.map_eq_some_iff]

/-- A press addresses the document of its note exactly when the account signed in
is the one the note was read for. -/
theorem addressed_iff {controller : DetailViewController} {user current : String}
    {reference : DocumentReference} (own : NoteOf user controller.note)
    (found : controller.document current = some reference) :
    reference = controller.note.readFrom ↔ current = user := by
  obtain ⟨mine, parsed, listed⟩ := noteOf_iff.mp own
  obtain ⟨theirs, parsed', rfl⟩ := DetailViewController.document_eq_some found
  refine ⟨?_, ?_⟩
  · intro same
    have equal : theirs = mine := listed_injective (same.trans listed.symm)
    exact notesPath_injective parsed' (equal ▸ parsed)
  · rintro rfl
    obtain rfl : mine = theirs := Option.some.inj (parsed.symm.trans parsed')
    exact listed

/-- A list screen shows the cache as soon as something has been delivered since
the last call. -/
def CacheShown (s : State) : Prop :=
  s.delivered ≠ [] → ∀ home ∈ s.homes, home.controller.notes = s.dataSource.notes

theorem cacheShown {user : Option String} {s : State}
    (reachable : (system user).Reachable s) : CacheShown s := by
  refine reachable.invariant (fun h => absurd rfl h) ?_
  intro s e t shown taken
  unfold CacheShown at shown ⊢
  rcases step_cases taken with quiet | called | ⟨delivery, fresh, completed⟩
  · rw [quiet.delivered, quiet.dataSource]
    exact fun some home member => shown some home (quiet.homes.subset member)
  · exact fun some => absurd called.delivered some
  · rw [completed.after]
    intro _ home member
    obtain ⟨old, _, rfl⟩ := List.mem_map.mp member
    rfl

/-- The detail screens show notes of the account of their list. -/
def DetailsOwn (s : State) : Prop :=
  ∀ detail ∈ s.details, ∀ user ∈ detail.openedFor, NoteOf user detail.controller.note

theorem detailsOwn_step {user : Option String} {s t : State} {e : Event}
    (separate : AccountsSeparate s) (own : DetailsOwn s)
    (taken : (system user).step s e = some t) : DetailsOwn t := by
  have opened : ∀ detail : Detail, detail.OpenedIn s →
      ∀ user ∈ detail.openedFor, NoteOf user detail.controller.note := by
    rintro detail (⟨old, member, note, openedFor⟩ | ⟨home, member, note, openedFor⟩)
    · rw [note, openedFor]
      exact own old member
    · rw [openedFor]
      exact fun user created => separate.1 home member user created _ note
  rcases step_cases taken with quiet | called | ⟨delivery, fresh, completed⟩
  · exact fun detail member => opened detail (quiet.details detail member)
  · exact fun detail member => opened detail (called.details detail member)
  · rw [completed.after]
    exact own

theorem accountKept_of_quiet {s t : State} {e : Event} (quiet : Quiet s e t) :
    AccountKept s e t := by
  have documents := quiet.documents
  have pressed := quiet.pressed
  cases e <;> simp_all [AccountKept, Event.documents, Event.pressed]

/-- A delivery keeps the accounts apart exactly when its own notes belong to every
list screen. -/
theorem accountsSeparate_completed {user : Option String} {s t : State} {e : Event}
    {delivery : Delivery} {fresh : List Note} (reachable : (system user).Reachable s)
    (separate : AccountsSeparate s) (completed : Completed s e t delivery fresh) :
    AccountsSeparate t ↔ AccountKept s e t := by
  have origin : ∀ note ∈ fresh, note.readFrom = delivery.load.collection.listed note.id := by
    intro note member
    have made : some note ∈ delivery.decoded := by
      rw [completed.decoded]
      exact List.mem_map_of_mem member
    obtain ⟨document, _, made⟩ := List.mem_map.mp made
    obtain ⟨id, readFrom⟩ := Note.ofDocument_id made
    rw [id, readFrom]
  have some : delivery.documents ≠ [] ↔ fresh ≠ [] := by
    have decoded := congrArg List.length completed.decoded
    simp only [Delivery.decoded, List.length_map] at decoded
    simp [← List.length_pos_iff, decoded]
  obtain ⟨result, rfl⟩ := completed.event
  have accepted : result.documents = delivery.documents := completed.documents
  simp only [AccountKept, completed.load, accepted, Option.mem_some_iff, forall_eq', some]
  rw [completed.after]
  refine ⟨?_, ?_⟩
  · rintro ⟨lists, _⟩ nonempty home member owner created
    obtain ⟨note, first⟩ := List.exists_mem_of_ne_nil fresh nonempty
    have held := lists _ (List.mem_map_of_mem member) owner created note
      (List.mem_append_right _ first)
    obtain ⟨reference, parsed, listed⟩ := noteOf_iff.mp held
    rw [origin note first] at listed
    rw [parsed, listed_injective listed]
  · intro kept
    refine ⟨?_, separate.2⟩
    intro home member owner created note held
    obtain ⟨old, existing, rfl⟩ := List.mem_map.mp member
    rcases List.mem_append.mp held with cached | first
    · have delivered : s.delivered ≠ [] := by
        intro none
        have empty := (cacheHolds reachable).empty_iff.mpr (by simp [none])
        simp [empty] at cached
      rw [← cacheShown reachable delivered old existing] at cached
      exact separate.1 old existing owner created note cached
    · have nonempty : fresh ≠ [] := List.ne_nil_of_mem first
      exact noteOf_iff.mpr ⟨_, kept nonempty old existing owner created, (origin note first).symm⟩

/-- A press keeps the accounts apart exactly when it is made for the account of
its list. -/
theorem accountsSeparate_called {s t : State} {e : Event} (separate : AccountsSeparate s)
    (own : DetailsOwn s) (called : Called s e t) :
    AccountsSeparate t ↔ AccountKept s e t := by
  have lists : ∀ home ∈ t.homes, home.OwnNotes := by
    intro home member
    rcases called.homes home member with old | ⟨empty, _⟩
    · exact separate.1 home old
    · simp [Home.OwnNotes, empty]
  rcases called.detailWrites with ⟨unpressed, same⟩ | written
  · have kept : AccountKept s e t := by
      have documents := called.documents
      cases e <;> simp_all [AccountKept, Event.documents, Event.pressed]
    exact ⟨fun _ => kept, fun _ => ⟨lists, same ▸ separate.2⟩⟩
  · obtain ⟨i, detail, current, write, pressed, found, signedIn, addressed, same⟩ := written
    have member : detail ∈ s.details := List.mem_of_getElem? found
    have kept : AccountKept s e t ↔ ∀ user ∈ detail.openedFor, current = user := by
      cases e <;> simp_all [AccountKept, Event.pressed]
    have write : DetailWrite.Addressed ⟨write, detail.controller.note, detail.openedFor⟩ ↔
        ∀ user ∈ detail.openedFor, current = user := by
      unfold DetailWrite.Addressed
      cases openedFor : detail.openedFor with
      | none => simp
      | some user =>
        simpa using addressed_iff (own detail member user openedFor) addressed
    rw [kept, ← write]
    refine ⟨?_, ?_⟩
    · intro after
      exact after.2 _ (by simp [same])
    · intro fine
      refine ⟨lists, ?_⟩
      intro w member
      rw [same] at member
      rcases List.mem_append.mp member with member | member
      · exact separate.2 w member
      · exact List.mem_singleton.mp member ▸ fine

/-- Along every run, lists hold notes of their own account and detail screens
write to the documents of their notes if and only if no result and no press comes
while another account has taken over. -/
theorem accountsSeparate_iff_accountKept (user : Option String) (events : List Event) :
    (system user).Always AccountsSeparate events ↔ (system user).EveryStep AccountKept events := by
  refine EventSystem.always_iff_everyStep (J := DetailsOwn)
    ⟨by simp [system], by simp [system]⟩ (by simp [DetailsOwn, system])
    (fun s e t _ own taken separate _ => detailsOwn_step separate own taken) ?_ events
  intro s e t reachable separate own taken
  rcases step_cases taken with quiet | called | ⟨delivery, fresh, completed⟩
  · have kept : AccountsSeparate t :=
      ⟨fun home member => separate.1 home (quiet.homes.subset member),
        quiet.detailWrites ▸ separate.2⟩
    exact ⟨fun _ => accountKept_of_quiet quiet, fun _ => kept⟩
  · exact accountsSeparate_called separate own called
  · exact accountsSeparate_completed reachable separate completed

/-- A load of the first account completes after the second has signed in, and a
note of its result is deleted. -/
def lateResult : List Event :=
  [.homeViewDidLoad, .sessionChanged none, .homeReleased 0, .sessionChanged (some "bob@mail.org"),
    .homeViewDidLoad, .getDocumentsCompleted 0 ⟨some [milk], none⟩,
    .didSelectRow 0 0, .deleteConfirmed 0]

theorem lateResult_not_separate :
    ¬ (system (some "ann@mail.org")).Always AccountsSeparate lateResult := by
  decide

end QuickNote.NoteList
