import QuickNote.Library.EventSystem
import QuickNote.NoteList.Source

/-!
# Runs of the note list

One process: the session, the singleton cache, the list and detail screens that
exist and the `getDocuments` calls that have not completed.  Events on the main
queue interleave freely; a call completes at most once and never inside the call.

Some fields are records of the schedule that no function of the code reads:
`Home.createdFor`, `Home.received`, `Detail.openedFor`, `State.delivered`,
`State.posts` and `State.detailWrites`.
-/

namespace QuickNote.NoteList

open Firestore DocumentStore

/-- A `getDocuments` call on its way. -/
structure Load where
  id : Nat
  collection : CollectionReference
deriving DecidableEq

/-- A result that a completion handler has accepted. -/
structure Delivery where
  load : Load
  documents : List Document
deriving DecidableEq

/-- The notes that the documents of a delivered result stand for, in its order. -/
def Delivery.decoded (delivery : Delivery) : List (Option Note) :=
  delivery.documents.map (Note.ofDocument delivery.load.collection)

/-- A `load` notification and the completion that posted it. -/
structure Post where
  delivery : Delivery
  notes : List Note
deriving DecidableEq

/-- A list screen, the account signed in when it was created and the last
notification it received. -/
structure Home where
  controller : HomeViewController := {}
  createdFor : Option String
  received : Option Post := none
deriving DecidableEq

/-- A detail screen and the account of the list it was opened from. -/
structure Detail where
  controller : DetailViewController
  openedFor : Option String
deriving DecidableEq

/-- A write that a detail screen has issued for its note. -/
structure DetailWrite where
  write : DatabaseWrite
  note : Note
  openedFor : Option String

structure State where
  currentUser : Option String
  dataSource : DataSource := {}
  issued : Nat := 0
  loads : List Load := []
  homes : List Home := []
  details : List Detail := []
  /-- The results accepted since the last call of `loadNoteDataFromFirebase`. -/
  delivered : List Delivery := []
  posts : List Post := []
  detailWrites : List DetailWrite := []

inductive Event where
  /-- A sign-in (`some email`) or a sign-out (`none`). -/
  | sessionChanged (user : Option String)
  | homeViewDidLoad
  | homeReleased (home : Nat)
  /-- The success branch of the Add sheet's save completion. -/
  | addSaveCompleted
  | didSelectRow (home row : Nat)
  | composeNote (detail : Nat)
  | detailTextChanged (detail : Nat) (text : String)
  | saveButtonPressed (detail : Nat)
  | deleteConfirmed (detail : Nat)
  | getDocumentsCompleted (load : Nat) (result : QueryResult)

namespace State

/-- `DataSource.shared.loadNoteDataFromFirebase()`. -/
def loadNoteDataFromFirebase (s : State) : Option State := do
  let (dataSource, request) ← s.dataSource.loadNoteDataFromFirebase s.currentUser
  let s := { s with dataSource := dataSource, delivered := [] }
  match request with
  | none => return s
  | some collection =>
      return { s with loads := s.loads ++ [⟨s.issued, collection⟩], issued := s.issued + 1 }

/-- `NotificationCenter.default.post(name: "load", …)`: every list screen that
exists observes it. -/
def post (s : State) (post : Post) : State :=
  { s with
    posts := s.posts ++ [post]
    homes := s.homes.map fun home =>
      { home with controller := home.controller.loadList post.notes, received := some post } }

/-- The completion of a `getDocuments` call; the documents of a result have
distinct identifiers. -/
def getDocumentsCompleted (s : State) (id : Nat) (result : QueryResult) : Option State := do
  let load ← s.loads.find? (·.id = id)
  let s := { s with loads := s.loads.filter (·.id ≠ id) }
  let (dataSource, posted) ← s.dataSource.getDocumentsCompletion load.collection result
  let s := { s with dataSource := dataSource }
  match result.documents, posted with
  | some documents, some notes =>
      if (documents.map Document.documentID).Nodup then
        let delivery : Delivery := ⟨load, documents⟩
        some ({ s with delivered := s.delivered ++ [delivery] }.post ⟨delivery, notes⟩)
      else none
  | _, _ => some s

def saveButtonPressed (s : State) (i : Nat) : Option State := do
  let detail ← s.details[i]?
  if detail.controller.saveButtonIsHidden then none
  else
    let (controller, write) ← detail.controller.saveButtonPressed s.currentUser
    match write with
    | none => some s
    | some write =>
        State.loadNoteDataFromFirebase { s with
          details := s.details.set i { detail with controller := controller }
          detailWrites := s.detailWrites ++
            [⟨write, detail.controller.note, detail.openedFor⟩] }

/-- The Delete action; the screen is popped afterwards. -/
def deleteConfirmed (s : State) (i : Nat) : Option State := do
  let detail ← s.details[i]?
  match ← detail.controller.deleteConfirmed s.currentUser with
  | none => some s
  | some write =>
      State.loadNoteDataFromFirebase { s with
        details := s.details.eraseIdx i
        detailWrites := s.detailWrites ++
          [⟨write, detail.controller.note, detail.openedFor⟩] }

end State

def step (s : State) : Event → Option State
  | .sessionChanged user => some { s with currentUser := user }
  | .homeViewDidLoad => do
      let t ← s.loadNoteDataFromFirebase
      return { t with homes := t.homes ++ [{ createdFor := t.currentUser }] }
  | .homeReleased i =>
      if i < s.homes.length then some { s with homes := s.homes.eraseIdx i } else none
  | .addSaveCompleted => s.loadNoteDataFromFirebase
  | .didSelectRow i row => do
      let home ← s.homes[i]?
      let note ← home.controller.notes[row]?
      return { s with
        details := s.details ++ [⟨DetailViewController.viewDidLoad note, home.createdFor⟩] }
  | .composeNote i => do
      let detail ← s.details[i]?
      return { s with
        details := s.details.set i { detail with controller := detail.controller.composeNote } }
  | .detailTextChanged i text => do
      let detail ← s.details[i]?
      if detail.controller.isEditable then
        some { s with
          details := s.details.set i
            { detail with controller := { detail.controller with noteDetailText := text } } }
      else none
  | .saveButtonPressed i => s.saveButtonPressed i
  | .deleteConfirmed i => s.deleteConfirmed i
  | .getDocumentsCompleted id result => s.getDocumentsCompleted id result

/-- The note list of a process that starts with the given session. -/
def system (user : Option String) : EventSystem State Event where
  init := { currentUser := user }
  step := step

/-- The documents that an event delivers. -/
def Event.documents : Event → Option (List Document)
  | .getDocumentsCompleted _ result => result.documents
  | _ => none

/-- The detail screen whose Save or Delete an event is. -/
def Event.pressed : Event → Option Nat
  | .saveButtonPressed i | .deleteConfirmed i => some i
  | _ => none

/-- A detail screen that shows the note of one of `s`, or that was opened from a
list of `s`. -/
def Detail.OpenedIn (detail : Detail) (s : State) : Prop :=
  (∃ old ∈ s.details, detail.controller.note = old.controller.note ∧
    detail.openedFor = old.openedFor) ∨
  ∃ home ∈ s.homes, detail.controller.note ∈ home.controller.notes ∧
    detail.openedFor = home.createdFor

/-- A step that neither calls `loadNoteDataFromFirebase` nor delivers a result. -/
structure Quiet (s : State) (e : Event) (t : State) : Prop where
  currentUser : (∀ user, e ≠ .sessionChanged user) → t.currentUser = s.currentUser
  documents : e.documents = none
  pressed : ∀ i ∈ e.pressed, s.currentUser = none
  dataSource : t.dataSource = s.dataSource
  issued : t.issued = s.issued
  loads : (∀ id result, e ≠ .getDocumentsCompleted id result) → t.loads = s.loads
  delivered : t.delivered = s.delivered
  posts : t.posts = s.posts
  homes : t.homes.Sublist s.homes
  details : ∀ detail ∈ t.details, detail.OpenedIn s
  detailWrites : t.detailWrites = s.detailWrites

/-- A step that calls `loadNoteDataFromFirebase`. -/
structure Called (s : State) (e : Event) (t : State) : Prop where
  currentUser : t.currentUser = s.currentUser
  requested : ∀ user ∈ s.currentUser, ∃ notes, collection (notesPath user) = some notes ∧
    t.loads = s.loads ++ [⟨s.issued, notes⟩] ∧ t.issued = s.issued + 1
  documents : e.documents = none
  cleared : t.dataSource.notes = []
  delivered : t.delivered = []
  posts : t.posts = s.posts
  homes : ∀ home ∈ t.homes, home ∈ s.homes ∨ home.controller.notes = [] ∧ home.received = none
  details : ∀ detail ∈ t.details, detail.OpenedIn s
  detailWrites :
    (e.pressed = none ∧ t.detailWrites = s.detailWrites) ∨
    ∃ i detail user write, e.pressed = some i ∧ s.details[i]? = some detail ∧
      s.currentUser = some user ∧ detail.controller.document user = some write.key ∧
      t.detailWrites = s.detailWrites ++ [⟨write, detail.controller.note, detail.openedFor⟩]

/-- A step that delivers a result, of which `fresh` are the notes. -/
structure Completed (s : State) (e : Event) (t : State) (delivery : Delivery)
    (fresh : List Note) : Prop where
  documents : e.documents = some delivery.documents
  pressed : e.pressed = none
  load : s.loads.find? (·.id = delivery.load.id) = some delivery.load
  event : ∃ result, e = .getDocumentsCompleted delivery.load.id result
  distinct : (delivery.documents.map Document.documentID).Nodup
  decoded : delivery.decoded = fresh.map some
  after : t = ({ s with
    loads := s.loads.filter (·.id ≠ delivery.load.id)
    dataSource := ⟨s.dataSource.notes ++ fresh⟩
    delivered := s.delivered ++ [delivery] }).post ⟨delivery, s.dataSource.notes ++ fresh⟩

theorem State.loadNoteDataFromFirebase_eq_some {s t : State}
    (called : s.loadNoteDataFromFirebase = some t) :
    ∃ loads issued, t = { s with
        dataSource := {}, delivered := [], loads := loads, issued := issued } ∧
      ∀ user ∈ s.currentUser, ∃ notes, collection (notesPath user) = some notes ∧
        loads = s.loads ++ [⟨s.issued, notes⟩] ∧ issued = s.issued + 1 := by
  unfold State.loadNoteDataFromFirebase DataSource.loadNoteDataFromFirebase at called
  cases user : s.currentUser with
  | none =>
    simp only [user, Option.bind_eq_bind, Option.bind_some] at called
    exact ⟨s.loads, s.issued, by rw [← Option.some.inj called], by simp⟩
  | some userId =>
    simp only [user, Option.bind_eq_bind, Option.bind_eq_some_iff] at called
    obtain ⟨⟨dataSource, request⟩, ⟨notes, parsed, requested⟩, called⟩ := called
    simp only [Option.pure_def, Option.some.injEq, Prod.mk.injEq] at requested
    obtain ⟨rfl, rfl⟩ := requested
    refine ⟨_, _, (Option.some.inj called).symm, ?_⟩
    intro other same
    cases same
    exact ⟨notes, parsed, rfl, rfl⟩

theorem Detail.openedIn_of_mem {s : State} {detail : Detail} (member : detail ∈ s.details) :
    detail.OpenedIn s :=
  Or.inl ⟨detail, member, rfl, rfl⟩

/-- An update of a detail screen leaves it its note and its account. -/
theorem Detail.openedIn_of_mem_set {s : State} {i : Nat} {old new : Detail}
    (found : s.details[i]? = some old) (note : new.controller.note = old.controller.note)
    (openedFor : new.openedFor = old.openedFor) :
    ∀ detail ∈ s.details.set i new, detail.OpenedIn s := by
  intro detail member
  rcases List.mem_or_eq_of_mem_set member with member | rfl
  · exact Detail.openedIn_of_mem member
  · exact Or.inl ⟨old, List.mem_of_getElem? found, note, openedFor⟩

/-- A step that changes nothing but detail screens. -/
theorem quiet_of_details {s : State} {e : Event} {details : List Detail}
    (documents : e.documents = none) (pressed : ∀ i ∈ e.pressed, s.currentUser = none)
    (opened : ∀ detail ∈ details, detail.OpenedIn s) :
    Quiet s e { s with details := details } := by
  exact {
    currentUser := fun _ => rfl
    documents := documents
    pressed := pressed
    dataSource := rfl
    issued := rfl
    loads := fun _ => rfl
    delivered := rfl
    posts := rfl
    homes := List.Sublist.refl _
    details := opened
    detailWrites := rfl }

/-- A press that finds nobody signed in changes nothing. -/
theorem quiet_of_signedOut {s : State} {e : Event} (documents : e.documents = none)
    (user : s.currentUser = none) : Quiet s e s :=
  quiet_of_details documents (fun _ _ => user) (fun _ member => Detail.openedIn_of_mem member)

/-- A call of `loadNoteDataFromFirebase`, after the write of a press or without
one. -/
theorem called_of_load {s t : State} {e : Event} {details : List Detail}
    {writes : List DetailWrite}
    (ran : State.loadNoteDataFromFirebase { s with details := details, detailWrites := writes } =
      some t)
    (documents : e.documents = none) (opened : ∀ detail ∈ details, detail.OpenedIn s)
    (detailWrites : (e.pressed = none ∧ writes = s.detailWrites) ∨
      ∃ i detail user write, e.pressed = some i ∧ s.details[i]? = some detail ∧
        s.currentUser = some user ∧ detail.controller.document user = some write.key ∧
        writes = s.detailWrites ++ [⟨write, detail.controller.note, detail.openedFor⟩]) :
    Called s e t := by
  obtain ⟨loads, issued, rfl, requested⟩ := State.loadNoteDataFromFirebase_eq_some ran
  exact {
    currentUser := rfl
    requested := requested
    documents := documents
    cleared := rfl
    delivered := rfl
    posts := rfl
    homes := fun home member => Or.inl member
    details := opened
    detailWrites := detailWrites }

theorem State.getDocumentsCompleted_eq_some {s t : State} {id : Nat} {result : QueryResult}
    (completed : s.getDocumentsCompleted id result = some t) :
    Quiet s (.getDocumentsCompleted id result) t ∨
      ∃ delivery fresh, Completed s (.getDocumentsCompleted id result) t delivery fresh := by
  unfold State.getDocumentsCompleted at completed
  simp only [Option.bind_eq_bind, Option.bind_eq_some_iff] at completed
  obtain ⟨load, found, ⟨dataSource, posted⟩, handled, completed⟩ := completed
  have named : load.id = id := by simpa using List.find?_some found
  unfold DataSource.getDocumentsCompletion at handled
  cases accepted : result.documents with
  | none =>
    simp only [accepted, Option.some.injEq, Prod.mk.injEq] at handled completed
    obtain ⟨rfl, rfl⟩ := handled
    subst completed
    left
    exact {
      currentUser := fun _ => rfl
      documents := accepted
      pressed := by simp [Event.pressed]
      dataSource := rfl
      issued := rfl
      loads := fun other => absurd rfl (other id result)
      delivered := rfl
      posts := rfl
      homes := List.Sublist.refl _
      details := fun detail member => Or.inl ⟨detail, member, rfl, rfl⟩
      detailWrites := rfl }
  | some documents =>
    simp only [accepted, Option.bind_eq_bind, Option.bind_eq_some_iff, appendNotes_eq_some,
      Option.pure_def, Option.some.injEq, Prod.mk.injEq] at handled completed
    obtain ⟨notes, ⟨fresh, decoded, rfl⟩, rfl, rfl⟩ := handled
    simp only at completed
    split at completed
    · rename_i distinct
      right
      refine ⟨⟨load, documents⟩, fresh, ?_⟩
      exact {
        documents := accepted
        pressed := rfl
        load := by rw [named]; exact found
        event := ⟨result, by rw [named]⟩
        distinct := distinct
        decoded := decoded
        after := by rw [named]; exact (Option.some.inj completed).symm }
    · cases completed

theorem State.saveButtonPressed_eq_some {s t : State} {i : Nat}
    (pressed : s.saveButtonPressed i = some t) :
    Quiet s (.saveButtonPressed i) t ∨ Called s (.saveButtonPressed i) t := by
  unfold State.saveButtonPressed at pressed
  simp only [Option.bind_eq_bind, Option.bind_eq_some_iff] at pressed
  obtain ⟨detail, found, pressed⟩ := pressed
  split at pressed
  · cases pressed
  obtain ⟨⟨controller, write⟩, ran, pressed⟩ := Option.bind_eq_some_iff.mp pressed
  cases user : s.currentUser with
  | none =>
    simp only [DetailViewController.saveButtonPressed, user, Option.some.injEq,
      Prod.mk.injEq] at ran
    obtain ⟨rfl, rfl⟩ := ran
    cases pressed
    exact Or.inl (quiet_of_signedOut rfl user)
  | some userId =>
    rw [user] at ran
    obtain ⟨document, addressed, rfl, rfl⟩ := DetailViewController.saveButtonPressed_eq_some ran
    refine Or.inr (called_of_load pressed rfl (Detail.openedIn_of_mem_set found rfl rfl) ?_)
    exact Or.inr ⟨i, detail, userId, .update document _, rfl, found, user, addressed, rfl⟩

theorem State.deleteConfirmed_eq_some {s t : State} {i : Nat}
    (pressed : s.deleteConfirmed i = some t) :
    Quiet s (.deleteConfirmed i) t ∨ Called s (.deleteConfirmed i) t := by
  unfold State.deleteConfirmed at pressed
  simp only [Option.bind_eq_bind, Option.bind_eq_some_iff] at pressed
  obtain ⟨detail, found, write, ran, pressed⟩ := pressed
  cases user : s.currentUser with
  | none =>
    simp only [DetailViewController.deleteConfirmed, user, Option.some.injEq] at ran
    subst ran
    cases pressed
    exact Or.inl (quiet_of_signedOut rfl user)
  | some userId =>
    rw [user] at ran
    obtain ⟨document, addressed, rfl⟩ := DetailViewController.deleteConfirmed_eq_some ran
    have opened : ∀ other ∈ s.details.eraseIdx i, other.OpenedIn s :=
      fun other member => Detail.openedIn_of_mem (List.mem_of_mem_eraseIdx member)
    refine Or.inr (called_of_load pressed rfl opened ?_)
    exact Or.inr ⟨i, detail, userId, .delete document, rfl, found, user, addressed, rfl⟩

/-- Every completed Add calls `loadNoteDataFromFirebase`. -/
theorem called_of_addSaveCompleted {s t : State} (taken : step s .addSaveCompleted = some t) :
    Called s .addSaveCompleted t :=
  called_of_load taken rfl (fun _ member => Detail.openedIn_of_mem member) (Or.inl ⟨rfl, rfl⟩)

/-- A list screen calls `loadNoteDataFromFirebase` before it observes the
notification. -/
theorem called_of_homeViewDidLoad {s t : State} (taken : step s .homeViewDidLoad = some t) :
    Called s .homeViewDidLoad t := by
  obtain ⟨u, ran, made⟩ := Option.bind_eq_some_iff.mp taken
  cases made
  have called : Called s .homeViewDidLoad u :=
    called_of_load ran rfl (fun _ member => Detail.openedIn_of_mem member) (Or.inl ⟨rfl, rfl⟩)
  exact { called with
    homes := by
      intro home member
      rcases List.mem_append.mp member with old | new
      · exact called.homes home old
      · rw [List.mem_singleton.mp new]
        exact Or.inr ⟨rfl, rfl⟩ }

/-- Everything one step can do. -/
theorem step_cases {s t : State} {e : Event} (taken : step s e = some t) :
    Quiet s e t ∨ Called s e t ∨ ∃ delivery fresh, Completed s e t delivery fresh := by
  have same : ∀ detail ∈ s.details, detail.OpenedIn s :=
    fun _ member => Detail.openedIn_of_mem member
  cases e with
  | sessionChanged user =>
    cases taken
    left
    exact {
      currentUser := fun other => absurd rfl (other user)
      documents := rfl
      pressed := by simp [Event.pressed]
      dataSource := rfl
      issued := rfl
      loads := fun _ => rfl
      delivered := rfl
      posts := rfl
      homes := List.Sublist.refl _
      details := same
      detailWrites := rfl }
  | homeViewDidLoad => exact Or.inr (Or.inl (called_of_homeViewDidLoad taken))
  | homeReleased i =>
    simp only [step] at taken
    split at taken
    · cases taken
      left
      exact { quiet_of_details rfl (by simp [Event.pressed]) same with
        homes := List.eraseIdx_sublist _ _ }
    · cases taken
  | addSaveCompleted => exact Or.inr (Or.inl (called_of_addSaveCompleted taken))
  | didSelectRow i row =>
    obtain ⟨home, found, taken⟩ := Option.bind_eq_some_iff.mp taken
    obtain ⟨note, chosen, taken⟩ := Option.bind_eq_some_iff.mp taken
    cases taken
    refine Or.inl (quiet_of_details rfl (by simp [Event.pressed]) ?_)
    intro detail member
    rcases List.mem_append.mp member with old | new
    · exact same detail old
    · rw [List.mem_singleton.mp new]
      exact Or.inr ⟨home, List.mem_of_getElem? found, List.mem_of_getElem? chosen, rfl⟩
  | composeNote i =>
    obtain ⟨detail, found, taken⟩ := Option.bind_eq_some_iff.mp taken
    cases taken
    exact Or.inl (quiet_of_details rfl (by simp [Event.pressed])
      (Detail.openedIn_of_mem_set found rfl rfl))
  | detailTextChanged i text =>
    obtain ⟨detail, found, taken⟩ := Option.bind_eq_some_iff.mp taken
    split at taken
    · cases taken
      exact Or.inl (quiet_of_details rfl (by simp [Event.pressed])
        (Detail.openedIn_of_mem_set found rfl rfl))
    · cases taken
  | saveButtonPressed i =>
    exact (State.saveButtonPressed_eq_some taken).imp_right Or.inl
  | deleteConfirmed i =>
    exact (State.deleteConfirmed_eq_some taken).imp_right Or.inl
  | getDocumentsCompleted id result =>
    exact (State.getDocumentsCompleted_eq_some taken).imp_right Or.inr

end QuickNote.NoteList
