import QuickNote.AddNote.Source
import QuickNote.Library.EventSystem
import QuickNote.Library.SharedStore
import QuickNote.NoteList.Source

/-!
# Deletions from several devices

Devices that are signed in to one account add, edit and delete notes.  Each reads the
server as it is or was, with its own queued writes on top, and opens only notes that
it has read.  Add is the only operation that creates a document, under a new UUID, so
the devices are an instance of a store whose documents are created once, and a note
whose deletion the server has applied never comes back.
-/

namespace QuickNote.Devices

open Firestore DocumentStore

/-- The server's documents and the queued writes, the states the server has been in,
the identifiers in use and, for each device, the notes it has ever loaded. -/
structure State where
  database : Queued Nat DocumentReference String FieldValue
  history : List Database
  uuids : List DocumentID
  loaded : Nat → List Note

/-- What a device does and what becomes of queued writes; `moment` counts the states of
the server. -/
inductive Event where
  | addButtonPressed (device : Nat) (sheet : AddNoteViewController) (uuid : DocumentID)
  | notesLoaded (device moment : Nat)
  | saveButtonPressed (device : Nat) (detail : DetailViewController)
  | deleteConfirmed (device : Nat) (detail : DetailViewController)
  | writeApplied (device : Nat)
  | writeRefused (device : Nat)

/-- A load whose query reads the database: the notes that are posted. -/
def load (user : String) (database : Database) : Option (List Note) := do
  let (dataSource, requested) ← ({} : DataSource).loadNoteDataFromFirebase (some user)
  let notes ← requested
  let result : QueryResult := { data := some (documentsOf notes database), error := none }
  let (_, posted) ← dataSource.getDocumentsCompletion notes result
  posted

def State.issue (s : State) (device : Nat) (write : DatabaseWrite) : State :=
  { s with database := s.database.issue device write }

def step (user : String) (s : State) : Event → Option State
  | .addButtonPressed device sheet uuid =>
    if uuid ∈ s.uuids then none
    else do
      let write ← ← sheet.addButtonPressed (some user) uuid
      return { s.issue device write with uuids := uuid :: s.uuids }
  | .notesLoaded device moment => do
    let server ← s.history[moment]?
    let posted ← load user (overlay server (s.database.pending device))
    return { s with loaded := Function.update s.loaded device (s.loaded device ++ posted) }
  | .saveButtonPressed device detail =>
    if detail.note ∈ s.loaded device then do
      let (_, write) ← detail.saveButtonPressed (some user)
      return s.issue device (← write)
    else none
  | .deleteConfirmed device detail =>
    if detail.note ∈ s.loaded device then do
      let write ← ← detail.deleteConfirmed (some user)
      return s.issue device write
    else none
  | .writeApplied device => do
    let database ← s.database.applyHead device
    return { s with database := database, history := s.history ++ [database.server] }
  | .writeRefused device => do
    let database ← s.database.refuseHead device
    return { s with database := database }

/-- The devices of an account, starting from any documents. -/
def system (user : String) (server : Database) : EventSystem State Event where
  init :=
    { database := { server := server, pending := fun _ => [] }
      history := [server]
      uuids := server.keys.filterMap (·.idIn (segmentsOf (notesPath user)))
      loaded := fun _ => [] }
  step := step user

/-- The step applies a deletion of the document to the server. -/
def DeleteApplied (key : DocumentReference) (s : State) (e : Event) (_ : State) : Prop :=
  ∃ device rest, e = .writeApplied device ∧ s.database.pending device = .delete key :: rest

/-- The document exists neither on the server nor for any device. -/
def Deleted (key : DocumentReference) (s : State) : Prop :=
  key ∉ s.database.server ∧ ∀ device, key ∉ s.database.view device

/-! ## The devices share a store -/

/-- The document `users/<user>/Notes/<id>`. -/
def IsNote (user : String) (id : DocumentID) (key : DocumentReference) : Prop :=
  key.path = segmentsOf (notesPath user) ++ [id.name]

/-- What the devices make of the shared store.  A document has been used when its
identifier has; a device knows the documents of the notes it has loaded. -/
def State.shared (s : State) (user : String) : Shared Nat DocumentReference String FieldValue where
  queued := s.database
  history := s.history
  used := {key | ∀ id, IsNote user id key → id ∈ s.uuids}
  known := fun device => {key | ∃ note ∈ s.loaded device, IsNote user note.id key}

theorem IsNote.id_eq {user : String} {a b : DocumentID} {key : DocumentReference}
    (first : IsNote user a key) (second : IsNote user b key) : a = b := by
  have names : [a.name] = [b.name] := List.append_cancel_left (first.symm.trans second)
  cases a
  cases b
  simpa using names

theorem isNote_listed {user : String} {notes : CollectionReference} (id : DocumentID)
    (parsed : collection (notesPath user) = some notes) : IsNote user id (notes.listed id) := by
  rw [IsNote, listed_path, (collection_eq_some parsed).2]

theorem isNote_document {user : String} {detail : DetailViewController}
    {document : DocumentReference} (found : detail.document user = some document) :
    IsNote user detail.note.id document := by
  obtain ⟨notes, parsed, rfl⟩ := DetailViewController.document_eq_some found
  exact isNote_listed detail.note.id parsed

/-- A load posts one note for each document of the account's notes. -/
theorem load_eq_some {user : String} {database : Database} {posted : List Note}
    (loaded : load user database = some posted) :
    ∃ notes, collection (notesPath user) = some notes ∧
      (documentsOf notes database).map (Note.ofDocument notes) = posted.map some := by
  rw [load, DataSource.loadNoteDataFromFirebase_some] at loaded
  cases parsed : collection (notesPath user) with
  | none => simp [parsed] at loaded
  | some notes =>
    refine ⟨notes, rfl, ?_⟩
    simp only [parsed, Option.map_some, Option.bind_eq_bind, Option.bind_some, Option.pure_def,
      DataSource.getDocumentsCompletion, QueryResult.documents, Option.isNone_none,
      if_true] at loaded
    cases appended : DataSource.appendNotes notes (documentsOf notes database) [] with
    | none => simp [appended] at loaded
    | some result =>
      obtain ⟨fresh, decoded, rfl⟩ := appendNotes_eq_some.mp appended
      simp only [appended, Option.bind_some, Option.some.injEq] at loaded
      exact loaded ▸ decoded

/-- The notes of a load stand for documents that exist. -/
theorem mem_of_load {user : String} {database : Database} {posted : List Note}
    (loaded : load user database = some posted) {note : Note} (member : note ∈ posted)
    {key : DocumentReference} (own : IsNote user note.id key) : key ∈ database := by
  obtain ⟨notes, parsed, decoded⟩ := load_eq_some loaded
  have listed : note.id ∈ (documentsOf notes database).map Document.documentID := by
    rw [← ids_of_decoded decoded]
    exact List.mem_map_of_mem member
  obtain ⟨document, found, id⟩ := List.mem_map.mp listed
  have same : key = notes.listed note.id :=
    document_ext (own.trans (isNote_listed note.id parsed).symm)
  rw [same, ← id, ← AList.lookup_isSome, mem_documentsOf.mp found]
  rfl

/-- What a detail screen writes is about a document that the device knows. -/
theorem shared_issue {user : String} {s : State} {device : Nat} {detail : DetailViewController}
    {document : DocumentReference} {write : DatabaseWrite} (opened : detail.note ∈ s.loaded device)
    (addressed : detail.document user = some document) (key : write.key = document)
    (other : ¬ write.Creates) : (s.shared user).Step ((s.issue device write).shared user) :=
  .write device write other ⟨detail.note, opened, key ▸ isNote_document addressed⟩

/-- What a device loads are notes of documents it can read. -/
theorem shared_loaded {user : String} {s : State} {device : Nat} {server : Database}
    {posted : List Note} (past : server ∈ s.history)
    (loaded : load user (overlay server (s.database.pending device)) = some posted) :
    (s.shared user).Step (State.shared { s with
      loaded := Function.update s.loaded device (s.loaded device ++ posted) } user) := by
  have known : (State.shared { s with
      loaded := Function.update s.loaded device (s.loaded device ++ posted) } user).known =
        Function.update (s.shared user).known device ((s.shared user).known device ∪
          {key | ∃ note ∈ posted, IsNote user note.id key}) := by
    funext other
    by_cases own : other = device
    · subst own
      ext key
      simp only [State.shared, Function.update_self, Set.mem_union, Set.mem_ofPred_eq,
        List.mem_append]
      refine ⟨?_, ?_⟩
      · rintro ⟨note, before | new, same⟩
        · exact Or.inl ⟨note, before, same⟩
        · exact Or.inr ⟨note, new, same⟩
      · rintro (⟨note, before, same⟩ | ⟨note, new, same⟩)
        · exact ⟨note, Or.inl before, same⟩
        · exact ⟨note, Or.inr new, same⟩
    · simp [State.shared, Function.update_of_ne own]
  have read := Shared.Step.read (s := s.shared user) device server
    {key | ∃ note ∈ posted, IsNote user note.id key} past ?_
  · rw [← known] at read
    exact read
  · rintro key ⟨note, member, own⟩
    exact mem_of_load loaded member own

/-- Every step of the devices is a step of the shared store. -/
theorem shared_step {user : String} {s t : State} {e : Event} (taken : step user s e = some t) :
    (s.shared user).Step (t.shared user) := by
  cases e with
  | addButtonPressed device sheet uuid =>
    unfold step at taken
    by_cases used : uuid ∈ s.uuids
    · simp [used] at taken
    · simp only [if_neg used] at taken
      obtain ⟨made, pressed, taken⟩ := Option.bind_eq_some_iff.mp taken
      obtain ⟨users, document, parsed, addressed, rfl⟩ :=
        AddNoteViewController.addButtonPressed_eq_some pressed
      cases taken
      have own : IsNote user uuid document := path_of_note parsed addressed
      refine .create device _ _ ?_ ?_ ?_
      · exact fun before => used (before uuid own)
      · exact fun key before id note => List.mem_cons_of_mem uuid (before id note)
      · exact fun id note => own.id_eq note ▸ List.mem_cons_self
  | notesLoaded device moment =>
    obtain ⟨server, found, taken⟩ := Option.bind_eq_some_iff.mp taken
    obtain ⟨posted, loaded, taken⟩ := Option.bind_eq_some_iff.mp taken
    cases taken
    exact shared_loaded (List.mem_of_getElem? found) loaded
  | saveButtonPressed device detail =>
    unfold step at taken
    by_cases opened : detail.note ∈ s.loaded device
    · simp only [if_pos opened] at taken
      obtain ⟨⟨after, made⟩, pressed, taken⟩ := Option.bind_eq_some_iff.mp taken
      obtain ⟨document, addressed, _, rfl⟩ := DetailViewController.saveButtonPressed_eq_some pressed
      cases taken
      exact shared_issue opened addressed rfl not_false
    · simp [opened] at taken
  | deleteConfirmed device detail =>
    unfold step at taken
    by_cases opened : detail.note ∈ s.loaded device
    · simp only [if_pos opened] at taken
      obtain ⟨made, pressed, taken⟩ := Option.bind_eq_some_iff.mp taken
      obtain ⟨document, addressed, rfl⟩ := DetailViewController.deleteConfirmed_eq_some pressed
      cases taken
      exact shared_issue opened addressed rfl not_false
    · simp [opened] at taken
  | writeApplied device =>
    obtain ⟨database, applied, taken⟩ := Option.bind_eq_some_iff.mp taken
    cases taken
    exact .apply device database applied
  | writeRefused device =>
    obtain ⟨database, refused, taken⟩ := Option.bind_eq_some_iff.mp taken
    cases taken
    exact .refuse device database refused

/-- The documents of the devices are created once. -/
theorem createdOnce {user : String} {server : Database} {s : State}
    (reachable : (system user server).Reachable s) : (s.shared user).CreatedOnce := by
  refine reachable.invariant (I := fun s => (s.shared user).CreatedOnce) ?_ ?_
  · refine Shared.CreatedOnce.start rfl (fun _ => rfl) (fun device => ?_) ?_
    · ext key
      simp [State.shared, system]
    · intro key stored id own
      exact List.mem_filterMap.mpr ⟨key, AList.mem_keys.mp stored, idIn_eq_some.mpr own⟩
  · intro s e t once taken
    exact once.step (shared_step taken)

/-- Once the server has applied the deletion of a document, the document does not exist
in any later state, whatever the devices have queued and whatever they do. -/
theorem deleted_after_deleteApplied (user : String) (server : Database) (key : DocumentReference)
    (events : List Event) :
    (system user server).After (DeleteApplied key) (Deleted key) events := by
  refine EventSystem.after_of_stable (J := fun s => (s.shared user).Gone key) ?_ ?_ ?_ events
  · rintro s e t reachable taken ⟨device, rest, rfl, queue⟩
    obtain ⟨database, applied, taken⟩ := Option.bind_eq_some_iff.mp taken
    cases taken
    exact (createdOnce reachable).gone queue applied
  · intro s e t _ taken gone
    exact gone.step (shared_step taken)
  · intro s gone
    exact ⟨gone.absent, gone.not_mem_view⟩

def riceID : DocumentID := ⟨"rice", by decide, by decide⟩

def rice : Note where
  id := riceID
  title := "rice"
  details := ""
  doc := ""
  readFrom := ⟨["users", "ann@mail.org", "Notes", "rice"], rfl⟩

/-- The first device edits a note that the second has deleted, and its edit reaches the
server last. -/
def staleEdit : List Event :=
  [.addButtonPressed 0 { titleTextField := some "rice" } riceID, .writeApplied 0,
    .notesLoaded 0 1, .notesLoaded 1 1, .deleteConfirmed 1 (.viewDidLoad rice),
    .saveButtonPressed 0 (.viewDidLoad rice), .writeApplied 1, .writeApplied 0]

example : ((system "ann@mail.org" ∅).run staleEdit).map (·.database.server.keys) = some [] := by
  decide

end QuickNote.Devices
