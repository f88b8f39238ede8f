import QuickNote.Models

/-!
# The note list: cache, list screen and detail screen

`DataSource.swift`, `HomeViewController.swift` and the note operations of
`DetailViewController.swift`.  A function that starts an asynchronous call
returns the request, and the completion handler is a function of its own.
`Auth.auth().currentUser?.email` is a parameter, read at the call.  A result of
`none` is a trap: a refused path or a failed cast ends the process.
-/

namespace QuickNote

open Firestore DocumentStore

/-- The arguments of a `getDocuments` completion. -/
structure QueryResult where
  data : Option (List Document)
  error : Option String
deriving DecidableEq

/-- The documents of a result that the completion accepts:
`error == nil && data != nil` (`DataSource.swift:41`). -/
def QueryResult.documents (result : QueryResult) : Option (List Document) :=
  if result.error.isNone then result.data else none

/-- The singleton `DataSource.shared`. -/
structure DataSource where
  notes : List Note := []
deriving DecidableEq

namespace DataSource

/-- `loadNoteDataFromFirebase` up to the asynchronous call: the cache is cleared
first, and nothing is requested when nobody is signed in
(`DataSource.swift:31-40`). -/
def loadNoteDataFromFirebase (self : DataSource) (currentUser : Option String) :
    Option (DataSource × Option CollectionReference) :=
  let self := { self with notes := [] }
  match currentUser with
  | none => some (self, none)
  | some userId => do
      let collection ← collection (notesPath userId)
      return (self, some collection)

/-- The loop of the completion handler (`DataSource.swift:43-47`). -/
def appendNotes (collection : CollectionReference) :
    List Document → List Note → Option (List Note)
  | [], notes => some notes
  | document :: documents, notes => do
      let note ← Note.ofDocument collection document
      appendNotes collection documents (notes ++ [note])

/-- The completion handler of `getDocuments` (`DataSource.swift:41-57`): the new
cache and the list that is posted as `load`, if one is. -/
def getDocumentsCompletion (self : DataSource) (collection : CollectionReference)
    (result : QueryResult) : Option (DataSource × Option (List Note)) :=
  match result.documents with
  | none => some (self, none)
  | some documents => do
      let notes ← appendNotes collection documents self.notes
      return ({ self with notes := notes }, some notes)

end DataSource

/-- `HomeViewController`. -/
structure HomeViewController where
  notes : List Note := []
deriving DecidableEq

/-- `loadList(notification:)` (`HomeViewController.swift:39`). -/
def HomeViewController.loadList (self : HomeViewController) (posted : List Note) :
    HomeViewController :=
  { self with notes := posted }

/-- The note of a `DetailViewController` and the controls its operations use. -/
structure DetailViewController where
  note : Note
  noteDetailText : String
  isEditable : Bool
  saveButtonIsHidden : Bool
deriving DecidableEq

namespace DetailViewController

/-- `viewDidLoad` for the note that `didSelectRowAt` has set
(`DetailViewController.swift:38-48`). -/
def viewDidLoad (note : Note) : DetailViewController :=
  { note := note, noteDetailText := note.details, isEditable := false, saveButtonIsHidden := true }

/-- `composeNote` (`DetailViewController.swift:124`). -/
def composeNote (self : DetailViewController) : DetailViewController :=
  { self with isEditable := true, saveButtonIsHidden := false }

/-- The document that both operations address:
`db.collection("users/\(userId)/Notes").document(self.note.id)`. -/
def document (self : DetailViewController) (userId : String) : Option DocumentReference := do
  let collection ← collection (notesPath userId)
  collection.document self.note.id.name

/-- `saveButtonPressed` (`DetailViewController.swift:129-145`) up to the reload:
the screen afterwards and the write, none when nobody is signed in. -/
def saveButtonPressed (self : DetailViewController) (currentUser : Option String) :
    Option (DetailViewController × Option DatabaseWrite) :=
  match currentUser with
  | none => some (self, none)
  | some userId => do
      let document ← self.document userId
      return ({ self with saveButtonIsHidden := true, isEditable := false },
        some (.update document [⟨"details", .string self.noteDetailText⟩].toAList))

/-- The Delete action of `deleteNote` (`DetailViewController.swift:106-112`) up to
the reload. -/
def deleteConfirmed (self : DetailViewController) (currentUser : Option String) :
    Option (Option DatabaseWrite) :=
  match currentUser with
  | none => some none
  | some userId => do
      let document ← self.document userId
      return some (.delete document)

end DetailViewController

/-- A load of someone signed in clears the cache and requests the notes of the
account. -/
theorem DataSource.loadNoteDataFromFirebase_some (self : DataSource) (userId : String) :
    self.loadNoteDataFromFirebase (some userId) =
      (collection (notesPath userId)).map fun notes => ({ self with notes := [] }, some notes) := by
  unfold DataSource.loadNoteDataFromFirebase
  cases parsed : collection (notesPath userId) with
  | none => simp [parsed]
  | some notes => simp [parsed]

/-- A detail screen addresses the listed document of the account signed in. -/
theorem DetailViewController.document_eq_some {self : DetailViewController} {userId : String}
    {reference : DocumentReference} (found : self.document userId = some reference) :
    ∃ notes, collection (notesPath userId) = some notes ∧
      reference = notes.listed self.note.id := by
  obtain ⟨notes, parsed, addressed⟩ := Option.bind_eq_some_iff.mp found
  rw [document_name] at addressed
  exact ⟨notes, parsed, (Option.some.inj addressed).symm⟩

theorem DetailViewController.saveButtonPressed_eq_some {self after : DetailViewController}
    {userId : String} {write : Option DatabaseWrite}
    (pressed : self.saveButtonPressed (some userId) = some (after, write)) :
    ∃ document, self.document userId = some document ∧
      after = { self with saveButtonIsHidden := true, isEditable := false } ∧
      write = some (.update document [⟨"details", .string self.noteDetailText⟩].toAList) := by
  obtain ⟨document, addressed, returned⟩ := Option.bind_eq_some_iff.mp pressed
  cases returned
  exact ⟨document, addressed, rfl, rfl⟩

theorem DetailViewController.deleteConfirmed_eq_some {self : DetailViewController}
    {userId : String} {write : Option DatabaseWrite}
    (pressed : self.deleteConfirmed (some userId) = some write) :
    ∃ document, self.document userId = some document ∧ write = some (.delete document) := by
  obtain ⟨document, addressed, returned⟩ := Option.bind_eq_some_iff.mp pressed
  cases returned
  exact ⟨document, addressed, rfl⟩

/-- The loop makes one note of each document, after those already cached. -/
theorem appendNotes_eq_some {collection : CollectionReference} {documents : List Document}
    {notes result : List Note} :
    DataSource.appendNotes collection documents notes = some result ↔
      ∃ fresh, documents.map (Note.ofDocument collection) = fresh.map some ∧
        result = notes ++ fresh := by
  induction documents generalizing notes with
  | nil =>
    simp only [DataSource.appendNotes, Option.some.injEq, List.map_nil]
    refine ⟨?_, ?_⟩
    · rintro rfl
      exact ⟨[], rfl, by simp⟩
    · rintro ⟨fresh, listed, rfl⟩
      simp [List.map_eq_nil_iff.mp listed.symm]
  | cons document documents ih =>
    cases made : Note.ofDocument collection document with
    | none =>
      simp only [DataSource.appendNotes, made, Option.bind_eq_bind, Option.bind_none, reduceCtorEq,
        List.map_cons, false_iff, not_exists, not_and]
      intro fresh listed
      cases fresh <;> simp at listed
    | some note =>
      simp only [DataSource.appendNotes, made, Option.bind_eq_bind, Option.bind_some, ih,
        List.map_cons]
      refine ⟨?_, ?_⟩
      · rintro ⟨fresh, listed, rfl⟩
        exact ⟨note :: fresh, by simp [listed], by simp⟩
      · rintro ⟨fresh, listed, rfl⟩
        cases fresh with
        | nil => simp at listed
        | cons first fresh =>
          simp only [List.map_cons, List.cons.injEq, Option.some.injEq] at listed
          obtain ⟨rfl, listed⟩ := listed
          exact ⟨fresh, listed, by simp⟩

/-- The notes of a result are those of its documents, one for one. -/
theorem ids_of_decoded {collection : CollectionReference} {documents : List Document}
    {fresh : List Note} (decoded : documents.map (Note.ofDocument collection) = fresh.map some) :
    fresh.map Note.id = documents.map Document.documentID := by
  induction documents generalizing fresh with
  | nil => simp [List.map_eq_nil_iff.mp decoded.symm]
  | cons document documents ih =>
    cases fresh with
    | nil => simp at decoded
    | cons note fresh =>
      simp only [List.map_cons, List.cons.injEq] at decoded ⊢
      exact ⟨(Note.ofDocument_id decoded.1).1, ih decoded.2⟩

end QuickNote
