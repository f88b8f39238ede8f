import QuickNote.Foundation.FileURL
import QuickNote.Models

/-!
# The Add sheet

`AddNoteViewController.swift`.  As for the note list, a function that starts an
asynchronous call returns the request, its completion handler is a function of
its own, `Auth.auth().currentUser?.email` is a parameter and `none` is a trap.
-/

namespace QuickNote

open Firestore DocumentStore Foundation

/-- The parts of a `UILabel` that the sheet sets. -/
structure Label where
  text : Option String
  isHidden : Bool
deriving DecidableEq

/-- `AddNoteViewController`, as the storyboard makes it. -/
structure AddNoteViewController where
  titleTextField : Option String := some ""
  detailsTextView : Option String := some ""
  attachmentNameView : Label := { text := some "attachments", isHidden := false }
  pickedDoc : Option String := none
deriving DecidableEq

/-- An upload that a pick starts: the file's bytes, and where they go. -/
structure Upload where
  documentID : String
  filename : String
  doc : Data
deriving DecidableEq

namespace AddNoteViewController

/-- `viewDidLoad` (`AddNoteViewController.swift:24`). -/
def viewDidLoad (self : AddNoteViewController) : AddNoteViewController :=
  { self with attachmentNameView := { self.attachmentNameView with isHidden := true } }

/-- `documentPicker(_:didPickDocumentsAt:)` (`AddNoteViewController.swift:85-99`) up
to `putData`; none when a guard ends it.  `contents` is `Data(contentsOf:)`. -/
def documentPicker (currentUser : Option String) (contents : FileURL → Option Data)
    (urls : List FileURL) : Option Upload := do
  let filenameWithEndBracket := lastPathComponent (describe urls).toList
  let filename := String.ofList filenameWithEndBracket.dropLast
  let url ← urls.head?
  let doc ← contents url
  let userId ← currentUser
  let documentID := "documents/" ++ userId ++ "/" ++ filename
  return { documentID := documentID, filename := filename, doc := doc }

/-- The completion handler of `putData` (`AddNoteViewController.swift:99-108`). -/
def putDataCompletion (self : AddNoteViewController) (upload : Upload) (error : Option String) :
    AddNoteViewController :=
  match error with
  | some _ => self
  | none =>
    { self with
      pickedDoc := some upload.documentID
      attachmentNameView := { text := some upload.filename, isHidden := false } }

/-- `addButtonPressed` (`AddNoteViewController.swift:111-127`) up to `setData`: the
write, none when nobody is signed in. -/
def addButtonPressed (self : AddNoteViewController) (currentUser : Option String)
    (uuid : DocumentID) : Option (Option DatabaseWrite) :=
  match currentUser with
  | none => some none
  | some userId => do
      let users ← collection "users"
      let document ← users.document (userId ++ "/Notes/" ++ uuid.name)
      return some (.set document (noteData (self.titleTextField.getD "")
        (self.detailsTextView.getD "") (self.pickedDoc.getD "")))

/-- The completion handler of `setData` (`AddNoteViewController.swift:127-139`) up
to the reload that its success branch ends with. -/
def setDataCompletion (self : AddNoteViewController) (error : Option String) :
    AddNoteViewController :=
  match error with
  | some _ => self
  | none =>
    { self with
      titleTextField := some ""
      detailsTextView := some ""
      attachmentNameView := { self.attachmentNameView with isHidden := true } }

end AddNoteViewController

/-- What a press of someone signed in stores, and where. -/
theorem AddNoteViewController.addButtonPressed_eq_some {self : AddNoteViewController}
    {userId : String} {uuid : DocumentID} {write : Option DatabaseWrite}
    (pressed : self.addButtonPressed (some userId) uuid = some write) :
    ∃ users document, collection "users" = some users ∧
      users.document (userId ++ "/Notes/" ++ uuid.name) = some document ∧
      write = some (.set document (noteData (self.titleTextField.getD "")
        (self.detailsTextView.getD "") (self.pickedDoc.getD ""))) := by
  simp only [AddNoteViewController.addButtonPressed, Option.bind_eq_bind,
    Option.bind_eq_some_iff, Option.pure_def, Option.some.injEq] at pressed
  obtain ⟨users, parsed, document, addressed, rfl⟩ := pressed
  exact ⟨users, document, parsed, addressed, rfl⟩

/-- The name under which a picked file is stored and shown: its own, encoded. -/
def storedName (url : FileURL) : String :=
  String.ofList (percentEncode url.lastPathComponent.toList)

theorem storedName_injective {a b : FileURL} (same : storedName a = storedName b) :
    a.lastPathComponent = b.lastPathComponent := by
  have encoded := String.ofList_injective same
  exact String.toList_inj.mp (percentEncode_injective encoded)

theorem slash_not_mem_storedName (url : FileURL) : '/' ∉ (storedName url).toList := by
  have clean := slash_not_mem_percentEncode (slash_not_mem_lastPathComponent url.path.toList)
  simpa [storedName, FileURL.lastPathComponent] using clean

theorem storedName_ne_nil (url : FileURL) : (storedName url).toList ≠ [] := by
  intro empty
  have encoded : percentEncode (lastPathComponent url.path.toList) = [] := by
    simpa [storedName, FileURL.lastPathComponent] using empty
  exact lastPathComponent_ne_nil url (percentEncode_injective (b := []) encoded)

/-- What a pick uploads. -/
theorem documentPicker_eq_some {currentUser : Option String} {contents : Option Data}
    {url : FileURL} {upload : Upload}
    (picked : AddNoteViewController.documentPicker currentUser (fun _ => contents) [url] =
      some upload) :
    ∃ userId, currentUser = some userId ∧ contents = some upload.doc ∧
      upload.filename = storedName url ∧
      upload.documentID = "documents/" ++ userId ++ "/" ++ storedName url := by
  have filename : String.ofList (lastPathComponent (describe [url]).toList).dropLast =
      storedName url := by
    rw [lastPathComponent_describe, List.dropLast_concat]
    simp [storedName, FileURL.lastPathComponent]
  simp only [AddNoteViewController.documentPicker, filename, List.head?_cons, Option.bind_eq_bind,
    Option.bind_some, Option.bind_eq_some_iff, Option.pure_def, Option.some.injEq] at picked
  obtain ⟨doc, read, userId, signedIn, rfl⟩ := picked
  exact ⟨userId, signedIn, read, rfl, rfl⟩

/-- A file that can be read is uploaded when somebody is signed in. -/
theorem documentPicker_isSome (userId : String) (doc : Data) (url : FileURL) :
    (AddNoteViewController.documentPicker (some userId) (fun _ => some doc) [url]).isSome := rfl

theorem documentID_ne_empty (userId : String) (url : FileURL) :
    "documents/" ++ userId ++ "/" ++ storedName url ≠ "" := by
  intro empty
  have none := congrArg String.toList empty
  simp at none

/-- The path of an upload ends in the name of its file. -/
theorem lastPathComponent_documentID (userId : String) (url : FileURL) :
    lastPathComponent ("documents/" ++ userId ++ "/" ++ storedName url).toList =
      (storedName url).toList := by
  have shape : ("documents/" ++ userId ++ "/" ++ storedName url).toList =
      ("documents/" ++ userId).toList ++ '/' :: (storedName url).toList := by
    simp
  rw [shape, lastPathComponent_append_slash _ (slash_not_mem_storedName url)]

end QuickNote
