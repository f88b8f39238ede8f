import QuickNote.Firestore.Path
import QuickNote.Library.DocumentStore

/-!
# Notes and the documents they are stored as

`Models/Note.swift`, `Models/RegisterUserRequest.swift` and the parts of
Firestore's documents that the app reads and writes.
-/

namespace QuickNote

open Firestore DocumentStore

/-- The value of a document field. -/
inductive FieldValue where
  | null
  | boolean (value : Bool)
  | integer (value : Int)
  | string (value : String)
deriving DecidableEq

/-- `value as! String`; a failing cast traps. -/
def FieldValue.asString : FieldValue → Option String
  | .string value => some value
  | _ => none

abbrev DocumentData := Fields String FieldValue

abbrev Database := Store DocumentReference String FieldValue

abbrev DatabaseWrite := Write DocumentReference String FieldValue

/-- A document in the result of a query (`QueryDocumentSnapshot`). -/
structure Document where
  documentID : DocumentID
  data : DocumentData
deriving DecidableEq

/-- The identifier of a document of the collection. -/
def Firestore.CollectionReference.idOf (self : CollectionReference) (document : DocumentReference) :
    Option DocumentID := do
  let name ← document.path.getLast?
  if plain : document.path.dropLast = self.path ∧ name ≠ "" ∧ '/' ∉ name.toList then
    some ⟨name, plain.2.1, plain.2.2⟩
  else none

/-- The identifier of a document below a path, whether or not the path is accepted as a
collection. -/
def Firestore.DocumentReference.idIn (document : DocumentReference) (path : ResourcePath) :
    Option DocumentID := do
  let name ← document.path.getLast?
  if plain : document.path.dropLast = path ∧ name ≠ "" ∧ '/' ∉ name.toList then
    some ⟨name, plain.2.1, plain.2.2⟩
  else none

/-- The documents of a collection, which a query of it lists in some order. -/
def documentsOf (collection : CollectionReference) (database : Database) : List Document :=
  database.entries.filterMap fun entry =>
    (collection.idOf entry.1).map fun id => ⟨id, entry.2⟩

/-- The fields of a stored note, `["title": …, "details": …, "doc": …]`. -/
def noteData (title details doc : String) : DocumentData :=
  [⟨"title", .string title⟩, ⟨"details", .string details⟩, ⟨"doc", .string doc⟩].toAList

/-- `document.data()[field] as! String`; a missing or ill-typed field traps. -/
def DocumentData.string (data : DocumentData) (field : String) : Option String :=
  (data.lookup field).bind FieldValue.asString

theorem idIn_eq_some {path : ResourcePath} {document : DocumentReference} {id : DocumentID} :
    document.idIn path = some id ↔ document.path = path ++ [id.name] := by
  unfold DocumentReference.idIn
  constructor
  · intro found
    obtain ⟨name, last, found⟩ := Option.bind_eq_some_iff.mp found
    split at found
    · rename_i plain
      cases found
      have nonempty : document.path ≠ [] := by
        intro empty
        simp [empty] at last
      rw [List.getLast?_eq_some_getLast nonempty] at last
      calc document.path = document.path.dropLast ++ [document.path.getLast nonempty] :=
            (List.dropLast_append_getLast nonempty).symm
        _ = path ++ [name] := by rw [plain.1, Option.some.inj last]
    · cases found
  · intro path
    simp [path, id.nonempty, id.noSlash]

theorem idOf_eq_some {self : CollectionReference} {document : DocumentReference}
    {id : DocumentID} :
    self.idOf document = some id ↔ document = self.listed id := by
  have located : self.idOf document = document.idIn self.path := rfl
  rw [located, idIn_eq_some]
  refine ⟨?_, ?_⟩
  · intro path
    exact document_ext path
  · rintro rfl
    exact listed_path self id

/-- The listed documents are those that the database holds in the collection. -/
theorem mem_documentsOf {collection : CollectionReference} {database : Database}
    {document : Document} :
    document ∈ documentsOf collection database ↔
      database.lookup (collection.listed document.documentID) = some document.data := by
  constructor
  · intro member
    obtain ⟨entry, stored, made⟩ := List.mem_filterMap.mp member
    obtain ⟨id, found, rfl⟩ := Option.map_eq_some_iff.mp made
    rw [idOf_eq_some] at found
    rw [← found]
    exact AList.mem_lookup_iff.mpr stored
  · intro found
    refine List.mem_filterMap.mpr ⟨⟨_, _⟩, AList.mem_lookup_iff.mp found, ?_⟩
    rw [idOf_eq_some.mpr rfl]
    rfl

/-- No document is listed twice. -/
theorem nodup_documentsOf (collection : CollectionReference) (database : Database) :
    ((documentsOf collection database).map Document.documentID).Nodup := by
  have ids : (documentsOf collection database).map Document.documentID =
      database.keys.filterMap collection.idOf := by
    simp only [documentsOf, List.map_filterMap, AList.keys, List.keys, List.filterMap_map]
    congr 1
    funext entry
    cases found : collection.idOf entry.1 <;> simp [found]
  rw [ids]
  refine List.Nodup.filterMap ?_ database.keys_nodup
  intro a b id first second
  rw [Option.mem_def, idOf_eq_some] at first second
  rw [first, second]

@[simp] theorem noteData_title (title details doc : String) :
    (noteData title details doc).string "title" = some title := rfl

@[simp] theorem noteData_details (title details doc : String) :
    (noteData title details doc).string "details" = some details := rfl

@[simp] theorem noteData_doc (title details doc : String) :
    (noteData title details doc).string "doc" = some doc := rfl

/-- `Note.swift`.  A `Note` is an object and keeps its identity; `readFrom`, which
the code never reads, is the document that this object was made from. -/
structure Note where
  id : DocumentID
  title : String
  details : String
  doc : String
  readFrom : DocumentReference
deriving DecidableEq

/-- `Note(id: document.documentID, title: document.data()["title"] as! String, …)`
(`DataSource.swift:46`). -/
def Note.ofDocument (collection : CollectionReference) (document : Document) : Option Note := do
  let title ← document.data.string "title"
  let details ← document.data.string "details"
  let doc ← document.data.string "doc"
  return {
    id := document.documentID
    title := title
    details := details
    doc := doc
    readFrom := collection.listed document.documentID }

theorem Note.ofDocument_id {collection : CollectionReference} {document : Document} {note : Note}
    (made : Note.ofDocument collection document = some note) :
    note.id = document.documentID ∧ note.readFrom = collection.listed document.documentID := by
  simp only [Note.ofDocument, Option.bind_eq_bind, Option.bind_eq_some_iff, Option.pure_def,
    Option.some.injEq] at made
  obtain ⟨_, _, _, _, _, _, rfl⟩ := made
  exact ⟨rfl, rfl⟩

/-- `RegisterUserRequest.swift`. -/
structure RegisterUserRequest where
  username : String
  email : String
  password : String
deriving DecidableEq

end QuickNote
