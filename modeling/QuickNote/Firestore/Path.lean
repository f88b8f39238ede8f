import QuickNote.Library.Segments
import Mathlib.Data.Option.Basic

/-!
# Firestore paths

Path strings as the Firestore client reads them: `ResourcePath::FromStringView`
(`core/src/model/resource_path.cc`), the parity checks of `CollectionReference`
and `DocumentReference` (`core/src/api`) and the emptiness checks of the
Objective-C layer in front of them.  Where the client throws
`ThrowInvalidArgument` the result is `none`: nothing catches the exception, so
the process ends there.
-/

namespace QuickNote.Firestore

open Segments

abbrev ResourcePath := List String

/-- The non-empty segments of a path string, `absl::StrSplit` with `SkipEmpty`. -/
def segmentsOf (path : String) : ResourcePath :=
  (segments '/' path.toList).map String.ofList

/-- `ResourcePath::FromStringView` (`resource_path.cc:36-51`). -/
def ResourcePath.fromString (path : String) : Option ResourcePath :=
  if ['/', '/'] <:+: path.toList then none else some (segmentsOf path)

/-- A collection path; `MakeQuery` (`collection_reference.cc:39`) refuses an even
number of segments. -/
structure CollectionReference where
  path : ResourcePath
  odd : path.length % 2 = 1
deriving DecidableEq

/-- A document path; the constructor (`document_reference.cc:61`) refuses an odd
number of segments. -/
structure DocumentReference where
  path : ResourcePath
  even : path.length % 2 = 0
deriving DecidableEq

/-- `Firestore.collection(_:)`. -/
def collection (collectionPath : String) : Option CollectionReference :=
  if collectionPath = "" then none
  else do
    let path ← ResourcePath.fromString collectionPath
    if odd : path.length % 2 = 1 then some ⟨path, odd⟩ else none

/-- `CollectionReference.document(_:)`. -/
def CollectionReference.document (self : CollectionReference) (documentPath : String) :
    Option DocumentReference :=
  if documentPath = "" then none
  else do
    let sub ← ResourcePath.fromString documentPath
    if even : (self.path ++ sub).length % 2 = 0 then some ⟨self.path ++ sub, even⟩ else none

/-- The last segment of a document's path, as `documentID` of a listed document
and `UUID().uuidString` are. -/
structure DocumentID where
  name : String
  nonempty : name ≠ ""
  noSlash : '/' ∉ name.toList
deriving DecidableEq

/-- The reference of a document that a query of the collection lists. -/
def CollectionReference.listed (self : CollectionReference) (id : DocumentID) :
    DocumentReference :=
  ⟨self.path ++ [id.name], by have := self.odd; simp; omega⟩

/-- A reference is its path. -/
theorem document_ext {a b : DocumentReference} (paths : a.path = b.path) : a = b := by
  cases a
  cases b
  simpa using paths

theorem DocumentID.noPair (id : DocumentID) : ¬ ['/', '/'] <:+: id.name.toList :=
  fun inside => id.noSlash (inside.subset (by simp))

@[simp] theorem listed_path (self : CollectionReference) (id : DocumentID) :
    (self.listed id).path = self.path ++ [id.name] := rfl

theorem listed_injective {a b : CollectionReference} {id : DocumentID}
    (same : a.listed id = b.listed id) : a = b := by
  have paths : a.path ++ [id.name] = b.path ++ [id.name] := congrArg (·.path) same
  cases a
  cases b
  simpa using paths

theorem segmentsOf_of_noSlash {name : String} (nonempty : name ≠ "")
    (noSlash : '/' ∉ name.toList) : segmentsOf name = [name] := by
  have full : name.toList ≠ [] := by simpa using nonempty
  simp [segmentsOf, segments_of_not_mem full noSlash]

theorem segmentsOf_append_slash (a b : String) :
    segmentsOf (a ++ "/" ++ b) = segmentsOf a ++ segmentsOf b := by
  have shape : (a ++ "/" ++ b).toList = a.toList ++ '/' :: b.toList := by simp
  simp [segmentsOf, shape, segments_append_cons]

/-- What comes of the segments of an accepted path string. -/
theorem bind_fromString_eq_some {α : Type} {path : String} {f : ResourcePath → Option α} {a : α} :
    (ResourcePath.fromString path).bind f = some a ↔
      ¬ ['/', '/'] <:+: path.toList ∧ f (segmentsOf path) = some a := by
  unfold ResourcePath.fromString
  by_cases pair : ['/', '/'] <:+: path.toList
  · simp [pair]
  · simp [pair]

/-- Which collection path strings are accepted, and as what. -/
theorem collection_eq_some_iff {collectionPath : String} {reference : CollectionReference} :
    collection collectionPath = some reference ↔ collectionPath ≠ "" ∧
      ¬ ['/', '/'] <:+: collectionPath.toList ∧ reference.path = segmentsOf collectionPath := by
  unfold collection
  by_cases empty : collectionPath = ""
  · simp [empty]
  · rw [if_neg empty, Option.bind_eq_bind, bind_fromString_eq_some, and_iff_right empty]
    refine and_congr_right fun _ => ?_
    obtain ⟨path, odd⟩ := reference
    rw [Option.dite_none_right_eq_some]
    refine ⟨?_, ?_⟩
    · rintro ⟨_, same⟩
      exact (congrArg (·.path) (Option.some.inj same)).symm
    · rintro rfl
      exact ⟨odd, rfl⟩

/-- What an accepted collection path string says. -/
theorem collection_eq_some {collectionPath : String} {reference : CollectionReference}
    (found : collection collectionPath = some reference) :
    ¬ ['/', '/'] <:+: collectionPath.toList ∧ reference.path = segmentsOf collectionPath :=
  (collection_eq_some_iff.mp found).2

/-- Which document path strings are accepted, and as what. -/
theorem document_eq_some_iff {self : CollectionReference} {documentPath : String}
    {reference : DocumentReference} :
    self.document documentPath = some reference ↔ documentPath ≠ "" ∧
      ¬ ['/', '/'] <:+: documentPath.toList ∧
      reference.path = self.path ++ segmentsOf documentPath := by
  unfold CollectionReference.document
  by_cases empty : documentPath = ""
  · simp [empty]
  · rw [if_neg empty, Option.bind_eq_bind, bind_fromString_eq_some, and_iff_right empty]
    refine and_congr_right fun _ => ?_
    obtain ⟨path, even⟩ := reference
    rw [Option.dite_none_right_eq_some]
    refine ⟨?_, ?_⟩
    · rintro ⟨_, same⟩
      exact (congrArg (·.path) (Option.some.inj same)).symm
    · rintro rfl
      exact ⟨even, rfl⟩

/-- What an accepted document path string says. -/
theorem document_eq_some {self : CollectionReference} {documentPath : String}
    {reference : DocumentReference} (found : self.document documentPath = some reference) :
    ¬ ['/', '/'] <:+: documentPath.toList ∧
      reference.path = self.path ++ segmentsOf documentPath :=
  (document_eq_some_iff.mp found).2

/-- Addressing a listed document by its identifier gives its own reference. -/
theorem document_name (self : CollectionReference) (id : DocumentID) :
    self.document id.name = some (self.listed id) := by
  refine document_eq_some_iff.mpr ⟨id.nonempty, id.noPair, ?_⟩
  rw [listed_path, segmentsOf_of_noSlash id.nonempty id.noSlash]

/-- `"users/\(userId)/Notes"`, the path of an account's notes. -/
def notesPath (userId : String) : String := "users/" ++ userId ++ "/Notes"

theorem segmentsOf_users : segmentsOf "users" = ["users"] :=
  segmentsOf_of_noSlash (by decide) (by decide)

theorem segmentsOf_notes : segmentsOf "Notes" = ["Notes"] :=
  segmentsOf_of_noSlash (by decide) (by decide)

theorem path_of_users {users : CollectionReference} (parsed : collection "users" = some users) :
    users.path = ["users"] := by
  rw [(collection_eq_some parsed).2, segmentsOf_users]

theorem segmentsOf_notesPath (userId : String) :
    segmentsOf (notesPath userId) = "users" :: segmentsOf userId ++ ["Notes"] := by
  have shape : notesPath userId = "users" ++ "/" ++ userId ++ "/" ++ "Notes" := by
    simp [notesPath, String.append_assoc]
  rw [shape, segmentsOf_append_slash, segmentsOf_append_slash, segmentsOf_users, segmentsOf_notes]
  rfl

theorem segmentsOf_note (userId : String) (id : DocumentID) :
    "users" :: segmentsOf (userId ++ "/Notes/" ++ id.name) =
      segmentsOf (notesPath userId) ++ [id.name] := by
  have shape : userId ++ "/Notes/" ++ id.name = userId ++ "/" ++ "Notes" ++ "/" ++ id.name := by
    simp [String.append_assoc]
  rw [shape, segmentsOf_append_slash, segmentsOf_append_slash, segmentsOf_notesPath,
    segmentsOf_notes, segmentsOf_of_noSlash id.nonempty id.noSlash]
  simp

/-- Whatever `"\(userId)/Notes/\(uuid)"` addresses below `users` lies where the notes
of the account do. -/
theorem path_of_note {userId : String} {users : CollectionReference} {id : DocumentID}
    {reference : DocumentReference} (parsed : collection "users" = some users)
    (found : users.document (userId ++ "/Notes/" ++ id.name) = some reference) :
    reference.path = segmentsOf (notesPath userId) ++ [id.name] := by
  rw [(document_eq_some found).2, path_of_users parsed, ← segmentsOf_note]
  rfl

theorem note_ne_empty (userId : String) (id : DocumentID) :
    userId ++ "/Notes/" ++ id.name ≠ "" := by
  intro empty
  have none := congrArg String.toList empty
  simp at none

theorem notesPath_ne_empty (userId : String) : notesPath userId ≠ "" := by
  intro empty
  have none := congrArg String.toList empty
  simp [notesPath] at none

/-- The path of a note below `users` has adjacent slashes where its address has, or
after an address that ends in one. -/
theorem pair_infix_note (userId : String) (id : DocumentID) :
    ['/', '/'] <:+: (userId ++ "/Notes/" ++ id.name).toList ↔
      ['/', '/'] <:+: userId.toList ∨ userId.toList.getLast? = some '/' := by
  have first : id.name.toList.head? ≠ some '/' :=
    fun lead => id.noSlash (List.mem_of_head? lead)
  simp [pair_infix_append, pair_infix_cons, first, id.noPair]

/-- Behind `users/` also a slash that the address begins with is adjacent to
another. -/
theorem pair_infix_notesPath {userId : String} (given : userId ≠ "") :
    ['/', '/'] <:+: (notesPath userId).toList ↔ userId.toList.head? = some '/' ∨
      ['/', '/'] <:+: userId.toList ∨ userId.toList.getLast? = some '/' := by
  have full : userId.toList ≠ [] := by simpa using given
  simp [notesPath, pair_infix_append, pair_infix_cons, List.head?_append_of_ne_nil _ full]

/-- The notes of different accounts are in different collections. -/
theorem notesPath_injective {a b : String} {reference : CollectionReference}
    (ha : collection (notesPath a) = some reference)
    (hb : collection (notesPath b) = some reference) : a = b := by
  have clean : ∀ {e : String}, collection (notesPath e) = some reference →
      Clean '/' (notesPath e).toList := by
    intro e found
    have shape : (notesPath e).toList =
        'u' :: ("sers/".toList ++ e.toList ++ "/Note".toList ++ ['s']) := by
      simp [notesPath]
    refine ⟨?_, ?_, (collection_eq_some found).1⟩
    · rw [shape]
      simp
    · rw [shape, ← List.cons_append, List.getLast?_concat]
      simp
  have same : segments '/' (notesPath a).toList = segments '/' (notesPath b).toList := by
    have paths := (collection_eq_some ha).2.symm.trans (collection_eq_some hb).2
    exact List.map_injective_iff.mpr (fun _ _ => String.ofList_injective) paths
  have equal := segments_injective (clean ha) (clean hb) same
  apply String.toList_inj.mp
  simpa [notesPath] using equal

end QuickNote.Firestore
