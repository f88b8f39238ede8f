import QuickNote.AddNote.Source

/-!
# The name of a picked file

`documentPicker` cuts the file name out of the description of the URL list, which
holds the URL as it is encoded.  So the label and the storage path carry the name
that the user picked exactly when encoding leaves it alone.
-/

namespace QuickNote.AddNote

open Foundation

/-- Whenever the file is picked, its own name is the extracted one, the last part of the
storage path and the text of the label after the upload. -/
def NameKept (url : FileURL) : Prop :=
  ∀ (userId : String) (doc : Data) (sheet : AddNoteViewController), ∃ upload,
    AddNoteViewController.documentPicker (some userId) (fun _ => some doc) [url] = some upload ∧
      upload.filename = url.lastPathComponent ∧
      upload.documentID = "documents/" ++ userId ++ "/" ++ url.lastPathComponent ∧
      (sheet.putDataCompletion upload none).attachmentNameView.text = some url.lastPathComponent

/-- The name of a picked file is kept exactly when a URL carries all of its characters
unencoded. -/
theorem nameKept_iff (url : FileURL) :
    NameKept url ↔ ∀ c ∈ url.lastPathComponent.toList, urlPathAllowed c = true := by
  have plain : storedName url = url.lastPathComponent ↔
      ∀ c ∈ url.lastPathComponent.toList, urlPathAllowed c = true := by
    rw [← percentEncode_eq_self_iff, ← String.toList_inj, storedName, String.toList_ofList]
  rw [← plain]
  constructor
  · intro kept
    obtain ⟨upload, picked, filename, _⟩ := kept "" [] {}
    obtain ⟨_, _, _, stored, _⟩ := documentPicker_eq_some picked
    exact stored.symm.trans filename
  · intro same userId doc sheet
    obtain ⟨upload, picked⟩ := Option.isSome_iff_exists.mp (documentPicker_isSome userId doc url)
    obtain ⟨owner, signedIn, _, filename, documentID⟩ := documentPicker_eq_some picked
    obtain rfl : userId = owner := Option.some.inj signedIn
    rw [same] at filename documentID
    exact ⟨upload, picked, filename, documentID, congrArg some filename⟩

def spacedName : FileURL := { path := "/files/my file.pdf", absolute := rfl, file := by decide }

/-- The space arrives as an escape. -/
theorem spacedName_not_kept : ¬ NameKept spacedName := by
  intro kept
  obtain ⟨upload, picked, filename, _⟩ := kept "ann@mail.org" [1] {}
  obtain ⟨_, _, _, stored, _⟩ := documentPicker_eq_some picked
  exact absurd (stored.symm.trans filename) (by decide)

end QuickNote.AddNote
