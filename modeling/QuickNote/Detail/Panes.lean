import QuickNote.AddNote.Source
import QuickNote.NoteList.Source

/-!
# The panes of the detail screen

The attachment of a note is downloaded when its detail screen loads, and the suffix of
its path decides which of two panes shows it.  Both panes are visible until the
completion of the download hides one, and the completion returns early when there is
nothing to show; so a pane is left visible and empty exactly when no bytes arrive or
the bytes do not decode.  The Add sheet admits files by their types, whatever the case
of their extensions, while the suffixes are `pdf` and `png` to the letter.
-/

namespace QuickNote.Detail

open Foundation

/-- A view of the screen and the decoded attachment in it. -/
structure Pane (α : Type) where
  isHidden : Bool := false
  content : Option α := none

/-- The panes of `DetailViewController`, as the storyboard makes them. -/
structure Panes (PDF Image : Type) where
  viewForPDF : Pane PDF := {}
  noteImage : Pane Image := {}

/-- `PDFDocument(data:)` and `UIImage(data:)`. -/
structure Decoders (PDF Image : Type) where
  pdfDocument : Data → Option PDF
  uiImage : Data → Option Image

/-- The arguments of a download's completion and `Data(contentsOf:)` at that time. -/
structure Download where
  url : Option FileURL
  error : Option String
  contents : FileURL → Option Data

variable {PDF Image : Type}

/-- `String.hasSuffix(_:)`, scalar by scalar. -/
def hasSuffix (text suffix : String) : Bool := suffix.toList.isSuffixOf text.toList

namespace Panes

def hide (self : Panes PDF Image) : Panes PDF Image :=
  { viewForPDF := { self.viewForPDF with isHidden := true }
    noteImage := { self.noteImage with isHidden := true } }

/-- The attachment part of `viewDidLoad` (`DetailViewController.swift:60-71`): the
panes, and the path whose download begins. -/
def viewDidLoad (self : Panes PDF Image) (note : Note) : Panes PDF Image × Option String :=
  if note.doc ≠ "" then (self, some note.doc) else (self.hide, none)

/-- What the completion does with the bytes of the local file
(`DetailViewController.swift:78-94`). -/
def display (decoders : Decoders PDF Image) (self : Panes PDF Image) (note : Note) (data : Data) :
    Panes PDF Image :=
  if hasSuffix note.doc "pdf" then
    let viewForPDF :=
      match decoders.pdfDocument data with
      | some document => { self.viewForPDF with content := some document }
      | none => self.viewForPDF
    { viewForPDF := { viewForPDF with isHidden := false }
      noteImage := { self.noteImage with isHidden := true } }
  else if hasSuffix note.doc "png" then
    { noteImage := { content := decoders.uiImage data, isHidden := false }
      viewForPDF := { self.viewForPDF with isHidden := true } }
  else self.hide

/-- The completion handler of the download (`DetailViewController.swift:72-95`). -/
def writeCompletion (decoders : Decoders PDF Image) (self : Panes PDF Image) (note : Note)
    (download : Download) : Panes PDF Image :=
  match download.error with
  | some _ => self
  | none =>
    match download.url with
    | none => self
    | some url =>
      match download.contents url with
      | none => self
      | some data => self.display decoders note data

end Panes

/-- The panes once `viewDidLoad` and the completion, if there is one, have finished. -/
def finished (decoders : Decoders PDF Image) (note : Note) (download : Download) :
    Panes PDF Image :=
  match Panes.viewDidLoad {} note with
  | (panes, some _) => panes.writeCompletion decoders note download
  | (panes, none) => panes

/-- The pane is visible exactly when it shows something decoded. -/
def Pane.Right {α : Type} (self : Pane α) : Prop := self.isHidden = false ↔ self.content.isSome

def Panes.Right (self : Panes PDF Image) : Prop := self.viewForPDF.Right ∧ self.noteImage.Right

/-- The bytes that a download brings. -/
def Download.data (self : Download) : Option Data :=
  match self.error with
  | some _ => none
  | none => self.url.bind self.contents

/-- There is no attachment, or its bytes arrive and decode as what the suffix of its
path says. -/
def Displayable (decoders : Decoders PDF Image) (note : Note) (download : Download) : Prop :=
  note.doc = "" ∨ ∃ data ∈ download.data,
    (hasSuffix note.doc "pdf" → (decoders.pdfDocument data).isSome) ∧
      (¬ hasSuffix note.doc "pdf" → hasSuffix note.doc "png" → (decoders.uiImage data).isSome)

/-! ## Both panes -/

theorem hasSuffix_iff {text suffix : String} :
    hasSuffix text suffix = true ↔ suffix.toList <:+ text.toList :=
  List.isSuffixOf_iff_suffix

/-- A path cannot end in both suffixes. -/
theorem not_png_of_pdf {text : String} (pdf : hasSuffix text "pdf") : ¬ hasSuffix text "png" := by
  intro png
  rw [hasSuffix_iff] at pdf png
  have length : "pdf".toList.length = "png".toList.length := by decide
  have same : "pdf".toList = "png".toList := by
    rcases List.suffix_or_suffix_of_suffix pdf png with shorter | shorter
    · exact shorter.eq_of_length length
    · exact (shorter.eq_of_length length.symm).symm
  exact absurd same (by decide)

theorem finished_of_empty {note : Note} (empty : note.doc = "") (decoders : Decoders PDF Image)
    (download : Download) : finished decoders note download = Panes.hide {} := by
  simp [finished, Panes.viewDidLoad, empty]

/-- With an attachment, what the bytes of the download leave. -/
theorem finished_of_attached {note : Note} (attached : note.doc ≠ "")
    (decoders : Decoders PDF Image) (download : Download) :
    finished decoders note download =
      match download.data with
      | some data => Panes.display decoders {} note data
      | none => {} := by
  obtain ⟨url, error, contents⟩ := download
  simp only [finished, Panes.viewDidLoad, if_pos attached, Panes.writeCompletion, Download.data]
  cases error with
  | some message => rfl
  | none =>
    cases url with
    | none => rfl
    | some url =>
      cases read : contents url with
      | none => simp [read]
      | some data => simp [read]

/-- The bytes leave both panes right exactly when they decode as the suffix says. -/
theorem right_display_iff (decoders : Decoders PDF Image) (note : Note) (data : Data) :
    (Panes.display decoders {} note data).Right ↔
      (hasSuffix note.doc "pdf" → (decoders.pdfDocument data).isSome) ∧
        (¬ hasSuffix note.doc "pdf" → hasSuffix note.doc "png" →
          (decoders.uiImage data).isSome) := by
  unfold Panes.display
  by_cases pdf : hasSuffix note.doc "pdf"
  · cases decoded : decoders.pdfDocument data <;> simp [pdf, Panes.Right, Pane.Right]
  · by_cases png : hasSuffix note.doc "png"
    · simp [pdf, png, Panes.Right, Pane.Right]
    · simp [pdf, png, Panes.Right, Pane.Right, Panes.hide]

/-- Both panes end up right exactly when there is no attachment or it is displayable. -/
theorem right_finished_iff (decoders : Decoders PDF Image) (note : Note) (download : Download) :
    (finished decoders note download).Right ↔ Displayable decoders note download := by
  unfold Displayable
  by_cases empty : note.doc = ""
  · rw [finished_of_empty empty]
    exact iff_of_true (by simp [Panes.Right, Pane.Right, Panes.hide]) (Or.inl empty)
  · rw [finished_of_attached empty]
    cases arrived : download.data with
    | none => simp [empty, Panes.Right, Pane.Right]
    | some data => simpa [empty] using right_display_iff decoders note data

/-! ## What the Add sheet admits -/

/-- The two types of `supportedTypes` (`AddNoteViewController.swift:77`). -/
inductive Kind where
  | pdf
  | image
deriving DecidableEq

def Decoders.Decodes (self : Decoders PDF Image) (data : Data) : Kind → Prop
  | .pdf => (self.pdfDocument data).isSome
  | .image => (self.uiImage data).isSome

/-- The bytes are shown in the pane of their kind. -/
def Panes.Shows (self : Panes PDF Image) (decoders : Decoders PDF Image) (data : Data) : Kind → Prop
  | .pdf => self.viewForPDF.isHidden = false ∧ self.viewForPDF.content = decoders.pdfDocument data
  | .image => self.noteImage.isHidden = false ∧ self.noteImage.content = decoders.uiImage data

/-- The suffix of the paths that the detail screen takes for the kind. -/
def Kind.suffix : Kind → String
  | .pdf => "pdf"
  | .image => "png"

/-- The picker admits the file as one of the kind, and its bytes decode so.
`conforms` says which extensions denote types of a kind. -/
def Admitted (conforms : String → Kind → Prop) (decoders : Decoders PDF Image) (url : FileURL)
    (data : Data) (kind : Kind) : Prop :=
  conforms (lowercased url.pathExtension) kind ∧ decoders.Decodes data kind

/-- A note with the file as its attachment shows it in the pane of its kind when the
download brings its bytes. -/
def ShownAs (decoders : Decoders PDF Image) (url : FileURL) (data : Data) (kind : Kind) : Prop :=
  ∀ (userId : String) (upload : Upload) (note : Note) (download : Download),
    AddNoteViewController.documentPicker (some userId) (fun _ => some data) [url] = some upload →
      note.doc = upload.documentID → download.data = some data →
        (finished decoders note download).Shows decoders data kind

/-- The path of an upload ends in a suffix exactly when the file's own name does. -/
theorem hasSuffix_documentID (userId : String) (url : FileURL) (kind : Kind) :
    hasSuffix ("documents/" ++ userId ++ "/" ++ storedName url) kind.suffix ↔
      hasSuffix url.lastPathComponent kind.suffix := by
  have plain : ∀ c ∈ kind.suffix.toList, urlPathAllowed c = true ∧ ∀ n < 16, c ≠ hexDigit n := by
    intro c member
    cases kind with
    | pdf =>
      have letter : c = 'p' ∨ c = 'd' ∨ c = 'f' := by simpa [Kind.suffix] using member
      rcases letter with rfl | rfl | rfl <;> decide
    | image =>
      have letter : c = 'p' ∨ c = 'n' ∨ c = 'g' := by simpa [Kind.suffix] using member
      rcases letter with rfl | rfl | rfl <;> decide
  have noSlash : '/' ∉ kind.suffix.toList := by
    cases kind with
    | pdf => decide
    | image => decide
  have shape : ("documents/" ++ userId ++ "/" ++ storedName url).toList =
      ("documents/" ++ userId).toList ++ '/' :: (storedName url).toList := by
    simp
  rw [hasSuffix_iff, hasSuffix_iff, shape, suffix_append_slash_iff noSlash, storedName,
    String.toList_ofList, suffix_percentEncode_iff plain]

/-- Bytes that decode are shown in the pane of their kind exactly when the path has its
suffix. -/
theorem shows_display_iff {decoders : Decoders PDF Image} {data : Data} {kind : Kind}
    (decodes : decoders.Decodes data kind) (note : Note) :
    (Panes.display decoders {} note data).Shows decoders data kind ↔
      hasSuffix note.doc kind.suffix := by
  unfold Panes.display
  cases kind with
  | pdf =>
    obtain ⟨document, decoded⟩ := Option.isSome_iff_exists.mp decodes
    by_cases pdf : hasSuffix note.doc "pdf"
    · simp [pdf, decoded, Panes.Shows, Kind.suffix]
    · by_cases png : hasSuffix note.doc "png"
      · simp [pdf, png, Panes.Shows, Kind.suffix]
      · simp [pdf, png, Panes.Shows, Panes.hide, Kind.suffix]
  | image =>
    by_cases pdf : hasSuffix note.doc "pdf"
    · simp [pdf, not_png_of_pdf pdf, Panes.Shows, Kind.suffix]
    · by_cases png : hasSuffix note.doc "png"
      · simp [pdf, png, Panes.Shows, Kind.suffix]
      · simp [pdf, png, Panes.Shows, Panes.hide, Kind.suffix]

def emptyNote : Note where
  id := ⟨"n", by decide, by decide⟩
  title := ""
  details := ""
  doc := ""
  readFrom := ⟨["users", "ann@mail.org", "Notes", "n"], rfl⟩

/-- A file is shown in the pane of its kind exactly when its name ends in the suffix of
the kind. -/
theorem shownAs_iff {decoders : Decoders PDF Image} {url : FileURL} {data : Data} {kind : Kind}
    (decodes : decoders.Decodes data kind) :
    ShownAs decoders url data kind ↔ hasSuffix url.lastPathComponent kind.suffix := by
  have attached : ∀ {userId : String} {note : Note} {download : Download},
      note.doc = "documents/" ++ userId ++ "/" ++ storedName url → download.data = some data →
        ((finished decoders note download).Shows decoders data kind ↔
          hasSuffix url.lastPathComponent kind.suffix) := by
    intro userId note download stored arrived
    have given : note.doc ≠ "" := stored ▸ documentID_ne_empty userId url
    rw [finished_of_attached given, arrived]
    simp only [shows_display_iff decodes, stored, hasSuffix_documentID]
  constructor
  · intro shown
    obtain ⟨upload, picked⟩ := Option.isSome_iff_exists.mp (documentPicker_isSome "" data url)
    obtain ⟨owner, _, _, _, documentID⟩ := documentPicker_eq_some picked
    let note : Note := { emptyNote with doc := upload.documentID }
    let download : Download := { url := some url, error := none, contents := fun _ => some data }
    exact (attached documentID rfl).mp (shown "" upload note download picked rfl rfl)
  · intro suffix userId upload note download picked stored arrived
    obtain ⟨owner, _, _, _, documentID⟩ := documentPicker_eq_some picked
    exact (attached (stored.trans documentID) arrived).mpr suffix

/-- Whatever the outcome of the download, both panes end up right if and only if the
attachment is displayable; and a file that the picker admits is shown in the pane of its
kind if and only if its name ends in `pdf` or `png`, as the kind has it. -/
theorem panes_iff (decoders : Decoders PDF Image) (conforms : String → Kind → Prop) (note : Note)
    (download : Download) (url : FileURL) (data : Data) :
    ((finished decoders note download).Right ↔ Displayable decoders note download) ∧
      ((∀ kind, Admitted conforms decoders url data kind → ShownAs decoders url data kind) ↔
        ∀ kind, Admitted conforms decoders url data kind →
          hasSuffix url.lastPathComponent kind.suffix) := by
  refine ⟨right_finished_iff decoders note download, ?_⟩
  exact forall₂_congr fun kind admitted => shownAs_iff admitted.2

/-- Decoders that go by the first bytes. -/
def signatures : Decoders Data Data where
  pdfDocument := fun data => if [0x25, 0x50, 0x44, 0x46] <+: data then some data else none
  uiImage := fun data =>
    if [0x89, 0x50, 0x4E, 0x47] <+: data ∨ [0xFF, 0xD8, 0xFF] <+: data then some data else none

def extensions (extension : String) : Kind → Prop
  | .pdf => extension = "pdf"
  | .image => extension ∈ ["png", "jpg", "jpeg"]

def photo : FileURL := { path := "/files/photo.JPG", absolute := rfl, file := by decide }

def photoNote : Note := { emptyNote with doc := "documents/ann@mail.org/photo.JPG" }

/-- A failed download leaves both panes visible and empty, and a photo that the picker
admits is never shown. -/
theorem photo_not_shown :
    ¬ (finished signatures photoNote ⟨none, some "object-not-found", fun _ => none⟩).Right ∧
      ¬ (Admitted extensions signatures photo [0xFF, 0xD8, 0xFF] .image →
        ShownAs signatures photo [0xFF, 0xD8, 0xFF] .image) := by
  refine ⟨?_, ?_⟩
  · intro right
    exact absurd (right.1.mp rfl) (by decide)
  · intro shown
    have admitted : Admitted extensions signatures photo [0xFF, 0xD8, 0xFF] .image := by
      refine ⟨?_, rfl⟩
      show lowercased photo.pathExtension ∈ ["png", "jpg", "jpeg"]
      decide
    have ends := (shownAs_iff admitted.2).mp (shown admitted)
    exact absurd ends (by decide)

end QuickNote.Detail
