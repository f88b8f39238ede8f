import QuickNote.AddNote.Sheet
import QuickNote.Storage.Path
import Mathlib.Data.List.AList

/-!
# Attachments in storage

Any number of Add sheets, of any accounts and devices, over one storage bucket.
An upload replaces the object at its path some time before it completes
successfully; a note names the path of its attachment from the press on, until it
is removed.  The path of an upload is made of the account and the file's name, so
two files of one name share an object, and a note keeps its bytes exactly until
other bytes go there.

`StoredNote.attachment` and `World.applied` are records of the schedule.
-/

namespace QuickNote.Storage

open Firestore AddNote Foundation Segments

/-- A note that exists: its `doc` field and the upload whose completion set it. -/
structure StoredNote where
  doc : String
  attachment : Option Upload
deriving DecidableEq

structure World where
  sheets : List Sheet := []
  /-- The uploads, by sheet and pick, that have reached the bucket. -/
  applied : List (Nat × Nat) := []
  objects : AList fun _ : Option String => Data := ∅
  notes : List StoredNote := []

inductive Event where
  | sheetOpened
  | sheet (i : Nat) (event : AddNote.Event)
  | putDataApplied (i pick : Nat)
  /-- The note is deleted, or its write refused. -/
  | noteRemoved (note : Nat)
deriving DecidableEq

namespace World

/-- What `storageref.child(note.doc)` downloads (`DetailViewController.swift:64`). -/
def download (w : World) (doc : String) : Option Data := w.objects.lookup (child doc)

/-- An upload completes successfully only after it has reached the bucket. -/
def mayHappen (w : World) (i : Nat) : AddNote.Event → Prop
  | .putDataCompleted k none => (i, k) ∈ w.applied
  | _ => True

instance (w : World) (i : Nat) (e : AddNote.Event) : Decidable (w.mayHappen i e) := by
  unfold mayHappen
  split <;> infer_instance

def storedNote (made : Created) : StoredNote :=
  { doc := (storedField made.write "doc").getD "", attachment := made.attachment }

/-- An event of one sheet; the notes it creates exist from then on. -/
def sheetEvent (w : World) (i : Nat) (e : AddNote.Event) : Option World := do
  let sheet ← w.sheets[i]?
  if w.mayHappen i e then
    let after ← AddNote.step sheet e
    return { w with
      sheets := w.sheets.set i after
      notes := w.notes ++ (after.created.drop sheet.created.length).map storedNote }
  else none

/-- `putData` replaces the object that the path names. -/
def putDataApplied (w : World) (i k : Nat) : Option World := do
  let sheet ← w.sheets[i]?
  let pick ← sheet.picks[k]?
  if k ∈ sheet.uploading ∧ (i, k) ∉ w.applied then
    some { w with
      applied := w.applied ++ [(i, k)]
      objects := w.objects.insert (child pick.upload.documentID) pick.upload.doc }
  else none

end World

def step (w : World) : Event → Option World
  | .sheetOpened => some { w with sheets := w.sheets ++ [AddNote.system.init] }
  | .sheet i e => w.sheetEvent i e
  | .putDataApplied i k => w.putDataApplied i k
  | .noteRemoved n =>
      if n < w.notes.length then some { w with notes := w.notes.eraseIdx n } else none

/-- An empty bucket, and no sheet yet. -/
def system : EventSystem World Event where
  init := {}
  step := step

/-- A note with an attachment finds the bytes of the upload that set it. -/
def AttachmentsIntact (w : World) : Prop :=
  ∀ note ∈ w.notes, note.doc ≠ "" →
    ∃ upload ∈ note.attachment, upload.documentID = note.doc ∧
      w.download note.doc = some upload.doc

/-- An upload reaches the bucket only if every existing note whose attachment lies
at the same object was given the same bytes, and Add is pressed only while the
object of the sheet's attachment holds the bytes that were uploaded for it. -/
def ObjectKept (w : World) (e : Event) (_ : World) : Prop :=
  match e with
  | .putDataApplied i k =>
      ∀ sheet ∈ w.sheets[i]?, ∀ pick ∈ sheet.picks[k]?, ∀ note ∈ w.notes,
        ∀ upload ∈ note.attachment,
          child upload.documentID = child pick.upload.documentID → upload.doc = pick.upload.doc
  | .sheet i (.addButtonPressed (some _) _) =>
      ∀ sheet ∈ w.sheets[i]?, ∀ latest ∈ sheet.latest,
        w.download latest.upload.documentID = some latest.upload.doc
  | _ => True

instance : DecidablePred AttachmentsIntact := by
  intro w
  unfold AttachmentsIntact
  infer_instance

/-- Every sheet has been run by its own events, and every note names the path of
its attachment. -/
structure World.Consistent (w : World) : Prop where
  sheets : ∀ sheet ∈ w.sheets, AddNote.system.Reachable sheet
  named : ∀ note ∈ w.notes, note.doc = (note.attachment.map Upload.documentID).getD ""
  uploads : ∀ note ∈ w.notes, ∀ upload ∈ note.attachment, upload.documentID ≠ ""

/-- Only a press creates a note, and its attachment is the upload of the sheet that
has completed last. -/
theorem created_cases {sheet after : Sheet} {e : AddNote.Event}
    (reachable : AddNote.system.Reachable sheet) (taken : AddNote.step sheet e = some after) :
    (after.created.drop sheet.created.length = [] ∧
        ∀ user uuid, e ≠ .addButtonPressed (some user) uuid) ∨
      ∃ user uuid, e = .addButtonPressed (some user) uuid ∧
        (after.created.drop sheet.created.length).map World.storedNote =
          [⟨((sheet.latest.map Pick.upload).map Upload.documentID).getD "",
            sheet.latest.map Pick.upload⟩] := by
  have consistent := AddNote.consistent reachable
  cases AddNote.step_cases taken with
  | created userId uuid document =>
    right
    refine ⟨userId, uuid, rfl, ?_⟩
    have doc : sheet.controller.pickedDoc =
        (sheet.latest.map Pick.upload).map Upload.documentID := by
      rw [consistent.picked, Option.map_map]
      rfl
    rw [List.drop_left]
    simp [World.storedNote, storedField, doc]
  | _ => exact Or.inl ⟨List.drop_length, by simp⟩

/-- The completed upload of a sheet has a path of its own. -/
theorem latest_ne_empty {sheet : Sheet} (reachable : AddNote.system.Reachable sheet) :
    ∀ latest ∈ sheet.latest, latest.upload.documentID ≠ "" := by
  intro latest found
  obtain ⟨k, _, made⟩ := Option.bind_eq_some_iff.mp found
  obtain ⟨userId, _, documentID⟩ :=
    (AddNote.consistent reachable).origin latest (List.mem_of_getElem? made)
  rw [documentID]
  exact documentID_ne_empty userId latest.url

/-- Everything one step can do. -/
inductive Taken (w : World) : Event → World → Prop where
  | sheetOpened : Taken w .sheetOpened { w with sheets := w.sheets ++ [AddNote.system.init] }
  | sheet (i : Nat) (e : AddNote.Event) (before after : Sheet)
      (found : w.sheets[i]? = some before) (taken : AddNote.step before e = some after) :
      Taken w (.sheet i e) { w with
        sheets := w.sheets.set i after
        notes := w.notes ++ (after.created.drop before.created.length).map World.storedNote }
  | putDataApplied (i k : Nat) (sheet : Sheet) (pick : Pick) (found : w.sheets[i]? = some sheet)
      (picked : sheet.picks[k]? = some pick) :
      Taken w (.putDataApplied i k) { w with
        applied := w.applied ++ [(i, k)]
        objects := w.objects.insert (child pick.upload.documentID) pick.upload.doc }
  | noteRemoved (n : Nat) : Taken w (.noteRemoved n) { w with notes := w.notes.eraseIdx n }

theorem step_cases {w t : World} {e : Event} (taken : step w e = some t) : Taken w e t := by
  cases e with
  | sheetOpened =>
    cases taken
    exact .sheetOpened
  | sheet i e =>
    obtain ⟨before, found, taken⟩ := Option.bind_eq_some_iff.mp taken
    by_cases may : w.mayHappen i e
    · rw [if_pos may] at taken
      obtain ⟨after, ran, taken⟩ := Option.bind_eq_some_iff.mp taken
      cases taken
      exact .sheet i e before after found ran
    · rw [if_neg may] at taken
      cases taken
  | putDataApplied i k =>
    obtain ⟨sheet, found, taken⟩ := Option.bind_eq_some_iff.mp taken
    obtain ⟨pick, picked, taken⟩ := Option.bind_eq_some_iff.mp taken
    by_cases may : k ∈ sheet.uploading ∧ (i, k) ∉ w.applied
    · rw [if_pos may] at taken
      cases taken
      exact .putDataApplied i k sheet pick found picked
    · rw [if_neg may] at taken
      cases taken
  | noteRemoved n =>
    simp only [step] at taken
    split at taken
    · cases taken
      exact .noteRemoved n
    · cases taken

theorem consistent_step {w t : World} {e : Event} (consistent : w.Consistent)
    (taken : step w e = some t) : t.Consistent := by
  cases step_cases taken with
  | sheetOpened =>
    exact { consistent with
      sheets := by
        intro sheet member
        rcases List.mem_append.mp member with old | new
        · exact consistent.sheets sheet old
        · rw [List.mem_singleton.mp new]
          exact ⟨[], EventSystem.reaches_nil.mpr rfl⟩ }
  | sheet i e before after found ran =>
    have reachable := consistent.sheets before (List.mem_of_getElem? found)
    have sheets : ∀ sheet ∈ w.sheets.set i after, AddNote.system.Reachable sheet := by
      intro sheet member
      rcases List.mem_or_eq_of_mem_set member with old | rfl
      · exact consistent.sheets sheet old
      · exact reachable.step ran
    rcases created_cases reachable ran with ⟨none, _⟩ | ⟨user, uuid, _, one⟩
    · rw [none, List.map_nil, List.append_nil]
      exact { consistent with sheets := sheets }
    · rw [one]
      exact {
        sheets := sheets
        named := by
          intro note member
          rcases List.mem_append.mp member with old | new
          · exact consistent.named note old
          · rw [List.mem_singleton.mp new]
        uploads := by
          intro note member
          rcases List.mem_append.mp member with old | new
          · exact consistent.uploads note old
          · rw [List.mem_singleton.mp new]
            intro upload attached
            obtain ⟨latest, last, rfl⟩ := Option.map_eq_some_iff.mp attached
            exact latest_ne_empty reachable latest last }
  | putDataApplied i k sheet pick found picked => exact { consistent with }
  | noteRemoved n =>
    have fewer : ∀ note ∈ w.notes.eraseIdx n, note ∈ w.notes :=
      fun note member => List.mem_of_mem_eraseIdx member
    exact { consistent with
      named := fun note member => consistent.named note (fewer note member)
      uploads := fun note member => consistent.uploads note (fewer note member) }

theorem consistent {w : World} (reachable : system.Reachable w) : w.Consistent := by
  refine reachable.invariant ?_ (fun w e t holds taken => consistent_step holds taken)
  exact {
    sheets := by simp [system]
    named := by simp [system]
    uploads := by simp [system] }

/-- A note is intact when the object of its attachment holds the uploaded bytes. -/
theorem intact_iff {w : World} {note : StoredNote}
    (named : note.doc = (note.attachment.map Upload.documentID).getD "")
    (uploads : ∀ upload ∈ note.attachment, upload.documentID ≠ "") :
    (note.doc ≠ "" → ∃ upload ∈ note.attachment, upload.documentID = note.doc ∧
      w.download note.doc = some upload.doc) ↔
      ∀ upload ∈ note.attachment, w.download upload.documentID = some upload.doc := by
  cases attached : note.attachment with
  | none => simp [named, attached]
  | some upload =>
    have path : note.doc = upload.documentID := by
      rw [named, attached]
      rfl
    have nonempty : upload.documentID ≠ "" := uploads upload attached
    simp [path, nonempty]

/-- What the notes of a consistent world need. -/
theorem attachmentsIntact_iff {w : World} (consistent : w.Consistent) :
    AttachmentsIntact w ↔ ∀ note ∈ w.notes, ∀ upload ∈ note.attachment,
      w.download upload.documentID = some upload.doc := by
  refine ⟨?_, ?_⟩
  · intro intact note member
    exact (intact_iff (consistent.named note member) (consistent.uploads note member)).mp
      (intact note member)
  · intro held note member
    exact (intact_iff (consistent.named note member) (consistent.uploads note member)).mpr
      (held note member)

/-- Only an upload and a press can part a note from its bytes. -/
theorem attachmentsIntact_step {w t : World} {e : Event} (reachable : system.Reachable w)
    (intact : AttachmentsIntact w) (taken : step w e = some t) :
    AttachmentsIntact t ↔ ObjectKept w e t := by
  have before := consistent reachable
  have after := consistent (reachable.step taken)
  rw [attachmentsIntact_iff before] at intact
  rw [attachmentsIntact_iff after]
  cases step_cases taken with
  | sheetOpened => exact iff_of_true intact trivial
  | sheet i e sheet next found ran =>
    have own := before.sheets sheet (List.mem_of_getElem? found)
    rcases created_cases own ran with ⟨none, other⟩ | ⟨user, uuid, rfl, one⟩
    · have kept : ∀ t, ObjectKept w (.sheet i e) t := by
        intro t
        cases e with
        | addButtonPressed user uuid =>
          cases user with
          | none => trivial
          | some user => exact absurd rfl (other user uuid)
        | _ => trivial
      refine iff_of_true ?_ (kept _)
      rw [none, List.map_nil, List.append_nil]
      exact intact
    · rw [one]
      simp only [ObjectKept, found, Option.mem_some_iff, forall_eq']
      refine ⟨?_, ?_⟩
      · intro held latest last
        exact held _ (List.mem_append_right _ (List.mem_singleton_self _)) latest.upload
          (by simp [Option.mem_def.mp last])
      · intro pressed note member upload attached
        rcases List.mem_append.mp member with old | new
        · exact intact note old upload attached
        · rw [List.mem_singleton.mp new] at attached
          obtain ⟨latest, last, rfl⟩ := Option.map_eq_some_iff.mp attached
          exact pressed latest last
  | putDataApplied i k sheet pick found picked =>
    have replaced : ∀ note ∈ w.notes, ∀ upload ∈ note.attachment,
        World.download { w with
          applied := w.applied ++ [(i, k)]
          objects := w.objects.insert (child pick.upload.documentID) pick.upload.doc }
          upload.documentID = some upload.doc ↔
        (child upload.documentID = child pick.upload.documentID → upload.doc = pick.upload.doc) := by
      intro note member upload attached
      unfold World.download
      by_cases same : child upload.documentID = child pick.upload.documentID
      · rw [same, AList.lookup_insert, Option.some.injEq]
        exact ⟨fun equal _ => equal.symm, fun kept => (kept rfl).symm⟩
      · simp only [AList.lookup_insert_ne same]
        exact iff_of_true (intact note member upload attached) (fun equal => absurd equal same)
    simp only [ObjectKept, found, picked, Option.mem_some_iff, forall_eq']
    refine ⟨?_, ?_⟩
    · intro held note member upload attached
      exact (replaced note member upload attached).mp (held note member upload attached)
    · intro kept note member upload attached
      exact (replaced note member upload attached).mpr (kept note member upload attached)
  | noteRemoved n =>
    refine iff_of_true ?_ trivial
    exact fun note member => intact note (List.mem_of_mem_eraseIdx member)

/-- Along every run, every note that exists finds the bytes of its attachment if
and only if no upload puts other bytes where a note's attachment lies and no press
takes an attachment whose object has been replaced. -/
theorem attachmentsIntact_iff_objectKept (events : List Event) :
    system.Always AttachmentsIntact events ↔ system.EveryStep ObjectKept events :=
  EventSystem.always_iff_everyStep (J := fun _ => True)
    (by simp [AttachmentsIntact, system]) trivial (fun _ _ _ _ _ _ _ _ => trivial)
    (fun _ _ _ reachable intact _ taken => attachmentsIntact_step reachable intact taken) events

/-- Two uploads share an object exactly when their files have the same name and
the accounts have the same segments. -/
theorem child_documentID_iff (u v : String) (a b : FileURL) :
    child ("documents/" ++ u ++ "/" ++ storedName a) =
        child ("documents/" ++ v ++ "/" ++ storedName b) ↔
      segments '/' u.toList = segments '/' v.toList ∧
        a.lastPathComponent = b.lastPathComponent := by
  have object : ∀ userId url, child ("documents/" ++ userId ++ "/" ++ storedName url) =
      some (String.ofList (standardizedPath
        ("documents/" ++ userId ++ "/" ++ storedName url).toList)) := by
    intro userId url
    exact if_neg (documentID_ne_empty userId url)
  have pieces : ∀ userId url,
      segments '/' ("documents/" ++ userId ++ "/" ++ storedName url).toList =
        "documents".toList :: (segments '/' userId.toList ++ [(storedName url).toList]) := by
    intro userId url
    have shape : ("documents/" ++ userId ++ "/" ++ storedName url).toList =
        "documents".toList ++ '/' :: (userId.toList ++ '/' :: (storedName url).toList) := by
      simp
    rw [shape, segments_append_cons, segments_append_cons,
      segments_of_not_mem (l := "documents".toList) (by decide) (by decide),
      segments_of_not_mem (storedName_ne_nil url) (slash_not_mem_storedName url)]
    rfl
  rw [object, object, Option.some.injEq, String.ofList_inj, standardizedPath_eq_iff,
    pieces, pieces, List.cons_inj_right]
  refine ⟨?_, ?_⟩
  · intro same
    obtain ⟨accounts, names⟩ := List.append_inj' same (by simp)
    exact ⟨accounts, storedName_injective (String.toList_inj.mp (List.singleton_inj.mp names))⟩
  · rintro ⟨accounts, names⟩
    rw [accounts, storedName, storedName, names]

def report : FileURL := { path := "/a/report.pdf", absolute := rfl, file := by decide }

def otherReport : FileURL := { path := "/b/report.pdf", absolute := rfl, file := by decide }

/-- A note is saved with one file; then another file of the same name is picked. -/
def sameNamePicked : List Event :=
  [.sheetOpened, .sheet 0 (.documentPicked (some "ann@mail.org") report (some [1])),
    .putDataApplied 0 0, .sheet 0 (.putDataCompleted 0 none),
    .sheet 0 (.addButtonPressed (some "ann@mail.org") firstNote),
    .sheet 0 (.documentPicked (some "ann@mail.org") otherReport (some [2])),
    .putDataApplied 0 1]

/-- The note's object now holds the other file. -/
theorem sameNamePicked_not_intact : ¬ system.Always AttachmentsIntact sameNamePicked := by
  decide +kernel

end QuickNote.Storage
