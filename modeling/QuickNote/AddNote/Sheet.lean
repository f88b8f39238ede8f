import QuickNote.Library.EventSystem
import QuickNote.AddNote.Source

/-!
# Runs of one Add sheet

The sheet, the uploads and the saves whose completions have not run.  Edits,
picks, presses and completions interleave freely, every completion runs at most
once, and completions come in any order.

`Pick.url`, `Pick.composing`, `Created.revision`, `Created.attachment`,
`Sheet.uploaded`, `Sheet.failed` and `Sheet.revision` are records of the schedule that no
function of the code reads.
-/

namespace QuickNote.AddNote

open Firestore DocumentStore Foundation

/-- A picked file and its upload, with the number of notes created before. -/
structure Pick where
  url : FileURL
  upload : Upload
  composing : Nat
deriving DecidableEq

/-- A note that a press has created: its write, the revision of the draft that
went into it and the upload that had completed last. -/
structure Created where
  write : DatabaseWrite
  revision : Nat
  attachment : Option Upload

structure Sheet where
  controller : AddNoteViewController := AddNoteViewController.viewDidLoad {}
  picks : List Pick := []
  /-- The picks whose `putData` has not completed. -/
  uploading : List Nat := []
  /-- The picks whose upload has succeeded, in the order of completion. -/
  uploaded : List Nat := []
  created : List Created := []
  /-- The created notes whose `setData` has not completed. -/
  saving : List Nat := []
  /-- The created notes whose save has failed. -/
  failed : List Nat := []
  /-- The number of edits, picks and successful saves so far. -/
  revision : Nat := 0

inductive Event where
  | titleChanged (text : String)
  | detailsChanged (text : String)
  /-- The picker's callback: who is signed in, the file, and its bytes if they can
  be read. -/
  | documentPicked (user : Option String) (url : FileURL) (contents : Option Data)
  | putDataCompleted (pick : Nat) (error : Option String)
  | addButtonPressed (user : Option String) (uuid : DocumentID)
  | setDataCompleted (save : Nat) (error : Option String)
deriving DecidableEq

/-- The field of the document that a write sets. -/
def storedField (write : DatabaseWrite) (field : String) : Option String :=
  match write with
  | .set _ fields => DocumentData.string fields field
  | _ => none

namespace Sheet

/-- The pick whose upload has completed last. -/
def latest (s : Sheet) : Option Pick := s.uploaded.getLast?.bind (s.picks[·]?)

def documentPicked (s : Sheet) (user : Option String) (url : FileURL) (contents : Option Data) :
    Sheet :=
  let s := { s with revision := s.revision + 1 }
  match AddNoteViewController.documentPicker user (fun _ => contents) [url] with
  | none => s
  | some upload =>
    { s with
      picks := s.picks ++ [⟨url, upload, s.created.length⟩]
      uploading := s.uploading ++ [s.picks.length] }

def putDataCompleted (s : Sheet) (k : Nat) (error : Option String) : Option Sheet := do
  let pick ← s.picks[k]?
  if k ∈ s.uploading then
    some { s with
      controller := s.controller.putDataCompletion pick.upload error
      uploading := s.uploading.erase k
      uploaded := if error.isNone then s.uploaded ++ [k] else s.uploaded }
  else none

def addButtonPressed (s : Sheet) (user : Option String) (uuid : DocumentID) : Option Sheet := do
  match ← s.controller.addButtonPressed user uuid with
  | none => some s
  | some write =>
    some { s with
      created := s.created ++ [⟨write, s.revision, s.latest.map Pick.upload⟩]
      saving := s.saving ++ [s.created.length] }

def setDataCompleted (s : Sheet) (k : Nat) (error : Option String) : Option Sheet :=
  if k ∈ s.saving then
    some { s with
      controller := s.controller.setDataCompletion error
      saving := s.saving.erase k
      failed := if error.isNone then s.failed else s.failed ++ [k]
      revision := if error.isNone then s.revision + 1 else s.revision }
  else none

end Sheet

def step (s : Sheet) : Event → Option Sheet
  | .titleChanged text =>
      some { s with
        controller := { s.controller with titleTextField := some text }
        revision := s.revision + 1 }
  | .detailsChanged text =>
      some { s with
        controller := { s.controller with detailsTextView := some text }
        revision := s.revision + 1 }
  | .documentPicked user url contents => some (s.documentPicked user url contents)
  | .putDataCompleted k error => s.putDataCompleted k error
  | .addButtonPressed user uuid => s.addButtonPressed user uuid
  | .setDataCompleted k error => s.setDataCompleted k error

/-- A sheet that has just been loaded. -/
def system : EventSystem Sheet Event where
  init := {}
  step := step

/-- Everything one step can do. -/
inductive Taken (s : Sheet) : Event → Sheet → Prop where
  | titleChanged (text : String) :
      Taken s (.titleChanged text) { s with
        controller := { s.controller with titleTextField := some text }
        revision := s.revision + 1 }
  | detailsChanged (text : String) :
      Taken s (.detailsChanged text) { s with
        controller := { s.controller with detailsTextView := some text }
        revision := s.revision + 1 }
  | pickIgnored (user : Option String) (url : FileURL) (contents : Option Data) :
      Taken s (.documentPicked user url contents) { s with revision := s.revision + 1 }
  | picked (user : Option String) (url : FileURL) (contents : Option Data) (upload : Upload)
      (started : AddNoteViewController.documentPicker user (fun _ => contents) [url] =
        some upload) :
      Taken s (.documentPicked user url contents) { s with
        revision := s.revision + 1
        picks := s.picks ++ [⟨url, upload, s.created.length⟩]
        uploading := s.uploading ++ [s.picks.length] }
  | uploadFailed (k : Nat) (message : String) :
      Taken s (.putDataCompleted k (some message)) { s with uploading := s.uploading.erase k }
  | uploaded (k : Nat) (pick : Pick) (found : s.picks[k]? = some pick)
      (member : k ∈ s.uploading) :
      Taken s (.putDataCompleted k none) { s with
        controller := s.controller.putDataCompletion pick.upload none
        uploading := s.uploading.erase k
        uploaded := s.uploaded ++ [k] }
  | pressIgnored (uuid : DocumentID) : Taken s (.addButtonPressed none uuid) s
  | created (userId : String) (uuid : DocumentID) (document : DocumentReference) :
      Taken s (.addButtonPressed (some userId) uuid) { s with
        created := s.created ++ [⟨.set document (noteData (s.controller.titleTextField.getD "")
          (s.controller.detailsTextView.getD "") (s.controller.pickedDoc.getD "")),
          s.revision, s.latest.map Pick.upload⟩]
        saving := s.saving ++ [s.created.length] }
  | saveFailed (k : Nat) (message : String) (member : k ∈ s.saving) :
      Taken s (.setDataCompleted k (some message)) { s with
        saving := s.saving.erase k
        failed := s.failed ++ [k] }
  | saved (k : Nat) (member : k ∈ s.saving) :
      Taken s (.setDataCompleted k none) { s with
        controller := s.controller.setDataCompletion none
        saving := s.saving.erase k
        revision := s.revision + 1 }

theorem step_cases {s t : Sheet} {e : Event} (taken : step s e = some t) : Taken s e t := by
  cases e with
  | titleChanged text =>
    cases taken
    exact .titleChanged text
  | detailsChanged text =>
    cases taken
    exact .detailsChanged text
  | documentPicked user url contents =>
    cases taken
    cases started : AddNoteViewController.documentPicker user (fun _ => contents) [url] with
    | none =>
      simp only [Sheet.documentPicked, started]
      exact .pickIgnored user url contents
    | some upload =>
      simp only [Sheet.documentPicked, started]
      exact .picked user url contents upload started
  | putDataCompleted k error =>
    obtain ⟨pick, found, taken⟩ := Option.bind_eq_some_iff.mp taken
    by_cases member : k ∈ s.uploading
    · rw [if_pos member] at taken
      cases taken
      cases error with
      | none => exact .uploaded k pick found member
      | some message => exact .uploadFailed k message
    · rw [if_neg member] at taken
      cases taken
  | addButtonPressed user uuid =>
    obtain ⟨result, ran, taken⟩ := Option.bind_eq_some_iff.mp taken
    cases user with
    | none =>
      cases ran
      cases taken
      exact .pressIgnored uuid
    | some userId =>
      obtain ⟨users, document, _, _, rfl⟩ := AddNoteViewController.addButtonPressed_eq_some ran
      cases taken
      exact .created userId uuid document
  | setDataCompleted k error =>
    simp only [step, Sheet.setDataCompleted] at taken
    by_cases member : k ∈ s.saving
    · rw [if_pos member] at taken
      cases taken
      cases error with
      | none => exact .saved k member
      | some message => exact .saveFailed k message member
    · rw [if_neg member] at taken
      cases taken

/-- What relates the sheet to its completed uploads: the label's text and the
attachment are those of the one that completed last, and every upload goes where
the name of its file says. -/
structure Sheet.Consistent (s : Sheet) : Prop where
  picked : s.controller.pickedDoc = s.latest.map (·.upload.documentID)
  label : ∀ pick ∈ s.latest, s.controller.attachmentNameView.text = some pick.upload.filename
  uploading : ∀ k ∈ s.uploading, k < s.picks.length
  uploaded : ∀ k ∈ s.uploaded, k < s.picks.length
  origin : ∀ pick ∈ s.picks, ∃ userId, pick.upload.filename = storedName pick.url ∧
    pick.upload.documentID = "documents/" ++ userId ++ "/" ++ storedName pick.url

/-- A pick that has been made stays where it is. -/
theorem Sheet.Consistent.latest_append {s : Sheet} (consistent : s.Consistent) (pick : Pick) :
    s.uploaded.getLast?.bind ((s.picks ++ [pick])[·]?) = s.latest := by
  unfold Sheet.latest
  cases last : s.uploaded.getLast? with
  | none => rfl
  | some k =>
    have bound : k < s.picks.length := consistent.uploaded k (List.mem_of_getLast? last)
    simp [List.getElem?_append_left bound]

/-- Once an upload has succeeded there is a last one. -/
theorem Sheet.Consistent.latest_isSome {s : Sheet} (consistent : s.Consistent) :
    s.latest.isSome ↔ s.uploaded ≠ [] := by
  unfold Sheet.latest
  cases last : s.uploaded.getLast? with
  | none => simp [List.getLast?_eq_none_iff.mp last]
  | some k =>
    have bound : k < s.picks.length := consistent.uploaded k (List.mem_of_getLast? last)
    have nonempty : s.uploaded ≠ [] := List.ne_nil_of_mem (List.mem_of_getLast? last)
    simp [List.getElem?_eq_getElem bound, nonempty]

theorem consistent_step {s t : Sheet} {e : Event} (consistent : s.Consistent)
    (taken : step s e = some t) : t.Consistent := by
  have fewer : ∀ k, ∀ j ∈ s.uploading.erase k, j < s.picks.length :=
    fun k j member => consistent.uploading j (List.mem_of_mem_erase member)
  cases step_cases taken with
  | titleChanged text => exact { consistent with }
  | detailsChanged text => exact { consistent with }
  | pickIgnored user url contents => exact { consistent with }
  | picked user url contents upload started =>
    obtain ⟨userId, _, _, filename, documentID⟩ := documentPicker_eq_some started
    have longer : ∀ {ks : List Nat}, (∀ k ∈ ks, k < s.picks.length) →
        ∀ k ∈ ks, k < s.picks.length + 1 :=
      fun known k member => Nat.lt_succ_of_lt (known k member)
    have same := consistent.latest_append ⟨url, upload, s.created.length⟩
    exact {
      picked := by
        rw [Sheet.latest, same]
        exact consistent.picked
      label := by
        rw [Sheet.latest, same]
        exact consistent.label
      uploading := by
        intro k member
        rw [List.length_append, List.length_singleton]
        rcases List.mem_append.mp member with old | new
        · exact longer consistent.uploading k old
        · rw [List.mem_singleton.mp new]
          omega
      uploaded := by
        rw [List.length_append, List.length_singleton]
        exact longer consistent.uploaded
      origin := by
        intro pick member
        rcases List.mem_append.mp member with old | new
        · exact consistent.origin pick old
        · rw [List.mem_singleton.mp new]
          exact ⟨userId, filename, documentID⟩ }
  | uploadFailed k message => exact { consistent with uploading := fewer k }
  | uploaded k pick found member =>
    have now : (s.uploaded ++ [k]).getLast?.bind (s.picks[·]?) = some pick := by
      rw [List.getLast?_concat]
      exact found
    exact {
      picked := by
        rw [Sheet.latest, now]
        rfl
      label := by
        rw [Sheet.latest, now]
        intro last same
        cases same
        rfl
      uploading := fewer k
      uploaded := by
        intro j done
        rcases List.mem_append.mp done with old | new
        · exact consistent.uploaded j old
        · rw [List.mem_singleton.mp new]
          exact consistent.uploading k member
      origin := consistent.origin }
  | pressIgnored uuid => exact consistent
  | created userId uuid document => exact { consistent with }
  | saveFailed k message member => exact { consistent with }
  | saved k member => exact { consistent with }

theorem consistent {s : Sheet} (reachable : system.Reachable s) : s.Consistent := by
  refine reachable.invariant ?_ (fun s e t holds taken => consistent_step holds taken)
  exact {
    picked := rfl
    label := by simp [system, Sheet.latest]
    uploading := by simp [system]
    uploaded := by simp [system]
    origin := by simp [system] }

/-- The identifier of the note in the runs below. -/
def firstNote : DocumentID := ⟨"n1", by decide, by decide⟩

end QuickNote.AddNote
