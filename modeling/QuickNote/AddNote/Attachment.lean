import QuickNote.AddNote.Sheet

/-!
# Which attachment a note gets

The label and `pickedDoc` are set by the completion of an upload, the label alone
is hidden by the completion of a save, and every press stores `pickedDoc`.  So the
label and the attachment agree until a save completes after an upload, and a note
gets the attachment picked for it when that upload is the last that has completed.
-/

namespace QuickNote.AddNote

open Firestore DocumentStore Foundation

/-! ## What the sheet shows -/

/-- The label is visible exactly while an attachment is set, and its text is then
the file name that the attachment ends in. -/
def AttachmentShown (s : Sheet) : Prop :=
  (s.controller.attachmentNameView.isHidden = false ↔ s.controller.pickedDoc.isSome) ∧
    (s.controller.attachmentNameView.isHidden = false → ∀ doc ∈ s.controller.pickedDoc,
      s.controller.attachmentNameView.text = some (String.ofList (lastPathComponent doc.toList)))

/-- A note that the step creates stores the attachment that the sheet shows, and
an empty one when it shows none. -/
def StoresShown (s : Sheet) (_ : Event) (t : Sheet) : Prop :=
  ∀ made ∈ t.created.drop s.created.length, ∃ doc ∈ storedField made.write "doc",
    if s.controller.attachmentNameView.isHidden then doc = ""
    else s.controller.attachmentNameView.text =
      some (String.ofList (lastPathComponent doc.toList))

/-- A save completes successfully only while no upload of the sheet has
succeeded. -/
def SaveBeforeUploads (s : Sheet) (e : Event) (_ : Sheet) : Prop :=
  match e with
  | .setDataCompleted _ none => s.uploaded = []
  | _ => True

instance : DecidablePred AttachmentShown := by
  intro s
  unfold AttachmentShown
  infer_instance

/-- Only the successful completion of a save can hide an attachment. -/
theorem attachmentShown_step {s t : Sheet} {e : Event} (reachable : system.Reachable s)
    (shown : AttachmentShown s) (taken : step s e = some t) :
    AttachmentShown t ↔ SaveBeforeUploads s e t := by
  have consistent := consistent reachable
  cases step_cases taken with
  | titleChanged text => exact iff_of_true shown trivial
  | detailsChanged text => exact iff_of_true shown trivial
  | pickIgnored user url contents => exact iff_of_true shown trivial
  | picked user url contents upload started => exact iff_of_true shown trivial
  | uploadFailed k message => exact iff_of_true shown trivial
  | uploaded k pick found member =>
    obtain ⟨userId, filename, documentID⟩ := consistent.origin pick (List.mem_of_getElem? found)
    have name : pick.upload.filename =
        String.ofList (lastPathComponent pick.upload.documentID.toList) := by
      rw [documentID, lastPathComponent_documentID, filename, String.ofList_toList]
    refine iff_of_true ⟨by simp [AddNoteViewController.putDataCompletion], ?_⟩ trivial
    intro _ doc same
    cases same
    exact congrArg some name
  | pressIgnored uuid => exact iff_of_true shown trivial
  | created userId uuid document => exact iff_of_true shown trivial
  | saveFailed k message member => exact iff_of_true shown trivial
  | saved k member =>
    have unset : s.controller.pickedDoc = none ↔ s.uploaded = [] := by
      have some := consistent.latest_isSome
      rw [Option.isSome_iff_ne_none] at some
      rw [consistent.picked, Option.map_eq_none_iff]
      exact not_iff_not.mp some
    simp [AttachmentShown, SaveBeforeUploads, AddNoteViewController.setDataCompletion, unset]

theorem storesShown_of_attachmentShown {s t : Sheet} {e : Event} (shown : AttachmentShown s)
    (taken : step s e = some t) : StoresShown s e t := by
  cases step_cases taken with
  | created userId uuid document =>
    intro made member
    rw [List.drop_left] at member
    rw [List.mem_singleton.mp member]
    refine ⟨s.controller.pickedDoc.getD "", noteData_doc _ _ _, ?_⟩
    cases attached : s.controller.pickedDoc with
    | none =>
      have hidden : s.controller.attachmentNameView.isHidden = true := by
        simpa [attached] using shown.1
      simp [hidden]
    | some doc =>
      have visible : s.controller.attachmentNameView.isHidden = false :=
        shown.1.mpr (by simp [attached])
      simpa [visible] using shown.2 visible doc attached
  | _ => simp [StoresShown]

/-- Along every run, the label agrees with the attachment in every state and every
press stores what the label shows if and only if no save completes successfully
after an upload has. -/
theorem attachmentShown_iff_saveBeforeUploads (events : List Event) :
    (system.Always AttachmentShown events ∧ system.EveryStep StoresShown events) ↔
      system.EveryStep SaveBeforeUploads events := by
  have always : system.Always AttachmentShown events ↔ system.EveryStep SaveBeforeUploads events :=
    EventSystem.always_iff_everyStep (J := fun _ => True)
      (by decide) trivial (fun _ _ _ _ _ _ _ _ => trivial)
      (fun _ _ _ reachable shown _ taken => attachmentShown_step reachable shown taken) events
  rw [← always]
  refine ⟨?_, ?_⟩
  · exact fun both => both.1
  · intro shown
    refine ⟨shown, ?_⟩
    intro before e s t pre run taken
    have both := shown.everyStep before e s t pre run taken
    exact storesShown_of_attachmentShown both.1 taken

def report : FileURL := { path := "/files/report.pdf", absolute := rfl, file := by decide }

def photo : FileURL := { path := "/files/photo.png", absolute := rfl, file := by decide }

/-- A note with an attachment is saved. -/
def savedWithAttachment : List Event :=
  [.documentPicked (some "ann@mail.org") report (some [1]), .putDataCompleted 0 none,
    .addButtonPressed (some "ann@mail.org") firstNote, .setDataCompleted 0 none]

/-- Afterwards the sheet shows no attachment and still has one. -/
theorem savedWithAttachment_not_shown :
    ¬ (system.Always AttachmentShown savedWithAttachment ∧
      system.EveryStep StoresShown savedWithAttachment) := by
  intro both
  have hidden : ¬ system.Always AttachmentShown savedWithAttachment := by decide
  exact hidden both.1

/-! ## Whose attachment it is -/

/-- The most recent pick, among those made since the last note was created, whose
upload has succeeded. -/
def Sheet.own (s : Sheet) : Option Nat :=
  ((List.range s.picks.length).filter fun k =>
    k ∈ s.uploaded ∧ ∃ pick ∈ s.picks[k]?, pick.composing = s.created.length).getLast?

/-- The path under which a pick was uploaded, and the empty text when there is no
pick. -/
def Sheet.docOf (s : Sheet) (k : Option Nat) : String :=
  ((k.bind (s.picks[·]?)).map (·.upload.documentID)).getD ""

/-- A note that the step creates stores its own attachment. -/
def StoresOwn (s : Sheet) (_ : Event) (t : Sheet) : Prop :=
  ∀ made ∈ t.created.drop s.created.length, storedField made.write "doc" = some (s.docOf s.own)

/-- Add is pressed only while the upload that has completed last is that of the
most recent file picked for the note, and while none has completed when there is no
such file. -/
def LatestOwn (s : Sheet) (e : Event) (_ : Sheet) : Prop :=
  match e with
  | .addButtonPressed (some _) _ => s.uploaded.getLast? = s.own
  | _ => True

/-- The name of the file that an event picks. -/
def Event.pickedName : Event → Option String
  | .documentPicked _ url _ => some url.lastPathComponent
  | _ => none

instance (s : Sheet) (e : Event) (t : Sheet) : Decidable (StoresOwn s e t) := by
  unfold StoresOwn
  infer_instance

/-- The uploads of a sheet are those of files picked in its run. -/
theorem pickNames_sublist {events : List Event} {s : Sheet} (run : system.Reaches events s) :
    (s.picks.map (·.url.lastPathComponent)).Sublist (events.filterMap Event.pickedName) := by
  refine EventSystem.reaches_induction (motive := fun events s =>
    (s.picks.map (·.url.lastPathComponent)).Sublist (events.filterMap Event.pickedName))
    (List.Sublist.refl _) ?_ run
  intro past s e t _ ih taken
  have kept := ih.trans (List.sublist_append_left _ ([e].filterMap Event.pickedName))
  rw [List.filterMap_append]
  cases step_cases taken with
  | picked user url contents upload started =>
    rw [List.map_append]
    exact ih.append (List.Sublist.refl _)
  | _ => exact kept

/-- When file names are distinct, so are the paths of the uploads. -/
theorem docOf_injective {s : Sheet} (consistent : s.Consistent)
    (distinct : (s.picks.map (·.url.lastPathComponent)).Nodup) {j k : Option Nat}
    (boundJ : ∀ i ∈ j, i < s.picks.length) (boundK : ∀ i ∈ k, i < s.picks.length)
    (same : s.docOf j = s.docOf k) : j = k := by
  have path : ∀ i (bound : i < s.picks.length), ∃ userId,
      s.docOf (some i) = "documents/" ++ userId ++ "/" ++ storedName (s.picks[i]).url := by
    intro i bound
    obtain ⟨userId, _, documentID⟩ := consistent.origin _ (List.getElem_mem bound)
    exact ⟨userId, by simp [Sheet.docOf, bound, documentID]⟩
  have some : ∀ i, i < s.picks.length → s.docOf (some i) ≠ s.docOf none := by
    intro i bound
    obtain ⟨userId, documentID⟩ := path i bound
    rw [documentID]
    exact documentID_ne_empty userId _
  cases j with
  | none =>
    cases k with
    | none => rfl
    | some k => exact absurd same.symm (some k (boundK k rfl))
  | some j =>
    cases k with
    | none => exact absurd same (some j (boundJ j rfl))
    | some k =>
      have boundJ := boundJ j rfl
      have boundK := boundK k rfl
      obtain ⟨userJ, documentJ⟩ := path j boundJ
      obtain ⟨userK, documentK⟩ := path k boundK
      have last := congrArg (fun doc => lastPathComponent (String.toList doc)) same
      simp only [documentJ, documentK, lastPathComponent_documentID] at last
      have names := storedName_injective (String.toList_inj.mp last)
      have index : j = k := by
        have shorter : j < (s.picks.map (·.url.lastPathComponent)).length ∧
            k < (s.picks.map (·.url.lastPathComponent)).length := by
          simpa using ⟨boundJ, boundK⟩
        refine (@List.Nodup.getElem_inj_iff _ _ distinct j shorter.1 k shorter.2).mp ?_
        simpa using names
      rw [index]

theorem own_lt {s : Sheet} : ∀ k ∈ s.own, k < s.picks.length := by
  intro k last
  have member := List.mem_of_getLast? last
  exact List.mem_range.mp (List.mem_filter.mp member).1

/-- Along every run in which the picked files have different names, every note is
stored with its own attachment if and only if no press comes while another upload
has completed last. -/
theorem storesOwn_iff_latestOwn (events : List Event)
    (distinct : (events.filterMap Event.pickedName).Nodup) :
    system.EveryStep StoresOwn events ↔ system.EveryStep LatestOwn events := by
  refine EventSystem.everyStep_congr ?_
  intro before e s t pre run taken
  have within : before <+: events := (List.prefix_append before [e]).trans pre
  have consistent := consistent ⟨before, run⟩
  have names : (s.picks.map (·.url.lastPathComponent)).Nodup :=
    distinct.sublist ((pickNames_sublist run).trans (within.sublist.filterMap _))
  have boundLast : ∀ k ∈ s.uploaded.getLast?, k < s.picks.length :=
    fun k last => consistent.uploaded k (List.mem_of_getLast? last)
  cases step_cases taken with
  | created userId uuid document =>
    have stored : s.controller.pickedDoc.getD "" = s.docOf s.uploaded.getLast? := by
      rw [consistent.picked]
      rfl
    simp only [StoresOwn, LatestOwn, List.drop_left, List.mem_singleton, forall_eq, storedField,
      noteData_doc, Option.some.injEq, stored]
    refine ⟨?_, ?_⟩
    · exact docOf_injective consistent names boundLast own_lt
    · intro same
      rw [same]
  | _ => simp [StoresOwn, LatestOwn]

/-- The upload of the first file completes after that of the second. -/
def uploadsSwapped : List Event :=
  [.documentPicked (some "ann@mail.org") report (some [1]),
    .documentPicked (some "ann@mail.org") photo (some [2]), .putDataCompleted 1 none,
    .putDataCompleted 0 none, .addButtonPressed (some "ann@mail.org") firstNote]

theorem storesOwn_iff_latestOwn_uploadsSwapped :
    system.EveryStep StoresOwn uploadsSwapped ↔ system.EveryStep LatestOwn uploadsSwapped :=
  storesOwn_iff_latestOwn uploadsSwapped (by decide)

/-- The note is stored with the first file. -/
theorem uploadsSwapped_not_own :
    (uploadsSwapped.filterMap Event.pickedName).Nodup ∧
      ¬ system.EveryStep StoresOwn uploadsSwapped := by
  decide

end QuickNote.AddNote
