import QuickNote.Documents.Listing
import QuickNote.Firestore.WholeOverlays

/-!
# The notes that a client shows

The overlay of a note is right, or it is one of the whole note that stands for writes
which were pending together.  Either way the note reads with all its fields or as not
there, as long as no deletion of a note arrives that the client reads by a patch.
-/

namespace QuickNote.Documents

open Firestore DocumentStore

/-- What the app writes to a note: it is created whole, its details are changed, or it is
deleted. -/
inductive NoteWrite (key : DocumentReference) : DatabaseWrite → Prop where
  | note (title details doc : String) : NoteWrite key (.set key (noteData title details doc))
  | details (text : String) : NoteWrite key (.update key (detailsData text))
  | delete : NoteWrite key (.delete key)

/-- Among the notes nothing else is written. -/
def WritesNotes (w : DatabaseWrite) : Prop := IsNote w.key → NoteWrite w.key w

/-- The profile of an account with the address is stored among the notes of one. -/
def ProfileIsNote (email : String) : Prop :=
  ∃ users key, collection "users" = some users ∧ users.document email = some key ∧ IsNote key

theorem not_profileIsNote {email : String} (plain : PlainDomain email) : ¬ ProfileIsNote email := by
  rintro ⟨users, key, parsed, found, note⟩
  exact not_isNote_of_profile plain parsed found note

/-- The address of the account whose profile is stored. -/
def Event.profileEmail : Event → Option String
  | .registerUser _ userRequest => some userRequest.email
  | .googleSignIn _ user => user.profile.map GoogleProfile.email
  | _ => none

theorem writesNotes_of_issued {e : Event} {client : Nat} {w : DatabaseWrite}
    (apart : ∀ email ∈ e.profileEmail, ¬ ProfileIsNote email)
    (issued : e.write = some (client, w)) : WritesNotes w := by
  intro note
  obtain ⟨email, account, written⟩ := written_of_issued issued
  cases written with
  | profile users parsed found =>
    cases e with
    | registerUser _ userRequest =>
      exact absurd ⟨users, w.key, parsed, found, note⟩ (apart email account)
    | googleSignIn _ user => exact absurd ⟨users, w.key, parsed, found, note⟩ (apart email account)
    | addButtonPressed _ _ sheet uuid =>
      obtain ⟨made, ran, issued⟩ := Option.bind_eq_some_iff.mp issued
      obtain ⟨_, document, _, _, rfl⟩ := AddNoteViewController.addButtonPressed_eq_some ran
      cases issued
      exact .note _ _ _
    | saveButtonPressed _ _ detail =>
      obtain ⟨⟨after, made⟩, ran, issued⟩ := Option.bind_eq_some_iff.mp issued
      obtain ⟨document, _, _, rfl⟩ := DetailViewController.saveButtonPressed_eq_some ran
      cases issued
      exact .details _
    | deleteConfirmed _ _ detail =>
      obtain ⟨made, ran, issued⟩ := Option.bind_eq_some_iff.mp issued
      obtain ⟨document, _, rfl⟩ := DetailViewController.deleteConfirmed_eq_some ran
      cases issued
      exact .delete
    | writeApplied _ => cases issued
    | writeRefused _ => cases issued
  | note users uuid document title details doc parsed found => exact .note title details doc
  | details detail document text found => exact .details text
  | delete detail document found => exact .delete

theorem write_registerUser {client : Nat} {userRequest : RegisterUserRequest}
    {users : CollectionReference} {key : DocumentReference}
    (parsed : collection "users" = some users)
    (found : users.document userRequest.email = some key) :
    (Event.registerUser client userRequest).write =
      some (client, .set key (AuthService.registerData userRequest)) := by
  simp [Event.write, AuthService.createUserCompletion, parsed, found]

theorem NoteWrite.castable {key : DocumentReference} {w : DatabaseWrite} (write : NoteWrite key w)
    {stored : Option DocumentData} (castable : ∀ data ∈ stored, Castable data) :
    ∀ data ∈ w.document stored, Castable data := by
  cases write with
  | note title details doc =>
    intro data made
    obtain rfl := Option.some.inj made
    exact castable_noteData title details doc
  | details text =>
    intro data made
    obtain ⟨old, there, rfl⟩ := Option.map_eq_some_iff.mp made
    exact (castable old there).details text
  | delete =>
    intro data made
    cases made

theorem castable_foldl {key : DocumentReference} {writes : List DatabaseWrite}
    (all : ∀ w ∈ writes, NoteWrite key w) {stored : Option DocumentData}
    (castable : ∀ data ∈ stored, Castable data) :
    ∀ data ∈ writes.foldl (fun stored w => w.document stored) stored, Castable data := by
  induction writes generalizing stored with
  | nil => exact castable
  | cons w rest ih =>
    exact ih (fun other member => all other (by simp [member])) ((all w (by simp)).castable castable)

theorem WritesNotes.respects {w : DatabaseWrite} (writes : WritesNotes w) :
    w.Respects NoteSchema :=
  fun _ holds data made note =>
    (writes note).castable (fun old there => holds old there note) data made

theorem requests_of_mem {writes : List DatabaseWrite} {mutations : List Request}
    (requests : List.Forall₂ Requests writes mutations) {w : DatabaseWrite} (member : w ∈ writes) :
    ∃ m ∈ mutations, Requests w m := by
  induction requests with
  | nil => cases member
  | cons first rest ih =>
    rcases List.mem_cons.mp member with rfl | later
    · exact ⟨_, by simp, first⟩
    · obtain ⟨m, inside, holds⟩ := ih later
      exact ⟨m, by simp [inside], holds⟩

namespace Client

variable {c c' : Client} {key : DocumentReference}

/-- A note is read by an overlay that is right, or by one of the whole note that stands
for writes of the app. -/
def ShownAt (c : Client) (key : DocumentReference) : Prop :=
  c.store.SettledAt key ∨ ∃ writes mutations, (∀ w ∈ writes, NoteWrite key w) ∧
    List.Forall₂ Requests writes mutations ∧ c.store.WholeAt key mutations

/-- What holds of a client whose notes can be cast. -/
structure NotesKept (c : Client) : Prop where
  linked : c.Linked
  stored : Holds NoteSchema c.database.server
  pending : ∀ w ∈ c.database.pending (), WritesNotes w
  shown : ∀ key, IsNote key → c.ShownAt key

theorem notesKept_init : system.init.NotesKept where
  linked := linked_init
  stored := fun _ _ found => by simp [system] at found
  pending := fun _ member => by simp [system] at member
  shown := fun _ _ => Or.inl settledAt_init

theorem NotesKept.noteWrite (kept : c.NotesKept) (note : IsNote key) :
    ∀ w ∈ c.writes key, NoteWrite key w := by
  intro w member
  obtain ⟨queued, own⟩ := List.mem_filter.mp member
  obtain rfl := of_decide_eq_true own
  exact kept.pending w queued note

/-- A note that is there can be cast. -/
theorem NotesKept.represents (kept : c.NotesKept) (note : IsNote key) :
    ∃ stored, Represents (c.store.getDocument key) stored ∧ ∀ data ∈ stored, Castable data := by
  have server : ∀ data ∈ c.database.server.lookup key, Castable data :=
    fun data found => kept.stored key data found note
  rcases kept.shown key note with settled | ⟨writes, mutations, all, requests, whole⟩
  · refine ⟨_, (kept.linked.showsAt settled).1, ?_⟩
    rw [Queued.view, lookup_overlay]
    exact castable_foldl (kept.noteWrite note) server
  · refine ⟨_, ?_, castable_foldl all server⟩
    rw [whole.stands.getDocument_eq kept.linked.valid (plain_of_requests requests)]
    exact (kept.linked.remote key).replay requests _

/-- The step is the app's, or brings what the server has or had. -/
def Event.OfNotes : Event → Prop
  | .write w _ => WritesNotes w
  | .received key stored _ _ => ∀ data ∈ stored, NoteSchema key data
  | .answered _ | .refused => True

/-- The deletion of a note arrives, and the client reads the note by a patch. -/
def Event.DeletesPatched (c : Client) : Event → Prop
  | .received key none _ _ =>
      IsNote key ∧ ∃ overlay ∈ c.store.overlays key, overlay.mutation.isPatch = true
  | _ => False

/-- A right overlay that is a patch stands for edits of a note that is stored. -/
theorem NotesKept.edits_of_patch (kept : c.NotesKept) (note : IsNote key)
    (settled : c.store.SettledAt key) {overlay : Overlay DocumentReference String FieldValue}
    (here : c.store.overlays key = some overlay) (patch : overlay.mutation.isPatch = true) :
    (c.database.server.lookup key).isSome = true ∧ c.writes key ≠ [] ∧
      ∀ w ∈ c.writes key, ∃ text, w = .update key (detailsData text) := by
  have made := (settled.standsFor kept.linked.valid).overlayOf_eq here
  rw [Mutation.isPatch_overlayOf made] at patch
  have requests := kept.linked.pending key
  have edits : ∀ w ∈ c.writes key, ∃ text, w = .update key (detailsData text) := by
    intro w member
    obtain ⟨m, inside, holds⟩ := requests_of_mem requests member
    -- A write of the whole note would leave no patch.
    have masked : m.isPatch = true := by
      by_contra whole
      rw [Mutation.mask_replay_of_whole (plain_of_requests requests) inside (by simpa using whole)]
        at patch
      cases patch
    cases kept.noteWrite note w member with
    | note title details doc =>
      cases holds
      cases masked
    | details text => exact ⟨text, rfl⟩
    | delete =>
      cases holds
      cases masked
  have effective : Effective (c.writes key) (c.database.server.lookup key) := by
    rw [← kept.linked.hasLocalMutations_iff]
    by_contra untouched
    have none_made := (LocalStore.overlayOf_eq_none_iff kept.linked.valid key).mpr
      (by simpa using untouched)
    rw [LocalStore.overlayOf, made] at none_made
    cases none_made
  obtain ⟨w, member, there | other⟩ := effective
  · exact ⟨there, List.ne_nil_of_mem member, edits⟩
  · obtain ⟨text, rfl⟩ := edits w member
    exact absurd rfl (other _)

/-- Where the document is stored, pending writes have their effect. -/
theorem keepsAt_of_stored {e : Event} (there : (c'.database.server.lookup key).isSome = true) :
    KeepsAt key c e c' := by
  intro _
  cases writes : c'.writes key with
  | nil => exact Or.inr rfl
  | cons w rest => exact Or.inl ⟨w, by simp, Or.inl there⟩

/-- Only the arrival of its deletion takes a note away that has edits pending. -/
theorem keepsAt_of_edits {e : Event} (taken : c.step e = some c')
    (there : (c.database.server.lookup key).isSome = true)
    (edits : ∀ w ∈ c.writes key, ∃ text, w = .update key (detailsData text))
    (remains : ∀ version readTime, e ≠ .received key none version readTime) :
    KeepsAt key c e c' := by
  obtain ⟨_, _, _, _, changed⟩ := step_eq_some taken
  refine keepsAt_of_stored ?_
  cases e with
  | write w topLevel =>
    rw [← Option.some.inj changed]
    exact there
  | answered version =>
    obtain ⟨w, left, server⟩ := Queued.applyHead_eq_some changed
    rw [server, Write.lookup_apply]
    by_cases own : key = w.key
    · have member : w ∈ c.writes key := List.mem_filter.mpr ⟨left.mem, by simp [own]⟩
      obtain ⟨text, rfl⟩ := edits w member
      rw [if_pos own, Write.document, Option.isSome_map]
      exact there
    · rw [if_neg own]
      exact there
  | refused =>
    obtain ⟨w, _, server⟩ := Queued.refuseHead_eq_some changed
    rw [server]
    exact there
  | received other stored version readTime =>
    rw [(Event.change_received changed).2]
    by_cases own : key = other
    · subst own
      rw [if_pos rfl, Option.isSome_iff_ne_none]
      rintro rfl
      exact remains version readTime rfl
    · rw [if_neg own]
      exact there

/-- What the event writes to the document. -/
def Event.written (key : DocumentReference) : Event → List DatabaseWrite
  | .write w _ => if w.key = key then [w] else []
  | _ => []

/-- What the app writes and what the local store is given to write. -/
theorem Event.requests_written {e : Event}
    {call : LocalStore.Event DocumentReference String FieldValue}
    (called : e.call c.store = some call) (key : DocumentReference) :
    List.Forall₂ Requests (e.written key) (call.written key) := by
  cases e with
  | write w topLevel =>
    obtain ⟨m, made, rfl⟩ := Option.map_eq_some_iff.mp called
    have requests := requests_of_request topLevel made
    rw [written, LocalStore.Event.written]
    by_cases own : w.key = key
    · rw [if_pos own, List.filter_cons_of_pos (by simpa [requests.key] using own)]
      exact .cons requests .nil
    · rw [if_neg own, List.filter_cons_of_neg (by simpa [requests.key] using own)]
      exact .nil
  | answered version =>
    obtain ⟨batch, _, rfl⟩ := Option.map_eq_some_iff.mp called
    exact .nil
  | refused =>
    obtain ⟨batch, _, rfl⟩ := Option.map_eq_some_iff.mp called
    exact .nil
  | received other stored version readTime =>
    obtain rfl := Option.some.inj called
    exact .nil

/-- The note stays shown by an overlay that is right or of the whole note. -/
theorem NotesKept.shownAt_step (kept : c.NotesKept) (note : IsNote key) {e : Event}
    (taken : c.step e = some c') (ofNotes : e.OfNotes) (harmless : ¬ e.DeletesPatched c) :
    c'.ShownAt key := by
  obtain ⟨_, call, called, stepped, _⟩ := step_eq_some taken
  have linked' := kept.linked.step taken
  rcases kept.shown key note with settled | ⟨writes, mutations, all, requests, whole⟩
  · by_cases keeps : KeepsAt key c e c'
    · exact Or.inl (kept.linked.settledAt_step settled taken keeps)
    · obtain ⟨overlay, here, stale, _⟩ := LocalStore.overlays_of_not_keepsAt kept.linked.valid
        settled stepped (linked'.plainAt key)
        fun kept' => keeps ((kept.linked.keepsAt_iff taken called key).mp kept')
      cases patch : overlay.mutation.isPatch with
      | false =>
        have pending := kept.linked.pending key
        have stands : c.store.WholeAt key (c.store.mutationQueue.pending key) :=
          ⟨settled.standsFor kept.linked.valid, overlay, here, patch⟩
        exact Or.inr ⟨c.writes key, _, kept.noteWrite note, pending, stands.transfer
          kept.linked.valid linked'.valid (plain_of_requests pending) (stale.trans here.symm)⟩
      | true =>
        obtain ⟨there, _, edits⟩ := kept.edits_of_patch note settled here patch
        refine absurd (keepsAt_of_edits taken there edits ?_) keeps
        rintro version readTime rfl
        exact harmless ⟨note, overlay, here, patch⟩
  · have more := Event.requests_written called key
    have both : List.Forall₂ Requests (writes ++ e.written key) (mutations ++ call.written key) :=
      List.rel_append requests more
    refine (whole.step kept.linked.valid stepped (plain_of_requests both)).imp_right fun whole' =>
      ⟨_, _, fun w member => ?_, both, whole'⟩
    rcases List.mem_append.mp member with old | new
    · exact all w old
    · cases e with
      | write w' topLevel =>
        rw [Event.written] at new
        by_cases own : w'.key = key
        · rw [if_pos own, List.mem_singleton] at new
          subst new own
          exact ofNotes note
        · rw [if_neg own] at new
          cases new
      | _ => cases new

theorem NotesKept.step (kept : c.NotesKept) {e : Event} (taken : c.step e = some c')
    (ofNotes : e.OfNotes) (harmless : ¬ e.DeletesPatched c) : c'.NotesKept := by
  obtain ⟨_, _, _, _, changed⟩ := step_eq_some taken
  have invariant : c.database.Invariant NoteSchema :=
    ⟨kept.stored, fun _ w member => (kept.pending w member).respects⟩
  refine ⟨kept.linked.step taken, ?_, ?_, fun key note =>
    kept.shownAt_step note taken ofNotes harmless⟩
  · cases e with
    | write w topLevel =>
      rw [← Option.some.inj changed]
      exact kept.stored
    | answered version => exact (invariant.applyHead changed).1
    | refused => exact (invariant.refuseHead changed).1
    | received other stored version readTime =>
      intro key data found
      rw [(Event.change_received changed).2] at found
      by_cases own : key = other
      · subst own
        rw [if_pos rfl] at found
        exact ofNotes data found
      · rw [if_neg own] at found
        exact kept.stored key data found
  · intro w member
    cases e with
    | write w' topLevel =>
      rw [← Option.some.inj changed] at member
      rcases Queued.mem_pending_issue.mp member with old | ⟨_, rfl⟩
      · exact kept.pending w old
      · exact ofNotes
    | answered version =>
      obtain ⟨_, left, _⟩ := Queued.applyHead_eq_some changed
      exact kept.pending w ((left.sublist ()).subset member)
    | refused =>
      obtain ⟨_, left, _⟩ := Queued.refuseHead_eq_some changed
      exact kept.pending w ((left.sublist ()).subset member)
    | received other stored version readTime =>
      rw [(Event.change_received changed).1] at member
      exact kept.pending w member

/-- A document that the load loop can cast. -/
def CastableDocument (doc : ClientDocument) : Prop :=
  ∀ field ∈ ["title", "details", "doc"], ∃ text, doc.value.read field = some (.scalar (.string text))

theorem castable_iff_of_represents {doc : ClientDocument} {data : DocumentData}
    (represents : Represents doc (some data)) : CastableDocument doc ↔ Castable data := by
  refine forall₂_congr fun field _ => exists_congr fun text => ?_
  rw [represents.read, Option.bind_some, Option.map_eq_some_iff]
  simp

/-- What is listed can be cast. -/
theorem NotesKept.castable (kept : c.NotesKept) {notes : CollectionReference} {id : DocumentID}
    (note : IsNote (notes.listed id)) {doc : ClientDocument}
    (listed : c.listed notes id = some doc) : CastableDocument doc := by
  obtain ⟨stored, represents, castable⟩ := kept.represents note
  rw [kept.linked.listed_eq, Option.ite_none_right_eq_some, Option.some.injEq] at listed
  obtain ⟨found, rfl⟩ := listed
  obtain ⟨data, rfl⟩ := Option.isSome_iff_exists.mp (represents.found.symm.trans found)
  exact (castable_iff_of_represents represents).mpr (castable data rfl)

/-- A document that is set at a note is read as it was set. -/
theorem NotesKept.represents_set (kept : c.NotesKept) (note : IsNote key) {data : DocumentData}
    {topLevel : TopLevel (.set key data)}
    (taken : c.step (.write (.set key data) topLevel) = some c') :
    Represents (c'.store.getDocument key) (some data) := by
  obtain ⟨_, call, called, stepped, changed⟩ := step_eq_some taken
  have linked' := kept.linked.step taken
  have issued : c'.database = c.database.issue () (.set key data) := (Option.some.inj changed).symm
  have writes : c'.writes key = c.writes key ++ [.set key data] := by
    rw [Client.writes, Client.writes, issued]
    simp [Queued.issue, Write.key]
  have settled' (settled : c'.store.SettledAt key) :
      Represents (c'.store.getDocument key) (some data) := by
    have shown := (linked'.showsAt settled).1
    rw [Queued.view, lookup_overlay, ← Client.writes, writes, List.foldl_append] at shown
    exact shown
  rcases kept.shown key note with settled | ⟨before, mutations, _, requests, whole⟩
  · refine settled' (kept.linked.settledAt_step settled taken fun _ => Or.inl ?_)
    rw [writes]
    exact ⟨.set key data, by simp, Or.inr fun _ => by simp⟩
  · have written : Event.written key (.write (.set key data) topLevel) = [.set key data] :=
      if_pos rfl
    have both : List.Forall₂ Requests (before ++ [.set key data])
        (mutations ++ call.written key) := by
      rw [← written]
      exact List.rel_append requests (Event.requests_written called key)
    rcases whole.step kept.linked.valid stepped (plain_of_requests both) with settled | whole'
    · exact settled' settled
    · have replayed := (linked'.remote key).replay both (some [])
      rw [← whole'.stands.getDocument_eq linked'.valid (plain_of_requests both),
        List.foldl_append] at replayed
      exact replayed

/-- A profile that is stored among the notes is listed and cannot be cast. -/
theorem NotesKept.profile_not_castable (kept : c.NotesKept) {notes : CollectionReference}
    {id : DocumentID} (note : IsNote (notes.listed id)) {userRequest : RegisterUserRequest}
    {topLevel : TopLevel (.set (notes.listed id) (AuthService.registerData userRequest))}
    (taken : c.step (.write (.set (notes.listed id) (AuthService.registerData userRequest))
      topLevel) = some c') : ∃ doc, c'.listed notes id = some doc ∧ ¬ CastableDocument doc := by
  have represents := kept.represents_set note taken
  have listed : c'.listed notes id = some (c'.store.getDocument (notes.listed id)) := by
    rw [(kept.linked.step taken).listed_eq]
    exact if_pos represents.found
  refine ⟨_, listed, fun castable => ?_⟩
  obtain ⟨text, title⟩ := (castable_iff_of_represents represents).mp castable "title" (by simp)
  have missing : (AuthService.registerData userRequest).lookup "title" = none := rfl
  rw [missing] at title
  cases title

/-- A note that is deleted while the client reads it by a patch is listed and cannot be
cast. -/
theorem NotesKept.not_castable (kept : c.NotesKept) {notes : CollectionReference} {id : DocumentID}
    {version readTime : SnapshotVersion}
    (taken : c.step (.received (notes.listed id) none version readTime) = some c')
    (deletes : Event.DeletesPatched c (.received (notes.listed id) none version readTime)) :
    ∃ doc, c'.listed notes id = some doc ∧ ¬ CastableDocument doc := by
  obtain ⟨note, overlay, here, patch⟩ := deletes
  have settled : c.store.SettledAt (notes.listed id) := by
    rcases kept.shown _ note with settled | ⟨_, _, _, _, whole⟩
    · exact settled
    · obtain ⟨other, there, unpatched⟩ := whole.whole
      obtain rfl : other = overlay := Option.some.inj (there.symm.trans here)
      rw [patch] at unpatched
      cases unpatched
  obtain ⟨there, some_pending, edits⟩ := kept.edits_of_patch note settled here patch
  obtain ⟨current, _⟩ := step_eq_some taken
  obtain ⟨next, taken', _, doc, listed, _, reads⟩ :=
    kept.linked.deleted settled there current some_pending edits
  obtain rfl : next = c' := Option.some.inj (taken'.symm.trans taken)
  refine ⟨doc, listed, fun castable => ?_⟩
  obtain ⟨text, title⟩ := castable "title" (by simp)
  rw [reads, if_neg (by decide)] at title
  cases title

end Client

end QuickNote.Documents
