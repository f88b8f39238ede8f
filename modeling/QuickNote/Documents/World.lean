import QuickNote.Documents.ShownNotes

/-!
# Clients of one database

Every client of the app has a local store and a queue of its own.  The server goes
through the writes of each client in its order and the client hears of that later; what
other clients have changed arrives later too.  A load lists the notes of the local store.

The casts of the load loop are safe exactly if no account is registered whose profile is
stored among the notes, and no deletion of a note arrives at a client that reads the note
by a patch, which it does while only edits of the note are pending.
-/

namespace QuickNote.Documents

open Firestore DocumentStore

/-- The client that writes, and its write. -/
def Event.issued (e : Event) : Option (ℕ × Client.Event) :=
  e.write.pmap (fun issued topLevel => (issued.1, .write issued.2 topLevel))
    fun _ issued => (allowed_of_issued issued).1

/-- The server and the clients. -/
structure World where
  server : Database
  /-- What the server has held before. -/
  past : List Database
  clients : ℕ → Client
  /-- Whether the server has applied the oldest pending writes of a client, which has
  not been told. -/
  answers : ℕ → List Bool

namespace World

inductive Event where
  | app (e : Documents.Event)
  /-- The server applies or refuses the next write of a client. -/
  | decided (client : ℕ) (applied : Bool)
  /-- The client hears what has become of its oldest write. -/
  | answered (client : ℕ) (version : SnapshotVersion)
  /-- The client hears of a document as the server has it or had it. -/
  | received (client : ℕ) (key : DocumentReference) (stored : Option DocumentData)
      (version readTime : SnapshotVersion)

/-- The account whose address is used. -/
def Event.email : Event → Option String
  | .app e => e.email
  | _ => none

/-- The client takes a step. -/
def react (self : World) (client : ℕ) (e : Client.Event) : Option World :=
  ((self.clients client).step e).map fun c =>
    { self with clients := Function.update self.clients client c }

def act (self : World) : Event → Option World
  | .app e => do
      let (client, write) ← e.issued
      self.react client write
  | .decided client applied => do
      let write ← ((self.clients client).database.pending ())[(self.answers client).length]?
      return { self with
        server := if applied then write.apply self.server else self.server
        past := self.server :: self.past
        answers := Function.update self.answers client (self.answers client ++ [applied]) }
  | .answered client version =>
      match self.answers client with
      | [] => none
      | applied :: rest =>
        { self with answers := Function.update self.answers client rest }.react client
          (if applied then .answered version else .refused)
  | .received client key stored version readTime =>
      if ∃ database ∈ self.server :: self.past, database.lookup key = stored then
        self.react client (.received key stored version readTime)
      else none

/-- Accounts have addresses of the given kind only. -/
def step (address : String → Prop) [DecidablePred address] (self : World) (e : Event) :
    Option World :=
  if ∀ email ∈ e.email, address email then self.act e else none

/-- The database starts empty, and no client knows anything. -/
def system (address : String → Prop) [DecidablePred address] : EventSystem World Event where
  init :=
    { server := ∅, past := [], clients := fun _ => Client.system.init, answers := fun _ => [] }
  step := step address

/-- Whatever a client lists for an account has the three fields as strings, and the load
loop goes through any list of it. -/
def Loadable (address : String → Prop) (w : World) : Prop :=
  ∀ client email, address email → ∀ notes ∈ collection (notesPath email),
    (∀ id, ∀ doc ∈ (w.clients client).listed notes id, Client.CastableDocument doc) ∧
    ∀ documents cached,
      (∀ document ∈ documents, ∃ doc ∈ (w.clients client).listed notes document.documentID,
        Represents doc (some document.data)) →
      (DataSource.appendNotes notes documents cached).isSome

/-- An account is registered whose profile is stored among the notes, or the deletion of
a note arrives at a client that reads the note by a patch. -/
def Event.Spoils (w : World) : Event → Prop
  | .app (.registerUser _ userRequest) => ProfileIsNote userRequest.email
  | .received client key stored version readTime =>
      Client.Event.DeletesPatched (w.clients client) (.received key stored version readTime)
  | _ => False

/-- The profile of a Google account is merged into a note. -/
def Event.MergesNote : Event → Prop
  | .app (.googleSignIn _ user) => ∃ profile ∈ user.profile, ProfileIsNote profile.email
  | _ => False

/-- The notes in the database and at the clients can be cast. -/
structure Kept (w : World) : Prop where
  server : ∀ database ∈ w.server :: w.past, Holds NoteSchema database
  clients : ∀ client, (w.clients client).NotesKept

theorem kept_init : (system OneAt).init.Kept where
  server := by
    intro database member
    obtain rfl := List.mem_singleton.mp member
    intro key data found
    simp [system] at found
  clients := fun _ => Client.notesKept_init

variable {w w' : World}

theorem react_eq_some {client : ℕ} {e : Client.Event} (taken : w.react client e = some w') :
    w'.server = w.server ∧ w'.past = w.past ∧
      (w.clients client).step e = some (w'.clients client) ∧
      ∀ other, other ≠ client → w'.clients other = w.clients other := by
  obtain ⟨c, stepped, rfl⟩ := Option.map_eq_some_iff.mp taken
  refine ⟨rfl, rfl, ?_, fun other different => Function.update_of_ne different _ _⟩
  rw [stepped]
  simp

theorem Kept.react (kept : w.Kept) {client : ℕ} {e : Client.Event}
    (taken : w.react client e = some w') (ofNotes : e.OfNotes)
    (harmless : ¬ e.DeletesPatched (w.clients client)) : w'.Kept := by
  obtain ⟨server, past, stepped, others⟩ := react_eq_some taken
  refine ⟨by rw [server, past]; exact kept.server, fun other => ?_⟩
  by_cases own : other = client
  · subst own
    exact (kept.clients other).step stepped ofNotes harmless
  · rw [others other own]
    exact kept.clients other

theorem act_app {e : Documents.Event} (taken : w.act (.app e) = some w') :
    ∃ client write topLevel, e.write = some (client, write) ∧
      w.react client (.write write topLevel) = some w' := by
  obtain ⟨⟨client, event⟩, issued, reacted⟩ := Option.bind_eq_some_iff.mp taken
  obtain ⟨⟨writer, write⟩, topLevel, written, same⟩ := Option.pmap_eq_some_iff.mp issued
  obtain ⟨rfl, rfl⟩ := Prod.mk.inj same
  exact ⟨client, write, topLevel, written, reacted⟩

/-- No profile is stored among the notes by a step that spoils none and merges none. -/
theorem not_profileIsNote_of_harmless {e : Documents.Event} (apart : ¬ (Event.app e).MergesNote)
    (harmless : ¬ (Event.app e).Spoils w) : ∀ email ∈ e.profileEmail, ¬ ProfileIsNote email := by
  intro email stored note
  cases e with
  | registerUser _ userRequest =>
    obtain rfl := Option.some.inj stored
    exact harmless note
  | googleSignIn _ user =>
    obtain ⟨profile, given, rfl⟩ := Option.map_eq_some_iff.mp stored
    exact apart ⟨profile, given, note⟩
  | _ => cases stored

/-- A step that does not spoil the notes keeps them castable. -/
theorem Kept.step (kept : w.Kept) {e : Event} (taken : w.act e = some w')
    (apart : ¬ e.MergesNote) (harmless : ¬ e.Spoils w) : w'.Kept := by
  cases e with
  | app e =>
    obtain ⟨client, write, topLevel, written, reacted⟩ := act_app taken
    exact kept.react reacted
      (writesNotes_of_issued (not_profileIsNote_of_harmless apart harmless) written) id
  | decided client applied =>
    obtain ⟨write, next, same⟩ := Option.bind_eq_some_iff.mp taken
    obtain rfl := Option.some.inj same
    have holds : Holds NoteSchema w.server := kept.server w.server (by simp)
    have respects : write.Respects NoteSchema :=
      ((kept.clients client).pending write (List.mem_of_getElem? next)).respects
    refine ⟨fun database member => ?_, kept.clients⟩
    rcases List.mem_cons.mp member with rfl | earlier
    · cases applied with
      | true => exact holds.apply respects
      | false => exact holds
    · exact kept.server database earlier
  | answered client version =>
    cases told : w.answers client with
    | nil => simp [act, told] at taken
    | cons applied rest =>
      simp only [act, told] at taken
      have still : ({ w with answers := Function.update w.answers client rest } : World).Kept :=
        ⟨kept.server, kept.clients⟩
      cases applied with
      | true => exact still.react taken trivial id
      | false => exact still.react taken trivial id
  | received client key stored version readTime =>
    rw [act, Option.ite_none_right_eq_some] at taken
    obtain ⟨⟨database, held, rfl⟩, reacted⟩ := taken
    exact kept.react reacted (kept.server database held key) harmless

/-- Notes that can be cast are loaded. -/
theorem Kept.loadable (kept : w.Kept) : w.Loadable OneAt := by
  intro client email one notes parsed
  have castable : ∀ id, ∀ doc ∈ (w.clients client).listed notes id, Client.CastableDocument doc :=
    fun id doc listed =>
      (kept.clients client).castable ⟨email, notes, id, one, parsed, rfl⟩ listed
  refine ⟨castable, fun documents cached listed =>
    appendNotes_isSome (fun document member => ?_) cached⟩
  obtain ⟨doc, there, represents⟩ := listed document member
  exact (Client.castable_iff_of_represents represents).mp (castable _ doc there)

/-- After a step the notes can be loaded exactly if it does not spoil them. -/
theorem Kept.loadable_iff (kept : w.Kept) {e : Event} (taken : w.act e = some w')
    (apart : ¬ e.MergesNote) : w'.Loadable OneAt ↔ ¬ e.Spoils w := by
  constructor
  · intro loadable spoils
    cases e with
    | app e =>
      cases e with
      | registerUser client userRequest =>
        obtain ⟨users, key, parsed, found, email, notes, id, one, listing, rfl⟩ := spoils
        obtain ⟨writer, write, topLevel, written, reacted⟩ := act_app taken
        rw [write_registerUser parsed found] at written
        cases written
        obtain ⟨_, _, stepped, _⟩ := react_eq_some reacted
        obtain ⟨doc, listed, trapped⟩ := (kept.clients client).profile_not_castable
          ⟨email, notes, id, one, listing, rfl⟩ stepped
        exact trapped ((loadable client email one notes listing).1 id doc listed)
      | _ => exact spoils
    | received client key stored version readTime =>
      rw [act, Option.ite_none_right_eq_some] at taken
      obtain ⟨_, _, stepped, _⟩ := react_eq_some taken.2
      cases stored with
      | some fields => exact spoils
      | none =>
        obtain ⟨email, notes, id, one, parsed, rfl⟩ := spoils.1
        obtain ⟨doc, listed, trapped⟩ := (kept.clients client).not_castable stepped spoils
        exact trapped ((loadable client email one notes parsed).1 id doc listed)
    | _ => exact spoils
  · intro harmless
    exact (kept.step taken apart harmless).loadable

/-- Along every run in which no profile of a Google account is merged into a note, every
load of every client goes through in every state, exactly if no account is registered
whose profile is stored among the notes and no step brings the deletion of a note to a
client that reads the note by a patch. -/
theorem always_loadable_iff {events : List Event} (apart : ∀ e ∈ events, ¬ e.MergesNote) :
    (system OneAt).Always (Loadable OneAt) events ↔
      (system OneAt).EveryStep (fun w e _ => ¬ e.Spoils w) events := by
  refine (EventSystem.everyStep_of_forall_mem apart).always_iff (J := Kept)
    kept_init.loadable kept_init ?_ ?_
  · intro w e w' _ kept taken apart _ loadable
    have acted : w.act e = some w' := (Option.ite_none_right_eq_some.mp taken).2
    exact kept.step acted apart ((kept.loadable_iff acted apart).mp loadable)
  · intro w e w' _ _ kept taken apart
    exact kept.loadable_iff (Option.ite_none_right_eq_some.mp taken).2 apart

def filledSheet : AddNoteViewController :=
  { titleTextField := some "t", detailsTextView := some "d" }

/-- A note with new details. -/
def someDetail : DetailViewController where
  note := ⟨Client.someNote, "t", "d", "", Client.someNotes.listed Client.someNote⟩
  noteDetailText := "e"
  isEditable := true
  saveButtonIsHidden := false

def registered : RegisterUserRequest := ⟨"u", "a@b", "p"⟩

def signedIn : GoogleUser := ⟨some "t", some ⟨"u", "a@b"⟩⟩

/-- An account is registered on one device and used on another, and a note that is added
on the one is heard of on the other. -/
def added : List Event :=
  [.app (.registerUser 0 registered), .decided 0 true, .answered 0 1,
    .app (.googleSignIn 1 signedIn), .decided 1 true, .answered 1 2,
    .app (.addButtonPressed 0 "a@b" filledSheet Client.someNote), .decided 0 true, .answered 0 3,
    .received 1 (Client.someNotes.listed Client.someNote) (some (noteData "t" "d" "")) 3 4]

/-- Its details are saved on the one and it is deleted on the other, and the deletion
reaches the server before the details do. -/
def deletedWhileSaving : List Event :=
  added ++ [.app (.saveButtonPressed 0 "a@b" someDetail),
    .app (.deleteConfirmed 1 "a@b" someDetail), .decided 1 true,
    .received 0 (Client.someNotes.listed Client.someNote) none 5 5]

theorem always_loadable_iff_added : (system OneAt).Always (Loadable OneAt) added := by
  have plain : ¬ ProfileIsNote "a@b" := not_profileIsNote (by decide)
  refine (always_loadable_iff fun e member merges => ?_).mpr
    fun before e w w' pre _ _ spoils => ?_
  · simp only [added, List.mem_cons, List.not_mem_nil, or_false] at member
    rcases member with rfl | rfl | rfl | rfl | rfl | rfl | rfl | rfl | rfl | rfl
    case inr.inr.inr.inl =>
      obtain ⟨profile, given, note⟩ := merges
      obtain rfl := Option.some.inj given
      exact plain note
    all_goals exact merges
  · have member : e ∈ added := pre.subset (by simp)
    simp only [added, List.mem_cons, List.not_mem_nil, or_false] at member
    rcases member with rfl | rfl | rfl | rfl | rfl | rfl | rfl | rfl | rfl | rfl
    case inl => exact plain spoils
    all_goals exact spoils

/-- The device that saves still lists the note, without title. -/
theorem deletedWhileSaving_not_loadable :
    ¬ ∀ events, (system OneAt).Always (Loadable OneAt) events := by
  intro all
  have shown : (((system OneAt).run deletedWhileSaving).bind fun w =>
      ((w.clients 0).listed Client.someNotes Client.someNote).map fun doc =>
        (doc.value.read "title").isNone) = some true := by
    decide +kernel
  obtain ⟨w, run, shown⟩ := Option.bind_eq_some_iff.mp shown
  obtain ⟨doc, listed, untitled⟩ := Option.map_eq_some_iff.mp shown
  have parsed : collection (notesPath "a@b") = some Client.someNotes := by decide
  have castable := (all _ _ _ List.prefix_rfl run 0 "a@b" (by decide) _ parsed).1 _ doc listed
  obtain ⟨text, title⟩ := castable "title" (by simp)
  rw [title] at untitled
  cases untitled

end World

end QuickNote.Documents
