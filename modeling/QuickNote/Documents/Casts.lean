import QuickNote.Library.EventSystem
import QuickNote.AddNote.Source
import QuickNote.Auth.Source
import QuickNote.NoteList.Source

/-!
# The casts of the load loop

Every writer of the database at once: clients of any accounts register, sign in
with Google, add, save and delete, their writes are queued and reach the server in
each client's order.  The load loop casts three fields of every listed document to
strings.  Notes are created whole and edits create nothing, so the casts are safe
as long as no profile document, whose path is made of an address, lies among the
notes of an account.
-/

namespace QuickNote.Documents

open Firestore DocumentStore Segments

/-- What a client does that writes to the database, and what becomes of queued
writes. -/
inductive Event where
  /-- `createUser` has succeeded; the profile is stored. -/
  | registerUser (client : Nat) (userRequest : RegisterUserRequest)
  | googleSignIn (client : Nat) (user : GoogleUser)
  | addButtonPressed (client : Nat) (email : String) (sheet : AddNoteViewController)
      (uuid : DocumentID)
  | saveButtonPressed (client : Nat) (email : String) (detail : DetailViewController)
  | deleteConfirmed (client : Nat) (email : String) (detail : DetailViewController)
  | writeApplied (client : Nat)
  | writeRefused (client : Nat)

/-- The account whose address is used. -/
def Event.email : Event → Option String
  | .registerUser _ userRequest => some userRequest.email
  | .googleSignIn _ user => user.profile.map GoogleProfile.email
  | .addButtonPressed _ email _ _ | .saveButtonPressed _ email _ | .deleteConfirmed _ email _ =>
      some email
  | .writeApplied _ | .writeRefused _ => none

abbrev State := Queued Nat DocumentReference String FieldValue

/-- The client that writes and its write; none when the process traps. -/
def Event.write : Event → Option (Nat × DatabaseWrite)
  | .registerUser client userRequest =>
      match AuthService.createUserCompletion userRequest (some userRequest.email) none with
      | some (.setData write) => some (client, write)
      | _ => none
  | .googleSignIn client user => do
      let (write, _) ← ViewController.signInCompletion true user none
      return (client, ← write)
  | .addButtonPressed client email sheet uuid => do
      return (client, ← ← sheet.addButtonPressed (some email) uuid)
  | .saveButtonPressed client email detail => do
      let (_, write) ← detail.saveButtonPressed (some email)
      return (client, ← write)
  | .deleteConfirmed client email detail => do
      return (client, ← ← detail.deleteConfirmed (some email))
  | .writeApplied _ | .writeRefused _ => none

/-- Accounts have addresses of the given kind only. -/
def step (address : String → Prop) [DecidablePred address] (s : State) (e : Event) :
    Option State :=
  if ∀ email ∈ e.email, address email then
    match e with
    | .writeApplied client => s.applyHead client
    | .writeRefused client => s.refuseHead client
    | e => do
        let (client, write) ← e.write
        return s.issue client write
  else none

/-- The database starts empty. -/
def system (address : String → Prop) [DecidablePred address] : EventSystem State Event where
  init := { server := ∅, pending := fun _ => [] }
  step := step address

/-- The three casts of the load loop succeed on the document. -/
def Castable (data : DocumentData) : Prop :=
  ∀ field ∈ ["title", "details", "doc"], ∃ text, data.lookup field = some (.string text)

/-- Whatever a client can list for an account has the three fields as strings, and
the load loop goes through it in any order. -/
def Loadable (address : String → Prop) (s : State) : Prop :=
  ∀ client email, address email → ∀ notes ∈ collection (notesPath email),
    (∀ document ∈ documentsOf notes (s.view client), Castable document.data) ∧
    ∀ documents cached, documents.Perm (documentsOf notes (s.view client)) →
      (DataSource.appendNotes notes documents cached).isSome

/-- An address with exactly one at sign. -/
def OneAt (email : String) : Prop := email.toList.count '@' = 1

/-- An address with exactly one at sign and no slash after it. -/
def PlainDomain (email : String) : Prop :=
  OneAt email ∧ '/' ∉ email.toList.dropWhile (· ≠ '@')

instance : DecidablePred OneAt := fun _ => inferInstanceAs (Decidable (_ = _))

instance : DecidablePred PlainDomain := fun _ => inferInstanceAs (Decidable (_ ∧ _))

/-! ## What is written for an account -/

/-- A write of the app for the account of an address: its profile, a new note, new
details of a note, or the deletion of one. -/
inductive Written (email : String) : DatabaseWrite → Prop where
  | profile {write : DatabaseWrite} (users : CollectionReference)
      (parsed : collection "users" = some users)
      (found : users.document email = some write.key) : Written email write
  | note (users : CollectionReference) (uuid : DocumentID) (document : DocumentReference)
      (title details doc : String) (parsed : collection "users" = some users)
      (found : users.document (email ++ "/Notes/" ++ uuid.name) = some document) :
      Written email (.set document (noteData title details doc))
  | details (detail : DetailViewController) (document : DocumentReference) (text : String)
      (found : detail.document email = some document) :
      Written email (.update document [⟨"details", .string text⟩].toAList)
  | delete (detail : DetailViewController) (document : DocumentReference)
      (found : detail.document email = some document) : Written email (.delete document)

/-- Every event that writes does so for an account. -/
theorem written_of_issued {e : Event} {client : Nat} {write : DatabaseWrite}
    (issued : e.write = some (client, write)) :
    ∃ email, e.email = some email ∧ Written email write := by
  cases e with
  | registerUser _ userRequest =>
    refine ⟨userRequest.email, rfl, ?_⟩
    cases parsed : collection "users" with
    | none => simp [Event.write, AuthService.createUserCompletion, parsed] at issued
    | some users =>
      cases found : users.document userRequest.email with
      | none => simp [Event.write, AuthService.createUserCompletion, parsed, found] at issued
      | some document =>
        simp only [Event.write, AuthService.createUserCompletion, parsed, found,
          Option.bind_eq_bind, Option.bind_some, Option.pure_def, Option.some.injEq,
          Prod.mk.injEq] at issued
        obtain ⟨_, rfl⟩ := issued
        exact .profile users parsed found
  | googleSignIn _ user =>
    cases profile : user.profile with
    | none => simp [Event.write, ViewController.signInCompletion, profile] at issued
    | some given =>
      refine ⟨given.email, by simp [Event.email, profile], ?_⟩
      simp only [Event.write, ViewController.signInCompletion, profile, Option.map_some,
        Option.bind_eq_bind, Option.bind_eq_some_iff, Option.pure_def, Option.some.injEq,
        Prod.mk.injEq] at issued
      obtain ⟨_, ⟨users, parsed, document, found, rfl⟩, write, made, _, rfl⟩ := issued
      cases made
      exact .profile users parsed found
  | addButtonPressed _ email sheet uuid =>
    obtain ⟨made, ran, issued⟩ := Option.bind_eq_some_iff.mp issued
    obtain ⟨users, document, parsed, found, rfl⟩ :=
      AddNoteViewController.addButtonPressed_eq_some ran
    cases issued
    exact ⟨email, rfl, .note users uuid document _ _ _ parsed found⟩
  | saveButtonPressed _ email detail =>
    obtain ⟨⟨after, made⟩, ran, issued⟩ := Option.bind_eq_some_iff.mp issued
    obtain ⟨document, found, _, rfl⟩ := DetailViewController.saveButtonPressed_eq_some ran
    cases issued
    exact ⟨email, rfl, .details detail document _ found⟩
  | deleteConfirmed _ email detail =>
    obtain ⟨made, ran, issued⟩ := Option.bind_eq_some_iff.mp issued
    obtain ⟨document, found, rfl⟩ := DetailViewController.deleteConfirmed_eq_some ran
    cases issued
    exact ⟨email, rfl, .delete detail document found⟩
  | writeApplied _ => cases issued
  | writeRefused _ => cases issued

/-! ## Profiles and notes are apart -/

/-- A document of the notes of some account. -/
def IsNote (key : DocumentReference) : Prop :=
  ∃ email notes id, OneAt email ∧ collection (notesPath email) = some notes ∧
    key = notes.listed id

/-- No slash follows the at sign. -/
theorem PlainDomain.split {email : String} (plain : PlainDomain email) :
    ∃ front back, email.toList = front ++ '@' :: back ∧ '/' ∉ back := by
  have member : '@' ∈ email.toList := by
    apply List.count_pos_iff.mp
    rw [show email.toList.count '@' = 1 from plain.1]
    exact Nat.one_pos
  obtain ⟨front, back, shape, absent⟩ := List.eq_append_cons_of_mem member
  have dropped : email.toList.dropWhile (· ≠ '@') = '@' :: back := by
    rw [shape, List.dropWhile_append_of_pos]
    · simp
    · intro c inside
      exact decide_eq_true (fun same : c = '@' => absent (same ▸ inside))
  refine ⟨front, back, shape, ?_⟩
  intro inside
  apply plain.2
  rw [dropped]
  exact List.mem_cons_of_mem _ inside

/-- The at sign of an address lies in its last segment. -/
theorem PlainDomain.last_segment {email : String} (plain : PlainDomain email) :
    ∃ init last, segments '/' email.toList = init ++ [last] ∧ '@' ∈ last := by
  obtain ⟨front, back, shape, tail⟩ := plain.split
  rw [shape]
  exact last_segment_of_not_mem (by decide) front back tail

theorem count_segments (email : String) :
    (segments '/' email.toList).flatten.count '@' = email.toList.count '@' :=
  count_flatten_segments (by decide) _

/-- A profile never lies where a note does: the one at sign of its address is in its
last segment. -/
theorem segments_profile_ne {email owner : String} (plain : PlainDomain email)
    (ownerOne : OneAt owner) (id : DocumentID) :
    "users" :: segmentsOf email ≠ segmentsOf (notesPath owner) ++ [id.name] := by
  intro path
  rw [segmentsOf_notesPath] at path
  have pieces : segments '/' email.toList =
      segments '/' owner.toList ++ ["Notes".toList] ++ [id.name.toList] := by
    have chars := congrArg (List.map String.toList) path
    simpa [segmentsOf, Function.comp_def] using chars
  obtain ⟨init, last, shape, member⟩ := plain.last_segment
  have final : last = id.name.toList := by
    rw [shape] at pieces
    exact List.singleton_inj.mp (List.append_inj' pieces rfl).2
  have counted := congrArg (fun pieces => pieces.flatten.count '@') pieces
  simp only [List.flatten_append, List.count_append, count_segments] at counted
  have one : email.toList.count '@' = 1 := plain.1
  have ownersOne : owner.toList.count '@' = 1 := ownerOne
  have positive : 0 < [id.name.toList].flatten.count '@' := by
    rw [List.count_pos_iff]
    simpa [← final] using member
  omega

/-- The profile of an address is not among the notes of any account. -/
theorem not_isNote_of_profile {email : String} {users : CollectionReference}
    {key : DocumentReference} (plain : PlainDomain email)
    (parsed : collection "users" = some users) (found : users.document email = some key) :
    ¬ IsNote key := by
  rintro ⟨owner, notes, id, ownerOne, listed, rfl⟩
  have path := (document_eq_some found).2
  rw [listed_path, (collection_eq_some listed).2, path_of_users parsed] at path
  exact segments_profile_ne plain ownerOne id path.symm

/-! ## Every writer keeps the notes castable -/

/-- Documents among the notes have the three fields as strings. -/
def NoteSchema (key : DocumentReference) (data : DocumentData) : Prop :=
  IsNote key → Castable data

theorem castable_noteData (title details doc : String) : Castable (noteData title details doc) := by
  intro field member
  simp only [List.mem_cons, List.not_mem_nil, or_false] at member
  rcases member with rfl | rfl | rfl
  · exact ⟨title, rfl⟩
  · exact ⟨details, rfl⟩
  · exact ⟨doc, rfl⟩

/-- Changing the details keeps the other two fields. -/
theorem Castable.details {data : DocumentData} (castable : Castable data) (details : String) :
    Castable ([⟨"details", .string details⟩].toAList ∪ data) := by
  intro field member
  by_cases changed : field = "details"
  · subst changed
    exact ⟨details, rfl⟩
  · obtain ⟨text, found⟩ := castable field member
    refine ⟨text, ?_⟩
    rw [AList.lookup_union_right]
    · exact found
    · rw [← AList.lookup_eq_none, AList.lookup_to_alist]
      simp [changed]

theorem respects_of_not_isNote {write : DatabaseWrite} (apart : ¬ IsNote write.key) :
    write.Respects NoteSchema :=
  fun _ _ _ _ note => absurd note apart

theorem respects_noteData (key : DocumentReference) (title details doc : String) :
    Write.Respects NoteSchema (.set key (noteData title details doc)) := by
  intro old _ fields made _
  cases made
  exact castable_noteData title details doc

/-- An edit changes a document that is there and creates none. -/
theorem respects_details (key : DocumentReference) (details : String) :
    Write.Respects NoteSchema (.update key [⟨"details", .string details⟩].toAList) := by
  intro old holds fields made note
  obtain ⟨before, found, rfl⟩ := Option.map_eq_some_iff.mp made
  exact (holds before found note).details details

theorem respects_delete (key : DocumentReference) :
    Write.Respects NoteSchema (.delete key : DatabaseWrite) := by
  intro old _ fields made
  cases made

/-- Every write that an event issues keeps the notes castable. -/
theorem respects_write {e : Event} {client : Nat} {write : DatabaseWrite}
    (addresses : ∀ email ∈ e.email, PlainDomain email) (issued : e.write = some (client, write)) :
    write.Respects NoteSchema := by
  obtain ⟨email, account, written⟩ := written_of_issued issued
  have plain : PlainDomain email := addresses email account
  cases written with
  | profile users parsed found =>
    exact respects_of_not_isNote (not_isNote_of_profile plain parsed found)
  | note users uuid document title details doc parsed found =>
    exact respects_noteData document title details doc
  | details detail document text found => exact respects_details document text
  | delete detail document found => exact respects_delete document

/-- The schema of the notes holds of what is stored and of what is queued. -/
theorem noteSchema_step {s t : State} {e : Event} (holds : s.Invariant NoteSchema)
    (taken : step PlainDomain s e = some t) : t.Invariant NoteSchema := by
  unfold step at taken
  by_cases addresses : ∀ email ∈ e.email, PlainDomain email
  · rw [if_pos addresses] at taken
    have issues : ((do
        let (client, write) ← e.write
        return s.issue client write) : Option State) = some t → t.Invariant NoteSchema := by
      intro taken
      obtain ⟨⟨client, write⟩, issued, taken⟩ := Option.bind_eq_some_iff.mp taken
      cases taken
      exact holds.issue (respects_write addresses issued)
    cases e with
    | writeApplied client => exact holds.applyHead taken
    | writeRefused client => exact holds.refuseHead taken
    | _ => exact issues taken
  · rw [if_neg addresses] at taken
    cases taken

theorem noteSchema {s : State} (reachable : (system PlainDomain).Reachable s) :
    s.Invariant NoteSchema := by
  refine reachable.invariant ?_ (fun s e t holds taken => noteSchema_step holds taken)
  refine ⟨?_, ?_⟩
  · intro key fields found
    simp [system] at found
  · intro client write member
    simp [system] at member

/-- The load loop goes through castable documents. -/
theorem appendNotes_isSome {notes : CollectionReference} {documents : List Document}
    (castable : ∀ document ∈ documents, Castable document.data) (cached : List Note) :
    (DataSource.appendNotes notes documents cached).isSome := by
  induction documents generalizing cached with
  | nil => rfl
  | cons document documents ih =>
    obtain ⟨title, hasTitle⟩ := castable document (by simp) "title" (by simp)
    obtain ⟨details, hasDetails⟩ := castable document (by simp) "details" (by simp)
    obtain ⟨doc, hasDoc⟩ := castable document (by simp) "doc" (by simp)
    have made : Note.ofDocument notes document =
        some ⟨document.documentID, title, details, doc, notes.listed document.documentID⟩ := by
      simp [Note.ofDocument, DocumentData.string, hasTitle, hasDetails, hasDoc,
        FieldValue.asString]
    simp only [DataSource.appendNotes, made, Option.bind_eq_bind, Option.bind_some]
    exact ih (fun other member => castable other (List.mem_cons_of_mem _ member)) _

/-- In every run of clients whose addresses have one at sign and no slash after it,
whatever a client can list for an account passes the casts of the load loop, if it lists
the documents of the server with its queue replayed on them.  The local store of a
client lists by saved overlays instead, with which this does not hold:
`Client.note_after_deletion`. -/
theorem loadable (events : List Event) :
    (system PlainDomain).Always (Loadable PlainDomain) events := by
  intro before s _ run client email plain notes listed
  have readable := (noteSchema ⟨before, run⟩).view client
  have castable : ∀ document ∈ documentsOf notes (s.view client), Castable document.data := by
    intro document member
    have stored := mem_documentsOf.mp member
    exact readable _ _ stored ⟨email, notes, document.documentID, plain.1, listed, rfl⟩
  refine ⟨castable, ?_⟩
  intro documents cached same
  exact appendNotes_isSome (fun document member => castable document (same.mem_iff.mp member))
    cached

def slashAfterAt : RegisterUserRequest :=
  { username := "x", email := "a@b/Notes/x", password := "secret" }

/-- The profile of `a@b/Notes/x` on its way to the server. -/
def profileAmongNotes : State :=
  (system OneAt).init.issue 0 (.set ⟨["users", "a@b", "Notes", "x"], rfl⟩
    (AuthService.registerData slashAfterAt))

/-- It is listed among the notes of `a@b`. -/
theorem slashAfterAt_not_loadable :
    ¬ ∀ events, (system OneAt).Always (Loadable OneAt) events := by
  intro all
  have run : (system OneAt).Reaches [.registerUser 0 slashAfterAt] profileAmongNotes := by
    rfl
  have listed : collection (notesPath "a@b") = some ⟨["users", "a@b", "Notes"], rfl⟩ := by
    decide
  have member : ⟨⟨"x", by decide, by decide⟩, AuthService.registerData slashAfterAt⟩ ∈
      documentsOf ⟨["users", "a@b", "Notes"], rfl⟩ (profileAmongNotes.view 0) := by
    rw [mem_documentsOf]
    rfl
  have castable := (all _ _ _ List.prefix_rfl run 0 "a@b" (by decide) _ listed).1 _ member
  obtain ⟨text, found⟩ := castable "title" (by simp)
  have missing : (AuthService.registerData slashAfterAt).lookup "title" = none := by decide
  rw [missing] at found
  cases found

end QuickNote.Documents
