import QuickNote.Documents.Casts
import QuickNote.Firestore.LocalViews
import QuickNote.Firestore.UserData

/-!
# Writes of the app as mutations

The Firestore client makes a mutation of every write of the app.  Applied to a
document of the client, the mutation does to the fields what the write does to the
stored ones.
-/

namespace QuickNote.Documents

open Firestore DocumentStore

abbrev Request := Mutation DocumentReference String FieldValue

abbrev ClientDocument := MutableDocument DocumentReference String FieldValue

/-- The entries of the dictionary that is written. -/
def pairs (fields : DocumentData) : List (String × FieldValue) :=
  fields.entries.map fun e => (e.1, e.2)

theorem keys_pairs (fields : DocumentData) : (pairs fields).map Prod.fst = fields.keys := by
  rw [pairs, List.map_map]
  rfl

theorem nodup_pairs (fields : DocumentData) : ((pairs fields).map Prod.fst).Nodup := by
  rw [keys_pairs]
  exact fields.keys_nodup

def dictionary (fields : DocumentData) : Dictionary String FieldValue :=
  .flat (pairs fields) (nodup_pairs fields)

/-- The mutation that is made of a write; none when the client throws. -/
def request : DatabaseWrite → Option Request
  | .set key fields => DocumentReference.setData key (dictionary fields) false
  | .merge key fields => DocumentReference.setData key (dictionary fields) true
  | .update key fields =>
      DocumentReference.updateData key
        ((pairs fields).map fun e => (e.1, ⟨.scalar e.2, .scalar e.2⟩))
  | .delete key => some (DocumentReference.deleteDocument key)

/-- `updateData` takes names with dots for paths into a document. -/
def TopLevel : DatabaseWrite → Prop
  | .update _ fields => ∀ field ∈ fields, FieldPath.fromDotSeparatedString field = .ok [field]
  | _ => True

/-- A document of the client is there exactly if it is stored, and with the stored
fields. -/
structure Represents (doc : ClientDocument) (stored : Option DocumentData) : Prop where
  found : doc.isFoundDocument = stored.isSome
  read : ∀ field, doc.value.read field = (stored.bind (·.lookup field)).map .scalar

/-- The mutation of a write. -/
inductive Requests : DatabaseWrite → Request → Prop where
  | set (key : DocumentReference) (fields : DocumentData) :
      Requests (.set key fields) ⟨key, .none, .set (dictionary fields).toObjectValue⟩
  | merge (key : DocumentReference) (fields : DocumentData) :
      Requests (.merge key fields)
        ⟨key, .none, .patch (dictionary fields).toObjectValue (flatMask (pairs fields))⟩
  | update (key : DocumentReference) (fields : DocumentData) :
      Requests (.update key fields)
        ⟨key, .exist true, .patch (dictionary fields).toObjectValue (flatMask (pairs fields))⟩
  | delete (key : DocumentReference) : Requests (.delete key) ⟨key, .none, .delete⟩

/-- The names that are written. -/
def names : DatabaseWrite → List String
  | .set _ fields | .merge _ fields | .update _ fields => fields.keys
  | .delete _ => []

theorem forall_pairs {fields : DocumentData} {P : String → Prop} :
    (∀ e ∈ pairs fields, P e.1) ↔ ∀ name ∈ fields.keys, P name := by
  rw [← keys_pairs]
  simp

/-- The client throws exactly if a name is not allowed, and makes the mutation of the
write otherwise. -/
theorem request_spec {write : DatabaseWrite} (topLevel : TopLevel write) :
    if ∀ name ∈ names write, validatePathSegment name = true then
      ∃ m, request write = some m ∧ Requests write m
    else request write = none := by
  have parsed : ∀ fields : DocumentData, parseData [] (.map (dictionary fields).fields) [] =
      if ∀ name ∈ fields.keys, validatePathSegment name = true then
        some (flatMask (pairs fields))
      else none := by
    intro fields
    rw [dictionary, Dictionary.parseData_flat]
    simp only [forall_pairs (P := fun name => validatePathSegment name = true)]
  cases write with
  | set key fields =>
    simp only [request, names, DocumentReference.setData, parsedSetData, parsed fields]
    split
    · exact ⟨_, rfl, .set key fields⟩
    · rfl
  | merge key fields =>
    simp only [request, names, DocumentReference.setData, parsedMergeData, parsed fields]
    split
    · exact ⟨_, rfl, .merge key fields⟩
    · rfl
  | update key fields =>
    have paths : ∀ entries : List (String × FieldValue),
        (∀ e ∈ entries, FieldPath.fromDotSeparatedString e.1 = .ok [e.1]) →
          (entries.map fun e =>
            ((e.1, ⟨.scalar e.2, .scalar e.2⟩) : String × UpdateValue FieldValue)).mapM (fun entry =>
              (FieldPath.fromDotSeparatedString entry.1).toOption.map (·, entry.2)) =
            some (entries.map fun e => ([e.1], ⟨.scalar e.2, .scalar e.2⟩)) := by
      intro entries
      induction entries with
      | nil => exact fun _ => rfl
      | cons e rest ih =>
        intro each
        rw [List.map_cons, List.mapM_cons, each e (by simp),
          ih fun e' member => each e' (by simp [member])]
        rfl
    simp only [request, names, DocumentReference.updateData,
      paths _ (forall_pairs.mpr topLevel), Option.bind_eq_bind, Option.bind_some,
      parsedUpdateData_flat _ (nodup_pairs fields),
      forall_pairs (P := fun name => validatePathSegment name = true)]
    split
    · exact ⟨_, rfl, .update key fields⟩
    · rfl
  | delete key => simpa [names] using ⟨_, rfl, .delete key⟩

theorem requests_of_request {write : DatabaseWrite} (topLevel : TopLevel write) {m : Request}
    (made : request write = some m) : Requests write m := by
  have spec := request_spec topLevel
  split at spec
  · obtain ⟨_, same, requests⟩ := spec
    obtain rfl := Option.some.inj (same.symm.trans made)
    exact requests
  · rw [spec] at made
    cases made

theorem read_dictionary (fields : DocumentData) (field : String) :
    (dictionary fields).toObjectValue.read field = (fields.lookup field).map .scalar := by
  refine Option.ext fun value => ?_
  rw [dictionary, Dictionary.read_flat, Option.map_eq_some_iff]
  constructor
  · rintro ⟨e, member, rfl, rfl⟩
    obtain ⟨stored, inside, rfl⟩ := List.mem_map.mp member
    exact ⟨stored.2, AList.mem_lookup_iff.mpr inside, rfl⟩
  · rintro ⟨content, known, rfl⟩
    exact ⟨(field, content), List.mem_map.mpr ⟨⟨field, content⟩, AList.mem_lookup_iff.mp known, rfl⟩,
      rfl, rfl⟩

theorem mem_flatMask_pairs {fields : DocumentData} {path : FieldPath String} :
    path ∈ flatMask (pairs fields) ↔ ∃ field ∈ fields, path = [field] := by
  rw [mem_flatMask]
  constructor
  · rintro ⟨e, member, rfl⟩
    exact ⟨e.1, forall_pairs (P := (· ∈ fields.keys)).mpr (fun _ inside => inside) e member, rfl⟩
  · rintro ⟨field, inside, rfl⟩
    obtain ⟨content, known⟩ := Option.isSome_iff_exists.mp (AList.lookup_isSome.mpr inside)
    exact ⟨(field, content), List.mem_map.mpr ⟨⟨field, content⟩, AList.mem_lookup_iff.mp known, rfl⟩, rfl⟩

theorem covers_dictionary (fields : DocumentData) :
    (dictionary fields).toObjectValue.Covers (flatMask (pairs fields)) := by
  intro path member
  obtain ⟨field, inside, rfl⟩ := mem_flatMask_pairs.mp member
  refine ⟨field, rfl, ?_⟩
  rw [read_dictionary, ne_eq, Option.map_eq_none_iff, AList.lookup_eq_none]
  exact not_not_intro inside

theorem read_patch_dictionary (fields : DocumentData) {value : ObjectValue String FieldValue}
    {stored : Option DocumentData}
    (read : ∀ field, value.read field = (stored.bind (·.lookup field)).map .scalar) (field : String) :
    (value.patch (dictionary fields).toObjectValue (flatMask (pairs fields))).read field =
      ((fields ∪ stored.getD ∅).lookup field).map .scalar := by
  rw [ObjectValue.read_patch (covers_dictionary fields)]
  by_cases inside : field ∈ fields
  · rw [if_pos (mem_flatMask_pairs.mpr ⟨field, inside, rfl⟩), read_dictionary,
      AList.lookup_union_left inside]
  · have absent : [field] ∉ flatMask (pairs fields) := fun member => by
      obtain ⟨_, there, same⟩ := mem_flatMask_pairs.mp member
      exact inside ((List.singleton_inj.mp same) ▸ there)
    rw [if_neg absent, AList.lookup_union_right inside, read]
    cases stored <;> rfl

theorem Requests.plain {write : DatabaseWrite} {m : Request} (requests : Requests write m) :
    m.Plain := by
  cases requests with
  | set key fields => rfl
  | merge key fields => exact ⟨fun _ => by simp, covers_dictionary fields⟩
  | update key fields => exact ⟨fun _ => by simp, covers_dictionary fields⟩
  | delete key => rfl

theorem plain_of_requests {writes : List DatabaseWrite} {mutations : List Request}
    (requests : List.Forall₂ Requests writes mutations) : ∀ m ∈ mutations, m.Plain := by
  induction requests with
  | nil => simp
  | cons first rest ih => simpa using ⟨first.plain, ih⟩

theorem Requests.key {write : DatabaseWrite} {m : Request} (requests : Requests write m) :
    m.key = write.key := by
  cases requests <;> rfl

/-- In the client's view the mutation is the write. -/
theorem Represents.applyToLocalView {doc : ClientDocument} {stored : Option DocumentData}
    (represents : Represents doc stored) {write : DatabaseWrite} {m : Request}
    (requests : Requests write m) (mask : Option (FieldMask String)) :
    Represents (m.applyToLocalView doc mask).1 (write.document stored) := by
  cases requests with
  | set key fields => exact ⟨rfl, read_dictionary fields⟩
  | merge key fields => exact ⟨rfl, read_patch_dictionary fields represents.read⟩
  | delete key => exact ⟨rfl, fun _ => rfl⟩
  | update key fields =>
    rw [Mutation.applyToLocalView]
    cases stored with
    | none =>
      have refused : (Precondition.exist true).isValidFor doc = false := by
        simp [Precondition.isValidFor, represents.found]
      rw [if_neg (by simp [refused])]
      exact represents
    | some old =>
      have applies : (Precondition.exist true).isValidFor doc = true := by
        simp [Precondition.isValidFor, represents.found]
      rw [if_pos applies]
      exact ⟨rfl, read_patch_dictionary fields represents.read⟩

/-- When the server has the write, the client's copy of the document is changed as the server's is. -/
theorem Represents.applyToRemoteDocument {doc : ClientDocument} {stored : Option DocumentData}
    (represents : Represents doc stored) {write : DatabaseWrite} {m : Request}
    (requests : Requests write m) (version : SnapshotVersion) :
    Represents (m.applyToRemoteDocument doc version) (write.document stored) := by
  cases requests with
  | set key fields => exact ⟨rfl, read_dictionary fields⟩
  | merge key fields => exact ⟨rfl, read_patch_dictionary fields represents.read⟩
  | delete key => exact ⟨rfl, fun _ => rfl⟩
  | update key fields =>
    cases stored with
    | none =>
      have refused : (Precondition.exist true).isValidFor doc = false := by
        simp [Precondition.isValidFor, represents.found]
      simp only [Mutation.applyToRemoteDocument, refused]
      exact ⟨rfl, fun _ => rfl⟩
    | some old =>
      have applies : (Precondition.exist true).isValidFor doc = true := by
        simp [Precondition.isValidFor, represents.found]
      simp only [Mutation.applyToRemoteDocument, applies]
      exact ⟨rfl, read_patch_dictionary fields represents.read⟩

/-- Replaying the mutations of a document that are pending is making the writes. -/
theorem Represents.replay {doc : ClientDocument} {stored : Option DocumentData}
    (represents : Represents doc stored) {writes : List DatabaseWrite} {mutations : List Request}
    (requests : List.Forall₂ Requests writes mutations) (mask : Option (FieldMask String)) :
    Represents (Mutation.replay mutations doc mask).1
      (writes.foldl (fun stored write => write.document stored) stored) := by
  induction requests generalizing doc stored mask with
  | nil => exact represents
  | cons first rest ih => exact ih (represents.applyToLocalView first mask) _

/-- One of the writes changes the document. -/
def Effective (writes : List DatabaseWrite) (stored : Option DocumentData) : Prop :=
  ∃ write ∈ writes, stored.isSome = true ∨ ∀ fields, write ≠ .update write.key fields

/-- The client marks a document as mutated exactly if a pending write changes it. -/
theorem Represents.hasLocalMutations_replay_iff {doc : ClientDocument}
    {stored : Option DocumentData} (represents : Represents doc stored)
    (untouched : doc.hasLocalMutations = false) {writes : List DatabaseWrite}
    {mutations : List Request} (requests : List.Forall₂ Requests writes mutations)
    (mask : Option (FieldMask String)) :
    (Mutation.replay mutations doc mask).1.hasLocalMutations = true ↔ Effective writes stored := by
  induction requests generalizing mask with
  | nil => simp [Mutation.replay, untouched, Effective]
  | @cons write m writes mutations first rest ih =>
    have step : (Mutation.replay (m :: mutations) doc mask) =
        Mutation.replay mutations (m.applyToLocalView doc mask).1
          (m.applyToLocalView doc mask).2 := rfl
    rw [step]
    by_cases applies : m.precondition.isValidFor doc = true
    · have touched : (m.applyToLocalView doc mask).1.hasLocalMutations = true := by
        rw [Mutation.applyToLocalView, if_pos applies]
        cases m.operation <;> rfl
      refine iff_of_true (Mutation.hasLocalMutations_replay _ touched _) ⟨write, by simp, ?_⟩
      cases first with
      | update key fields =>
        left
        rw [← represents.found]
        simpa [Precondition.isValidFor] using applies
      | _ => exact Or.inr fun _ same => by cases same
    · have refused : m.applyToLocalView doc mask = (doc, mask) := by
        rw [Mutation.applyToLocalView, if_neg applies]
      rw [refused, ih]
      cases first with
      | update key fields =>
        have missing : stored.isSome = false := by
          rw [← represents.found]
          simpa [Precondition.isValidFor] using applies
        simp [Effective, missing, Write.key]
      | _ => exact absurd rfl applies

/-- The fields that Save writes. -/
def detailsData (text : String) : DocumentData := [⟨"details", .string text⟩].toAList

theorem mem_detailsData (text : String) : "details" ∈ detailsData text :=
  List.mem_singleton.mpr rfl

theorem topLevel_details (key : DocumentReference) (text : String) :
    TopLevel (.update key (detailsData text)) := by
  intro field member
  have same : field ∈ ["details"] := member
  rw [List.mem_singleton.mp same]
  rfl

/-- The names that the app writes are allowed, and no paths. -/
theorem allowed_of_issued {e : Event} {client : Nat} {write : DatabaseWrite}
    (issued : e.write = some (client, write)) :
    TopLevel write ∧ ∀ name ∈ names write, validatePathSegment name = true := by
  cases e with
  | registerUser _ userRequest =>
    cases parsed : collection "users" with
    | none => simp [Event.write, AuthService.createUserCompletion, parsed] at issued
    | some users =>
      cases found : users.document userRequest.email with
      | none => simp [Event.write, AuthService.createUserCompletion, parsed, found] at issued
      | some document =>
        simp only [Event.write, AuthService.createUserCompletion, parsed, found,
          Option.bind_eq_bind, Option.bind_some, Option.pure_def, Option.some.injEq,
          Prod.mk.injEq] at issued
        obtain ⟨_, rfl⟩ := issued
        exact ⟨trivial, show ∀ name ∈ ["username", "email", "password"], _ by decide⟩
  | googleSignIn _ user =>
    cases profile : user.profile with
    | none => simp [Event.write, ViewController.signInCompletion, profile] at issued
    | some given =>
      simp only [Event.write, ViewController.signInCompletion, profile, Option.map_some,
        Option.bind_eq_bind, Option.bind_eq_some_iff, Option.pure_def, Option.some.injEq,
        Prod.mk.injEq] at issued
      obtain ⟨_, ⟨users, parsed, document, found, rfl⟩, write, made, _, rfl⟩ := issued
      cases made
      exact ⟨trivial, show ∀ name ∈ ["username", "email"], _ by decide⟩
  | addButtonPressed _ email sheet uuid =>
    obtain ⟨made, ran, issued⟩ := Option.bind_eq_some_iff.mp issued
    obtain ⟨users, document, parsed, found, rfl⟩ :=
      AddNoteViewController.addButtonPressed_eq_some ran
    cases issued
    exact ⟨trivial, show ∀ name ∈ ["title", "details", "doc"], _ by decide⟩
  | saveButtonPressed _ email detail =>
    obtain ⟨⟨after, made⟩, ran, issued⟩ := Option.bind_eq_some_iff.mp issued
    obtain ⟨document, found, _, rfl⟩ := DetailViewController.saveButtonPressed_eq_some ran
    cases issued
    exact ⟨topLevel_details document _, show ∀ name ∈ ["details"], _ by decide⟩
  | deleteConfirmed _ email detail =>
    obtain ⟨made, ran, issued⟩ := Option.bind_eq_some_iff.mp issued
    obtain ⟨document, found, rfl⟩ := DetailViewController.deleteConfirmed_eq_some ran
    cases issued
    exact ⟨trivial, fun _ member => by cases member⟩
  | writeApplied _ => cases issued
  | writeRefused _ => cases issued

/-- Every write of the app is one that the client takes, and its names are no paths. -/
theorem requested_of_issued {e : Event} {client : Nat} {write : DatabaseWrite}
    (issued : e.write = some (client, write)) :
    TopLevel write ∧ ∃ m, request write = some m ∧ Requests write m := by
  have allowed := allowed_of_issued issued
  have spec := request_spec allowed.1
  rw [if_pos allowed.2] at spec
  exact ⟨allowed.1, spec⟩

def annOfGoogle : GoogleUser := { idToken := some "id", profile := some ⟨"ann", "ann@mail.org"⟩ }

theorem requested_of_issued_google :
    ∃ m, request (.merge ⟨["users", "ann@mail.org"], rfl⟩
      (ViewController.googleData "ann" "ann@mail.org")) = some m ∧ m.precondition = .none := by
  have issued : (Event.googleSignIn 0 annOfGoogle).write = some (0, .merge _ _) := rfl
  obtain ⟨_, m, made, requests⟩ := requested_of_issued issued
  refine ⟨m, made, ?_⟩
  cases requests
  rfl

end QuickNote.Documents
