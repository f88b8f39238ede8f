import QuickNote.Auth.Source

/-!
# Registration as a transaction

`registerUser` changes two remote stores one after the other: it creates an
account, which also signs it in, and then stores a profile.  Nothing undoes the
first step when the second fails, and an address that has an account cannot be
registered again.  So a registration is all or nothing exactly when the account is
not created alone, and for an address without an account.
-/

namespace QuickNote.Auth

open Firestore DocumentStore

/-- The account store, the signed-in account and the documents. -/
structure Backend where
  accounts : AList fun _ : String => String
  currentUser : Option String
  documents : Database

/-- What becomes of `createUser` for an address without an account. -/
inductive CreateUser where
  | succeeds
  | refused (error : String)
  /-- The account is created, but completing the sign-in fails
  (`FIRAuth.m:1155-1165`). -/
  | signInFails (error : String)
deriving DecidableEq

/-- What becomes of the two backend steps; `setData` is the error of the second. -/
structure Outcome where
  createUser : CreateUser
  setData : Option String
deriving DecidableEq

/-- Both steps work. -/
def Outcome.works : Outcome := { createUser := .succeeds, setData := none }

/-- `Auth.auth().createUser(withEmail:password:)`: the backend afterwards and the
arguments of the completion. -/
def Backend.createUser (b : Backend) (email password : String) (outcome : CreateUser) :
    Backend × Option String × Option String :=
  if email ∈ b.accounts then (b, none, some "ERROR_EMAIL_ALREADY_IN_USE")
  else
    let created := { b with accounts := b.accounts.insert email password }
    match outcome with
    | .succeeds => ({ created with currentUser := some email }, some email, none)
    | .refused error => (b, none, some error)
    | .signInFails error => (created, none, some error)

/-- `AuthService.registerUser`: the backend when it reports, and the report. -/
def registerUser (b : Backend) (userRequest : RegisterUserRequest) (outcome : Outcome) :
    Option (Backend × Bool × Option String) := do
  let (after, resultUser, error) :=
    b.createUser userRequest.email userRequest.password outcome.createUser
  match ← AuthService.createUserCompletion userRequest resultUser error with
  | .completion wasRegistered error => return (after, wasRegistered, error)
  | .setData write =>
    let report := AuthService.setDataCompletion outcome.setData
    match outcome.setData with
    | some _ => return (after, report)
    | none => return ({ after with documents := write.apply after.documents }, report)

/-- The profile document `users/<email>`, unless the path is refused. -/
def profile (email : String) : Option DocumentReference := do
  let users ← collection "users"
  users.document email

/-- The profile document holds the username and the address of the request. -/
def HoldsProfile (b : Backend) (userRequest : RegisterUserRequest) : Prop :=
  ∃ document ∈ profile userRequest.email, ∃ fields ∈ b.documents.lookup document,
    DocumentData.string fields "username" = some userRequest.username ∧
      DocumentData.string fields "email" = some userRequest.email

/-- A report of success means that account and profile exist; a report of failure
means that nothing has changed and that the same request succeeds once both steps
work. -/
def AllOrNothing (b : Backend) (userRequest : RegisterUserRequest) (outcome : Outcome) : Prop :=
  ∀ after wasRegistered error,
    registerUser b userRequest outcome = some (after, wasRegistered, error) →
      (wasRegistered = true → userRequest.email ∈ after.accounts ∧ HoldsProfile after userRequest) ∧
      (wasRegistered = false → after = b ∧ ∃ later error,
        registerUser after userRequest .works = some (later, true, error))

/-- The address has no account, and either `createUser` creates none (and the path
of the profile is valid), or it succeeds and so does the profile write, if the path
lets it begin. -/
def Whole (b : Backend) (userRequest : RegisterUserRequest) (outcome : Outcome) : Prop :=
  userRequest.email ∉ b.accounts ∧
    match outcome.createUser with
    | .succeeds => profile userRequest.email ≠ none → outcome.setData = none
    | .refused _ => profile userRequest.email ≠ none
    | .signInFails _ => False

/-- The backend after a successful `createUser`. -/
def Backend.created (b : Backend) (userRequest : RegisterUserRequest) : Backend :=
  { b with
    accounts := b.accounts.insert userRequest.email userRequest.password
    currentUser := some userRequest.email }

section

variable {b : Backend} {userRequest : RegisterUserRequest}

theorem registerUser_taken (taken : userRequest.email ∈ b.accounts) (outcome : Outcome) :
    registerUser b userRequest outcome = some (b, false, some "ERROR_EMAIL_ALREADY_IN_USE") := by
  simp [registerUser, Backend.createUser, taken, AuthService.createUserCompletion]

variable (free : userRequest.email ∉ b.accounts)

include free

theorem registerUser_refused (error : String) (setData : Option String) :
    registerUser b userRequest ⟨.refused error, setData⟩ = some (b, false, some error) := by
  simp [registerUser, Backend.createUser, free, AuthService.createUserCompletion]

theorem registerUser_signInFails (error : String) (setData : Option String) :
    registerUser b userRequest ⟨.signInFails error, setData⟩ =
      some ({ b with accounts := b.accounts.insert userRequest.email userRequest.password }, false,
        some error) := by
  simp [registerUser, Backend.createUser, free, AuthService.createUserCompletion]

/-- An account that has been created is reported according to its profile. -/
theorem registerUser_succeeds (setData : Option String) :
    registerUser b userRequest ⟨.succeeds, setData⟩ =
      (profile userRequest.email).map fun document =>
        match setData with
        | some error => (b.created userRequest, false, some error)
        | none => ({ b.created userRequest with
            documents := (Write.set document (AuthService.registerData userRequest)).apply
              b.documents }, true, none) := by
  unfold registerUser profile
  simp only [Backend.createUser, if_neg free, AuthService.createUserCompletion]
  cases collection "users" with
  | none => rfl
  | some users =>
    cases path : users.document userRequest.email with
    | none => simp [path]
    | some document => cases setData <;> simp [path, AuthService.setDataCompletion, Backend.created]

/-- Creating an account changes the account store. -/
theorem insert_ne (after : Backend)
    (accounts : after.accounts = b.accounts.insert userRequest.email userRequest.password) :
    after ≠ b := by
  intro same
  have member : userRequest.email ∈ b.accounts := by
    rw [← same, accounts]
    simp
  exact free member

end

theorem holdsProfile_set {after : Backend} {userRequest : RegisterUserRequest}
    {document : DocumentReference} {before : Database}
    (path : profile userRequest.email = some document)
    (stored : after.documents =
      (Write.set document (AuthService.registerData userRequest)).apply before) :
    HoldsProfile after userRequest := by
  refine ⟨document, path, AuthService.registerData userRequest, ?_, rfl, rfl⟩
  rw [stored, Write.lookup_apply]
  simp [Write.key, Write.document]

/-- A registration is all or nothing exactly when the address is free and the
account is not created without its profile. -/
theorem allOrNothing_iff_whole (b : Backend) (userRequest : RegisterUserRequest)
    (outcome : Outcome) : AllOrNothing b userRequest outcome ↔ Whole b userRequest outcome := by
  obtain ⟨createUser, setData⟩ := outcome
  by_cases taken : userRequest.email ∈ b.accounts
  · refine iff_of_false ?_ (fun whole => whole.1 taken)
    intro holds
    obtain ⟨_, later, error, again⟩ := (holds _ _ _ (registerUser_taken taken _)).2 rfl
    rw [registerUser_taken taken] at again
    simp at again
  have retry : (∃ later error, registerUser b userRequest .works = some (later, true, error)) ↔
      profile userRequest.email ≠ none := by
    rw [Outcome.works, registerUser_succeeds taken]
    cases profile userRequest.email <;> simp
  cases createUser with
  | refused error =>
    have reported := registerUser_refused taken error setData
    simp only [Whole, taken, not_false_eq_true, true_and, ← retry]
    constructor
    · intro holds
      exact ((holds _ _ _ reported).2 rfl).2
    · intro again after wasRegistered message run
      rw [reported] at run
      obtain ⟨rfl, rfl, rfl⟩ := by simpa using run
      exact ⟨by simp, fun _ => ⟨rfl, again⟩⟩
  | signInFails error =>
    refine iff_of_false ?_ (fun whole => whole.2)
    intro holds
    have same := ((holds _ _ _ (registerUser_signInFails taken error setData)).2 rfl).1
    exact insert_ne taken _ rfl same
  | succeeds =>
    have reported := registerUser_succeeds taken setData
    simp only [Whole, taken, not_false_eq_true, true_and]
    cases path : profile userRequest.email with
    | none =>
      refine iff_of_true ?_ (by simp)
      intro after wasRegistered message run
      rw [reported, path] at run
      cases run
    | some document =>
      rw [path] at reported
      cases setData with
      | some error =>
        refine iff_of_false ?_ (by simp)
        intro holds
        have same := ((holds _ _ _ reported).2 rfl).1
        exact insert_ne taken _ rfl same
      | none =>
        refine iff_of_true ?_ (by simp)
        intro after wasRegistered message run
        rw [reported] at run
        obtain ⟨rfl, rfl, rfl⟩ := by simpa using run
        refine ⟨fun _ => ⟨by simp [Backend.created], ?_⟩, by simp⟩
        exact holdsProfile_set path rfl

def request : RegisterUserRequest :=
  { username := "ann", email := "ann@mail.org", password := "secret" }

def emptyBackend : Backend := { accounts := ∅, currentUser := none, documents := ∅ }

/-- The profile write is refused after the account has been created: the failure is
reported, but the account stays and is signed in, and the request cannot succeed
any more. -/
theorem profileRefused_not_allOrNothing :
    ¬ AllOrNothing emptyBackend request ⟨.succeeds, some "PERMISSION_DENIED"⟩ := by
  have free : request.email ∉ emptyBackend.accounts := by decide
  have run : registerUser emptyBackend request ⟨.succeeds, some "PERMISSION_DENIED"⟩ =
      some (emptyBackend.created request, false, some "PERMISSION_DENIED") := by rfl
  intro holds
  have same := ((holds _ _ _ run).2 rfl).1
  exact insert_ne free _ rfl same

end QuickNote.Auth
