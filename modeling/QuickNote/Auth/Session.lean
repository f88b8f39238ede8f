import QuickNote.Library.EventSystem
import QuickNote.Auth.Source

/-!
# Screen and session

One process and its window: the signed-in account, the root controller, the root
replacements that `checkAuthentication` has deferred and the sign-in flows that
have not come to their end.  Firebase changes the session inside a flow; the screen
follows only where a flow reaches `checkAuthentication`.

`State.unchecked` is a record of the schedule.
-/

namespace QuickNote.Auth

open Firestore DocumentStore

/-- The root controller, numbered by the replacement that showed it. -/
structure Root where
  page : Page
  number : Nat
deriving DecidableEq

/-- How far a flow has come: a request on its way, or an answer whose completion
handler has not run. -/
inductive Stage where
  | signIn (email : String)
  | signInCompletion (error : Option String)
  | createUser (userRequest : RegisterUserRequest)
  | createUserCompletion (userRequest : RegisterUserRequest) (resultUser error : Option String)
  | setData
  | setDataCompletion (error : Option String)
  | google
  | googleCompletion (result : Option GoogleUser) (error : Option String)
  | googleSignIn (user : GoogleUser)
  | googleSignInCompletion (user : GoogleUser) (error : Option String)
  /-- The profile write of a Google sign-in, whose completion only prints. -/
  | googleSetData
deriving DecidableEq

/-- A flow and the root controller that its screen belongs to. -/
structure Flow where
  screen : Nat
  stage : Stage
deriving DecidableEq

structure State where
  currentUser : Option String
  root : Option Root := none
  shown : Nat := 0
  replacements : List Page := []
  flows : List Flow := []
  /-- Somebody was signed in while nobody was, and `checkAuthentication` has not
  been called since. -/
  unchecked : Bool := false
deriving DecidableEq

inductive Event where
  /-- The process is started anew; the session persists. -/
  | appStarted
  /-- The oldest deferred replacement of the root takes place. -/
  | rootReplaced
  | loginButtonPressed (email : String)
  | registerButtonPressed (userRequest : RegisterUserRequest)
  | googleButtonPressed
  /-- `signOut` and its completion, with the error it throws. -/
  | logoutButtonPressed (error : Option String)
  /-- Google answers. -/
  | googleAnswered (flow : Nat) (result : Option GoogleUser) (error : Option String)
  /-- Firebase signs the flow's account in. -/
  | signedIn (flow : Nat) (account : String)
  /-- A profile write reaches the server. -/
  | stored (flow : Nat)
  | failed (flow : Nat) (error : String)
  /-- The completion handler of an answer runs. -/
  | completed (flow : Nat)
deriving DecidableEq

namespace State

/-- `checkAuthentication`: the replacement is deferred (`SceneDelegate.swift:42-68`). -/
def checkAuthentication (s : State) : State :=
  { s with
    replacements := s.replacements ++ [SceneDelegate.checkAuthentication s.currentUser]
    unchecked := false }

/-- Firebase signs an account in. -/
def signIn (s : State) (account : String) : State :=
  { s with
    currentUser := some account
    unchecked := s.unchecked || s.currentUser.isNone }

def setStage (s : State) (i : Nat) (flow : Flow) (stage : Stage) : State :=
  { s with flows := s.flows.set i { flow with stage := stage } }

/-- A flow comes to its end, with or without a check. -/
def finish (s : State) (i : Nat) (check : Bool) : State :=
  let s := { s with flows := s.flows.eraseIdx i }
  if check then s.checkAuthentication else s

/-- The screen of the flow is in the window. -/
def attached (s : State) (flow : Flow) : Bool := s.root.any (·.number = flow.screen)

def start (s : State) (page : Page) (stage : Stage) : Option State := do
  let root ← s.root
  if root.page = page then some { s with flows := s.flows ++ [⟨root.number, stage⟩] } else none

def rootReplaced (s : State) : Option State :=
  match s.replacements with
  | [] => none
  | page :: rest =>
      some { s with root := some ⟨page, s.shown⟩, shown := s.shown + 1, replacements := rest }

/-- `logoutButtonPressed` (`HomeViewController.swift:47`, `LandingViewController.swift:18`). -/
def logoutButtonPressed (s : State) (error : Option String) : Option State := do
  let root ← s.root
  if root.page = .landingPage then
    match error with
    | some _ => some s
    | none => some ({ s with currentUser := none }.checkAuthentication)
  else none

def signedIn (s : State) (i : Nat) (account : String) : Option State := do
  let flow ← s.flows[i]?
  match flow.stage with
  | .signIn email =>
      if account = email then some ((s.signIn account).setStage i flow (.signInCompletion none))
      else none
  | .createUser userRequest =>
      if account = userRequest.email then
        some ((s.signIn account).setStage i flow
          (.createUserCompletion userRequest (some account) none))
      else none
  | .googleSignIn user =>
      some ((s.signIn account).setStage i flow (.googleSignInCompletion user none))
  | _ => none

def stored (s : State) (i : Nat) : Option State := do
  let flow ← s.flows[i]?
  match flow.stage with
  | .setData => some (s.setStage i flow (.setDataCompletion none))
  | .googleSetData => some (s.finish i false)
  | _ => none

def failed (s : State) (i : Nat) (error : String) : Option State := do
  let flow ← s.flows[i]?
  match flow.stage with
  | .signIn _ => some (s.setStage i flow (.signInCompletion (some error)))
  | .createUser userRequest =>
      some (s.setStage i flow (.createUserCompletion userRequest none (some error)))
  | .setData => some (s.setStage i flow (.setDataCompletion (some error)))
  | .googleSignIn user => some (s.setStage i flow (.googleSignInCompletion user (some error)))
  | .googleSetData => some (s.finish i false)
  | _ => none

def googleAnswered (s : State) (i : Nat) (result : Option GoogleUser) (error : Option String) :
    Option State := do
  let flow ← s.flows[i]?
  match flow.stage with
  | .google => some (s.setStage i flow (.googleCompletion result error))
  | _ => none

def completed (s : State) (i : Nat) : Option State := do
  let flow ← s.flows[i]?
  let attached := s.attached flow
  match flow.stage with
  | .signInCompletion error =>
      some (s.finish i (LoginViewController.signInCompletion attached error))
  | .createUserCompletion userRequest resultUser error => do
      match ← AuthService.createUserCompletion userRequest resultUser error with
      | .completion wasRegistered error =>
          some (s.finish i (RegisterController.registerUserCompletion attached wasRegistered error))
      | .setData _ => some (s.setStage i flow .setData)
  | .setDataCompletion error =>
      let (wasRegistered, error) := AuthService.setDataCompletion error
      some (s.finish i (RegisterController.registerUserCompletion attached wasRegistered error))
  | .googleCompletion result error =>
      match ViewController.googleCompletion result error with
      | none => some (s.finish i false)
      | some user => some (s.setStage i flow (.googleSignIn user))
  | .googleSignInCompletion user error => do
      let (write, check) ← ViewController.signInCompletion attached user error
      match write with
      | none => some (s.finish i check)
      | some _ =>
          let s := s.setStage i flow .googleSetData
          some (if check then s.checkAuthentication else s)
  | _ => none

end State

def step (s : State) : Event → Option State
  | .appStarted => some (State.checkAuthentication { currentUser := s.currentUser, shown := s.shown })
  | .rootReplaced => s.rootReplaced
  | .loginButtonPressed email => s.start .loginPage (.signIn email)
  | .registerButtonPressed userRequest => s.start .loginPage (.createUser userRequest)
  | .googleButtonPressed => s.start .loginPage .google
  | .logoutButtonPressed error => s.logoutButtonPressed error
  | .googleAnswered i result error => s.googleAnswered i result error
  | .signedIn i account => s.signedIn i account
  | .stored i => s.stored i
  | .failed i error => s.failed i error
  | .completed i => s.completed i

/-- A process that has just been started with a persisted session. -/
def system (user : Option String) : EventSystem State Event where
  init := State.checkAuthentication { currentUser := user }
  step := step

/-- No request, no callback and no deferred replacement is outstanding. -/
def AtRest (s : State) : Prop := s.flows = [] ∧ s.replacements = []

/-- At rest the root is the landing page when somebody is signed in and the login
page when nobody is. -/
def Agree (s : State) : Prop :=
  AtRest s → s.root.map Root.page =
    some (if s.currentUser.isSome then Page.landingPage else Page.loginPage)

/-- At rest `checkAuthentication` has been called since somebody was last signed in
while nobody was. -/
def SignInChecked (s : State) : Prop := AtRest s → s.unchecked = false

instance : DecidablePred AtRest := by
  intro s
  unfold AtRest
  infer_instance

instance : DecidablePred Agree := by
  intro s
  unfold Agree
  infer_instance

/-! ## What a step can do -/

/-- The flow has signed its account in and has not come to its check. -/
def Stage.signedIn : Stage → Bool
  | .signInCompletion none | .createUserCompletion _ (some _) none | .setData
  | .setDataCompletion _ | .googleSignInCompletion _ none => true
  | _ => false

/-- A completion handler that runs after its flow has signed in does not return
before the check: its screen is in the window, the profile write of a registration
has not failed and a Google profile has an address. -/
def NoEarlyReturn (s : State) (e : Event) (_ : State) : Prop :=
  match e with
  | .completed i => ∀ flow ∈ s.flows[i]?,
      match flow.stage with
      | .signInCompletion none => s.attached flow = true
      | .setDataCompletion error => error = none ∧ s.attached flow = true
      | .googleSignInCompletion user none => user.profile.isSome ∧ s.attached flow = true
      | _ => True
  | _ => True

/-- What one step can do to the session, the screen and the flows.  A flow that has
signed in ends with a check, unless a completion handler returns early. -/
inductive Effect (s : State) (e : Event) : State → Prop where
  | unchanged : Effect s e s
  | checked (u : State) : Effect s e u.checkAuthentication
  | replaced (page : Page) (rest : List Page) (queue : s.replacements = page :: rest) :
      Effect s e { s with
        root := some ⟨page, s.shown⟩
        shown := s.shown + 1
        replacements := rest }
  | started (flow : Flow) : Effect s e { s with flows := s.flows ++ [flow] }
  | signedIn (i : Nat) (flow : Flow) (account : String) (stage : Stage)
      (found : s.flows[i]? = some flow) (signedIn : stage.signedIn = true) :
      Effect s e ((s.signIn account).setStage i flow stage)
  | moved (i : Nat) (flow : Flow) (stage : Stage) (found : s.flows[i]? = some flow)
      (kept : NoEarlyReturn s e s → flow.stage.signedIn = true → stage.signedIn = true) :
      Effect s e (s.setStage i flow stage)
  | ended (i : Nat) (flow : Flow) (found : s.flows[i]? = some flow)
      (other : NoEarlyReturn s e s → flow.stage.signedIn = false) :
      Effect s e { s with flows := s.flows.eraseIdx i }

theorem effect_finish {s : State} {e : Event} {i : Nat} {flow : Flow} {check : Bool}
    (found : s.flows[i]? = some flow)
    (ends : NoEarlyReturn s e s → flow.stage.signedIn = false ∨ check = true) :
    Effect s e (s.finish i check) := by
  cases check with
  | true => exact .checked _
  | false =>
    refine .ended i flow found (fun early => ?_)
    simpa using ends early

theorem effect_start {s t : State} {e : Event} {page : Page} {stage : Stage}
    (taken : s.start page stage = some t) : Effect s e t := by
  obtain ⟨root, _, taken⟩ := Option.bind_eq_some_iff.mp taken
  split at taken
  · cases taken
    exact .started _
  · cases taken

/-- A completion handler moves its flow on or ends it. -/
theorem effect_completed {s t : State} {i : Nat} (taken : s.completed i = some t) :
    Effect s (.completed i) t := by
  obtain ⟨flow, found, taken⟩ := Option.bind_eq_some_iff.mp taken
  have goesOn : NoEarlyReturn s (.completed i) s → _ := fun early => early flow found
  cases stage : flow.stage with
  | signInCompletion error =>
    simp only [stage, Option.some.injEq] at taken goesOn
    subst taken
    refine effect_finish found (fun early => ?_)
    cases error with
    | none => exact Or.inr (goesOn early)
    | some error => exact Or.inl (by simp [stage, Stage.signedIn])
  | createUserCompletion userRequest resultUser error =>
    simp only [stage] at taken
    obtain ⟨next, ran, taken⟩ := Option.bind_eq_some_iff.mp taken
    cases next with
    | completion wasRegistered report =>
      cases taken
      refine effect_finish found (fun _ => Or.inl ?_)
      rw [stage]
      cases error with
      | some error => cases resultUser <;> rfl
      | none =>
        cases resultUser with
        | none => rfl
        | some user => simp [AuthService.createUserCompletion, Option.bind_eq_some_iff] at ran
    | setData write =>
      cases taken
      exact .moved i flow .setData found (fun _ _ => rfl)
  | setDataCompletion error =>
    simp only [stage, Option.some.injEq] at taken goesOn
    subst taken
    refine effect_finish found (fun early => Or.inr ?_)
    obtain ⟨rfl, attached⟩ := goesOn early
    exact attached
  | googleCompletion result error =>
    have other : flow.stage.signedIn = false := by
      rw [stage]
      rfl
    simp only [stage] at taken
    cases next : ViewController.googleCompletion result error with
    | none =>
      simp only [next, Option.some.injEq] at taken
      subst taken
      exact effect_finish found (fun _ => Or.inl other)
    | some user =>
      simp only [next, Option.some.injEq] at taken
      subst taken
      exact .moved i flow _ found (fun _ signedIn => absurd signedIn (by simp [other]))
  | googleSignInCompletion user error =>
    simp only [stage] at taken goesOn
    obtain ⟨⟨write, check⟩, ran, taken⟩ := Option.bind_eq_some_iff.mp taken
    cases error with
    | some error =>
      obtain ⟨rfl, rfl⟩ : none = write ∧ false = check := by
        simpa [ViewController.signInCompletion] using ran
      cases taken
      exact effect_finish found (fun _ => Or.inl (by rw [stage]; rfl))
    | none =>
      cases given : user.profile with
      | none =>
        obtain ⟨rfl, rfl⟩ : none = write ∧ false = check := by
          simpa [ViewController.signInCompletion, given] using ran
        cases taken
        refine effect_finish found (fun early => ?_)
        have some := (goesOn early).1
        simp [given] at some
      | some profile =>
        simp only [ViewController.signInCompletion, given, Option.map_some, Option.bind_eq_bind,
          Option.bind_eq_some_iff, Option.pure_def, Option.some.injEq, Prod.mk.injEq] at ran
        obtain ⟨users, _, document, _, rfl, rfl⟩ := ran
        cases taken
        cases attached : s.attached flow with
        | true => exact .checked _
        | false =>
          refine .moved i flow .googleSetData found (fun early => ?_)
          have shown := (goesOn early).2
          simp [attached] at shown
  | _ => simp [stage] at taken

theorem step_effect {s t : State} {e : Event} (taken : step s e = some t) : Effect s e t := by
  cases e with
  | appStarted =>
    cases taken
    exact .checked _
  | rootReplaced =>
    simp only [step, State.rootReplaced] at taken
    split at taken
    · cases taken
    · rename_i page rest queue
      cases taken
      exact .replaced page rest queue
  | loginButtonPressed email => exact effect_start taken
  | registerButtonPressed userRequest => exact effect_start taken
  | googleButtonPressed => exact effect_start taken
  | logoutButtonPressed error =>
    obtain ⟨root, _, taken⟩ := Option.bind_eq_some_iff.mp taken
    split at taken
    · cases error with
      | none =>
        cases taken
        exact .checked _
      | some error =>
        cases taken
        exact .unchanged
    · cases taken
  | googleAnswered i result error =>
    obtain ⟨flow, found, taken⟩ := Option.bind_eq_some_iff.mp taken
    cases stage : flow.stage <;> simp only [stage, reduceCtorEq, Option.some.injEq] at taken
    subst taken
    exact .moved i flow _ found (fun _ signedIn => absurd signedIn (by simp [stage, Stage.signedIn]))
  | signedIn i account =>
    obtain ⟨flow, found, taken⟩ := Option.bind_eq_some_iff.mp taken
    cases stage : flow.stage <;>
      simp only [stage, Option.ite_none_right_eq_some, reduceCtorEq, Option.some.injEq] at taken
    · exact taken.2 ▸ .signedIn i flow account _ found rfl
    · exact taken.2 ▸ .signedIn i flow account _ found rfl
    · exact taken ▸ .signedIn i flow account _ found rfl
  | stored i =>
    obtain ⟨flow, found, taken⟩ := Option.bind_eq_some_iff.mp taken
    cases stage : flow.stage <;> simp only [stage, reduceCtorEq, Option.some.injEq] at taken
    · exact taken ▸ .moved i flow _ found (fun _ _ => rfl)
    · exact taken ▸ effect_finish found (fun _ => Or.inl (by rw [stage]; rfl))
  | failed i error =>
    obtain ⟨flow, found, taken⟩ := Option.bind_eq_some_iff.mp taken
    cases stage : flow.stage <;> simp only [stage, reduceCtorEq, Option.some.injEq] at taken
    case setData => exact taken ▸ .moved i flow _ found (fun _ _ => rfl)
    case googleSetData => exact taken ▸ effect_finish found (fun _ => Or.inl (by rw [stage]; rfl))
    all_goals
      subst taken
      exact .moved i flow _ found
        (fun _ signedIn => absurd signedIn (by simp [stage, Stage.signedIn]))
  | completed i => exact effect_completed taken

/-! ## What the screen follows -/

/-- The page that is shown once all deferred replacements have taken place. -/
def State.lastPage (s : State) : Option Page := s.replacements.getLast?.or (s.root.map Root.page)

/-- That page is the one for the session, or the login page while a sign-in has
not been checked. -/
structure ScreenFollows (s : State) : Prop where
  page : s.lastPage =
    some (if s.unchecked then .loginPage else SceneDelegate.checkAuthentication s.currentUser)
  signedIn : s.unchecked = true → s.currentUser.isSome

theorem screenFollows_step {s t : State} {e : Event} (follows : ScreenFollows s)
    (effect : Effect s e t) : ScreenFollows t := by
  cases effect with
  | unchanged => exact follows
  | checked u =>
    exact {
      page := by
        show (u.replacements ++ [_]).getLast?.or _ = _
        rw [List.getLast?_concat]
        rfl
      signedIn := fun unchecked => absurd unchecked (by simp [State.checkAuthentication]) }
  | replaced page rest queue =>
    refine ⟨?_, follows.signedIn⟩
    rw [← follows.page, State.lastPage, State.lastPage, queue]
    cases rest with
    | nil => rfl
    | cons next rest =>
      rw [List.getLast?_cons_cons, List.getLast?_eq_some_getLast (List.cons_ne_nil next rest)]
      rfl
  | signedIn i flow account stage found signedIn =>
    refine ⟨?_, fun _ => rfl⟩
    show s.lastPage = some (if s.unchecked || s.currentUser.isNone then .loginPage else
      SceneDelegate.checkAuthentication (some account))
    rw [follows.page]
    cases user : s.currentUser with
    | none =>
      have checked : s.unchecked = false := by
        by_contra pending
        have signedIn := follows.signedIn (by simpa using pending)
        simp [user] at signedIn
      simp [checked, SceneDelegate.checkAuthentication]
    | some old => simp [SceneDelegate.checkAuthentication]
  | started flow => exact ⟨follows.page, follows.signedIn⟩
  | moved i flow stage found kept => exact ⟨follows.page, follows.signedIn⟩
  | ended i flow found other => exact ⟨follows.page, follows.signedIn⟩

theorem screenFollows {user : Option String} {s : State} (reachable : (system user).Reachable s) :
    ScreenFollows s := by
  refine reachable.invariant ?_ (fun s e t follows taken =>
    screenFollows_step follows (step_effect taken))
  exact { page := rfl, signedIn := by simp [system, State.checkAuthentication] }

theorem agree_iff_signInChecked {s : State} (follows : ScreenFollows s) :
    Agree s ↔ SignInChecked s := by
  unfold Agree SignInChecked
  refine imp_congr_right (fun rest => ?_)
  have page : s.root.map Root.page =
      some (if s.unchecked then .loginPage else SceneDelegate.checkAuthentication s.currentUser) := by
    have last := follows.page
    rw [State.lastPage, rest.2] at last
    exact last
  rw [page, Option.some.injEq]
  cases pending : s.unchecked with
  | true =>
    have signedIn := follows.signedIn pending
    simp [signedIn]
  | false => cases s.currentUser <;> simp [SceneDelegate.checkAuthentication]

/-! ## What a sign-in is followed by -/

/-- Firebase signs somebody in while nobody is. -/
def SignsIn (s : State) (e : Event) : Prop :=
  s.currentUser = none ∧ ∃ i account, e = .signedIn i account

/-- The screen is brought in line: the app starts, a logout succeeds, or the last
completion handler of a flow runs whose screen is in the window, after an email login or
a registration without an error or a Google sign-in with an address. -/
def Checks (s : State) : Event → Prop
  | .appStarted => True
  | .logoutButtonPressed error => error = none
  | .completed i => ∃ flow ∈ s.flows[i]?, s.attached flow = true ∧
      match flow.stage with
      | .signInCompletion error => error = none
      | .createUserCompletion _ resultUser error => resultUser = none ∧ error = none
      | .setDataCompletion error => error = none
      | .googleSignInCompletion user error => error = none ∧ user.profile.isSome = true
      | _ => False
  | _ => False

theorem unchecked_finish (s : State) (i : Nat) (check : Bool) :
    (s.finish i check).unchecked = true ↔ check = false ∧ s.unchecked = true := by
  cases check <;> simp [State.finish, State.checkAuthentication]

theorem unchecked_completed {s t : State} {i : Nat} (taken : s.completed i = some t) :
    t.unchecked = true ↔ ¬ Checks s (.completed i) ∧ s.unchecked = true := by
  obtain ⟨flow, found, taken⟩ := Option.bind_eq_some_iff.mp taken
  simp only [Checks, found, Option.mem_some_iff, exists_eq_left']
  cases stage : flow.stage with
  | signInCompletion error =>
    simp only [stage, Option.some.injEq] at taken
    rw [← taken, unchecked_finish]
    cases error <;> cases s.attached flow <;> simp [LoginViewController.signInCompletion]
  | createUserCompletion userRequest resultUser error =>
    simp only [stage] at taken
    obtain ⟨next, ran, taken⟩ := Option.bind_eq_some_iff.mp taken
    cases next with
    | completion wasRegistered report =>
      simp only [Option.some.injEq] at taken
      rw [← taken, unchecked_finish]
      cases error with
      | some error =>
        obtain ⟨_, rfl⟩ : false = wasRegistered ∧ some error = report := by
          simpa [AuthService.createUserCompletion] using ran
        simp [RegisterController.registerUserCompletion]
      | none =>
        cases resultUser with
        | none =>
          obtain ⟨_, rfl⟩ : false = wasRegistered ∧ none = report := by
            simpa [AuthService.createUserCompletion] using ran
          cases s.attached flow <;> simp [RegisterController.registerUserCompletion]
        | some user => simp [AuthService.createUserCompletion, Option.bind_eq_some_iff] at ran
    | setData write =>
      simp only [Option.some.injEq] at taken
      rw [← taken]
      have registered : resultUser ≠ none := by
        rintro rfl
        cases error <;> simp [AuthService.createUserCompletion] at ran
      simp [State.setStage, registered]
  | setDataCompletion error =>
    simp only [stage, Option.some.injEq] at taken
    rw [← taken, unchecked_finish]
    cases error <;> cases s.attached flow <;>
      simp [AuthService.setDataCompletion, RegisterController.registerUserCompletion]
  | googleCompletion result error =>
    simp only [stage] at taken
    cases next : ViewController.googleCompletion result error with
    | none =>
      simp only [next, Option.some.injEq] at taken
      rw [← taken, unchecked_finish]
      simp
    | some user =>
      simp only [next, Option.some.injEq] at taken
      rw [← taken]
      simp [State.setStage]
  | googleSignInCompletion user error =>
    simp only [stage] at taken
    obtain ⟨⟨write, check⟩, ran, taken⟩ := Option.bind_eq_some_iff.mp taken
    cases error with
    | some error =>
      obtain ⟨rfl, rfl⟩ : none = write ∧ false = check := by
        simpa [ViewController.signInCompletion] using ran
      simp only [Option.some.injEq] at taken
      rw [← taken, unchecked_finish]
      simp
    | none =>
      cases given : user.profile with
      | none =>
        obtain ⟨rfl, rfl⟩ : none = write ∧ false = check := by
          simpa [ViewController.signInCompletion, given] using ran
        simp only [Option.some.injEq] at taken
        rw [← taken, unchecked_finish]
        simp [given]
      | some profile =>
        simp only [ViewController.signInCompletion, given, Option.map_some, Option.bind_eq_bind,
          Option.bind_eq_some_iff, Option.pure_def, Option.some.injEq, Prod.mk.injEq] at ran
        obtain ⟨users, _, document, _, rfl, rfl⟩ := ran
        simp only [Option.some.injEq] at taken
        rw [← taken]
        cases s.attached flow <;> simp [given, State.checkAuthentication, State.setStage]
  | _ => simp [stage] at taken

/-- The record is set by a sign-in and cleared where the screen is brought in line. -/
theorem unchecked_step {s t : State} {e : Event} (taken : step s e = some t) :
    t.unchecked = true ↔ ¬ Checks s e ∧ (s.unchecked = true ∨ SignsIn s e) := by
  have signsIn : ∀ {i account}, SignsIn s (.signedIn i account) ↔ s.currentUser = none :=
    fun {i account} => ⟨And.left, fun nobody => ⟨nobody, i, account, rfl⟩⟩
  have same : (∀ i account, e ≠ .signedIn i account) → ¬ Checks s e →
      t.unchecked = s.unchecked →
        (t.unchecked = true ↔ ¬ Checks s e ∧ (s.unchecked = true ∨ SignsIn s e)) := by
    intro other unmet kept
    have nobody : ¬ SignsIn s e := fun ⟨_, i, account, is⟩ => other i account is
    simp [unmet, nobody, kept]
  cases e with
  | appStarted =>
    cases taken
    simp [Checks, State.checkAuthentication]
  | rootReplaced =>
    refine same (by simp) not_false ?_
    simp only [step, State.rootReplaced] at taken
    split at taken
    · cases taken
    · cases taken
      rfl
  | loginButtonPressed _ | registerButtonPressed _ | googleButtonPressed =>
    refine same (by simp) not_false ?_
    obtain ⟨root, _, taken⟩ := Option.bind_eq_some_iff.mp taken
    split at taken
    · cases taken
      rfl
    · cases taken
  | logoutButtonPressed error =>
    obtain ⟨root, _, taken⟩ := Option.bind_eq_some_iff.mp taken
    split at taken
    · cases error with
      | none =>
        cases taken
        simp [Checks, State.checkAuthentication]
      | some error =>
        cases taken
        simp [Checks, SignsIn]
    · cases taken
  | googleAnswered i result error =>
    refine same (by simp) not_false ?_
    obtain ⟨flow, found, taken⟩ := Option.bind_eq_some_iff.mp taken
    cases stage : flow.stage <;> simp only [stage, reduceCtorEq, Option.some.injEq] at taken
    rw [← taken]
    rfl
  | signedIn i account =>
    rw [signsIn]
    obtain ⟨flow, found, taken⟩ := Option.bind_eq_some_iff.mp taken
    cases stage : flow.stage <;>
      simp only [stage, Option.ite_none_right_eq_some, reduceCtorEq, Option.some.injEq] at taken
    · rw [← taken.2]
      simp [Checks, State.setStage, State.signIn]
    · rw [← taken.2]
      simp [Checks, State.setStage, State.signIn]
    · rw [← taken]
      simp [Checks, State.setStage, State.signIn]
  | stored i =>
    refine same (by simp) not_false ?_
    obtain ⟨flow, found, taken⟩ := Option.bind_eq_some_iff.mp taken
    cases stage : flow.stage <;> simp only [stage, reduceCtorEq, Option.some.injEq] at taken
    all_goals
      rw [← taken]
      rfl
  | failed i error =>
    refine same (by simp) not_false ?_
    obtain ⟨flow, found, taken⟩ := Option.bind_eq_some_iff.mp taken
    cases stage : flow.stage <;> simp only [stage, reduceCtorEq, Option.some.injEq] at taken
    all_goals
      rw [← taken]
      rfl
  | completed i =>
    have nobody : ¬ SignsIn s (.completed i) := fun ⟨_, _, _, is⟩ => by cases is
    rw [unchecked_completed taken]
    simp [nobody]

/-- Whenever everything is at rest, each sign-in that found nobody signed in has been
followed by an event that brings the screen in line. -/
def SignInsFollowed (user : Option String) (events : List Event) : Prop :=
  ∀ before s, before <+: events → (system user).Reaches before s → AtRest s →
    ¬ (system user).Outstanding SignsIn Checks before

theorem always_signInChecked_iff (user : Option String) (events : List Event) :
    (system user).Always SignInChecked events ↔ SignInsFollowed user events := by
  have flag : ∀ {before s}, (system user).Reaches before s →
      (s.unchecked = true ↔ (system user).Outstanding SignsIn Checks before) :=
    fun run => EventSystem.flag_iff_outstanding (fun s => s.unchecked = true)
      (by simp [system, State.checkAuthentication]) (fun s e t => unchecked_step) run
  refine forall₂_congr fun before s => imp_congr_right fun _ => forall_congr' fun run => ?_
  rw [SignInChecked, ← flag run, Bool.not_eq_true]

/-! ## The early returns -/

/-- A sign-in that has not been checked belongs to a flow that will check it. -/
def FlowPending (s : State) : Prop :=
  s.unchecked = true → ∃ flow ∈ s.flows, flow.stage.signedIn = true

/-- A flow that has signed in is still there when another one moves on or ends. -/
theorem pending_of_other {s : State} {i : Nat} {flow : Flow} (pending : FlowPending s)
    (found : s.flows[i]? = some flow) (other : flow.stage.signedIn = false)
    (unchecked : s.unchecked = true) :
    (∀ moved, ∃ f ∈ s.flows.set i moved, f.stage.signedIn = true) ∧
      ∃ f ∈ s.flows.eraseIdx i, f.stage.signedIn = true := by
  obtain ⟨f, member, signedIn⟩ := pending unchecked
  obtain ⟨j, at_⟩ := List.mem_iff_getElem?.mp member
  have different : j ≠ i := by
    rintro rfl
    rw [found] at at_
    rw [Option.some.inj at_, signedIn] at other
    cases other
  constructor
  · intro moved
    refine ⟨f, List.mem_iff_getElem?.mpr ⟨j, ?_⟩, signedIn⟩
    rw [List.getElem?_set_ne (Ne.symm different)]
    exact at_
  · exact ⟨f, List.mem_eraseIdx_iff_getElem?.mpr ⟨j, different, at_⟩, signedIn⟩

/-- The flow that moves on has itself signed in. -/
theorem pending_of_moved {flows : List Flow} {i : Nat} {flow : Flow} (moved : Flow)
    (found : flows[i]? = some flow) (signedIn : moved.stage.signedIn = true) :
    ∃ f ∈ flows.set i moved, f.stage.signedIn = true := by
  obtain ⟨bound, _⟩ := List.getElem?_eq_some_iff.mp found
  exact ⟨moved, List.mem_set bound moved, signedIn⟩

theorem flowPending_step {s t : State} {e : Event} (pending : FlowPending s)
    (effect : Effect s e t) (early : NoEarlyReturn s e t) : FlowPending t := by
  cases effect with
  | unchanged => exact pending
  | checked u => exact fun unchecked => absurd unchecked (by simp [State.checkAuthentication])
  | replaced page rest queue => exact pending
  | started flow =>
    intro unchecked
    obtain ⟨f, member, signedIn⟩ := pending unchecked
    exact ⟨f, List.mem_append_left _ member, signedIn⟩
  | signedIn i flow account stage found signedIn =>
    exact fun _ => pending_of_moved _ found signedIn
  | moved i flow stage found kept =>
    intro unchecked
    cases own : flow.stage.signedIn with
    | true => exact pending_of_moved _ found (kept early own)
    | false => exact (pending_of_other pending found own unchecked).1 _
  | ended i flow found other =>
    exact fun unchecked => (pending_of_other pending found (other early) unchecked).2

/-- Where no completion handler returns early after its flow has signed in, every
sign-in has been checked by the time everything is at rest. -/
theorem signInChecked_of_noEarlyReturn {user : Option String} {events : List Event}
    (early : (system user).EveryStep NoEarlyReturn events) :
    (system user).Always SignInChecked events := by
  have pending : (system user).Always FlowPending events := by
    refine early.always ?_ ?_
    · exact fun unchecked => absurd unchecked (by simp [system, State.checkAuthentication])
    · intro s e t _ pending taken early
      exact flowPending_step pending (step_effect taken) early
  intro before s pre run rest
  by_contra unchecked
  obtain ⟨flow, member, _⟩ := pending before s pre run (by simpa using unchecked)
  rw [rest.1] at member
  cases member

/-- Along every run, screen and session agree whenever everything is at rest exactly if
each sign-in that found nobody signed in has by then been followed by an event that
brings the screen in line, as it is where no completion handler returns early. -/
theorem agree_iff_signInsFollowed (user : Option String) (events : List Event) :
    ((system user).Always Agree events ↔ SignInsFollowed user events) ∧
      ((system user).EveryStep NoEarlyReturn events → (system user).Always Agree events) := by
  have checked : (system user).Always Agree events ↔ (system user).Always SignInChecked events :=
    EventSystem.always_congr
      (fun _ reachable => agree_iff_signInChecked (screenFollows reachable)) events
  exact ⟨checked.trans (always_signInChecked_iff user events),
    fun early => checked.mpr (signInChecked_of_noEarlyReturn early)⟩

/-- A registration whose profile write fails. -/
def profileFails : List Event :=
  [.rootReplaced, .registerButtonPressed ⟨"ann", "ann@mail.org", "secret"⟩,
    .signedIn 0 "ann@mail.org", .completed 0, .failed 0 "PERMISSION_DENIED", .completed 0]

theorem profileFails_not_agree : ¬ (system none).Always Agree profileFails := by
  decide

end QuickNote.Auth
