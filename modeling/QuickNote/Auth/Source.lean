import QuickNote.Models

/-!
# Signing in and up

`AuthService.swift`, the completion handlers of the login, register and Google
flows and `SceneDelegate.checkAuthentication`.  As elsewhere a function that goes
on to an asynchronous call returns the request, and `none` is a trap.  Where a
handler asks for `self.view.window?.windowScene?.delegate`, whether its screen is
in the window is a parameter, and the result says whether `checkAuthentication` is
called.
-/

namespace QuickNote

open Firestore DocumentStore

namespace AuthService

/-- The document that a registration stores. -/
def registerData (userRequest : RegisterUserRequest) : DocumentData :=
  [⟨"username", .string userRequest.username⟩, ⟨"email", .string userRequest.email⟩,
    ⟨"password", .string userRequest.password⟩].toAList

/-- How `registerUser` goes on after `createUser`: it reports, or it stores the
profile. -/
inductive RegisterUser where
  | completion (wasRegistered : Bool) (error : Option String)
  | setData (write : DatabaseWrite)

/-- The completion handler of `createUser` (`AuthService.swift:32-54`). -/
def createUserCompletion (userRequest : RegisterUserRequest) (resultUser error : Option String) :
    Option RegisterUser :=
  match error, resultUser with
  | some error, _ => some (.completion false (some error))
  | none, none => some (.completion false none)
  | none, some _ => do
      let users ← collection "users"
      let document ← users.document userRequest.email
      return .setData (.set document (registerData userRequest))

/-- The completion handler of `setData` (`AuthService.swift:54-61`): the report. -/
def setDataCompletion (error : Option String) : Bool × Option String :=
  match error with
  | some error => (false, some error)
  | none => (true, none)

end AuthService

/-- The completion of `registerUser` in `registerButtonPressed`
(`RegisterController.swift:71-86`). -/
def RegisterController.registerUserCompletion (attached _isRegistered : Bool)
    (error : Option String) : Bool :=
  match error with
  | some _ => false
  | none => attached

/-- The completion of `signIn` (`LoginViewController.swift:58-72`). -/
def LoginViewController.signInCompletion (attached : Bool) (error : Option String) : Bool :=
  match error with
  | some _ => false
  | none => attached

/-- `GIDProfileData`. -/
structure GoogleProfile where
  name : String
  email : String
deriving DecidableEq

/-- `GIDGoogleUser`. -/
structure GoogleUser where
  idToken : Option String
  profile : Option GoogleProfile
deriving DecidableEq

namespace ViewController

/-- The completion of the Google sign-in (`OtherSigninHelper.swift:24-42`): the
user whose credential is signed in with, if it goes on. -/
def googleCompletion (result : Option GoogleUser) (error : Option String) : Option GoogleUser :=
  match error with
  | some _ => none
  | none => do
      let user ← result
      let _ ← user.idToken
      return user

/-- The document fields that a Google sign-in stores. -/
def googleData (username email : String) : DocumentData :=
  [⟨"username", .string username⟩, ⟨"email", .string email⟩].toAList

/-- The completion of `AuthService.signIn` (`OtherSigninHelper.swift:42-68`): the
profile write, and whether `checkAuthentication` is called. -/
def signInCompletion (attached : Bool) (user : GoogleUser) (error : Option String) :
    Option (Option DatabaseWrite × Bool) :=
  match error with
  | some _ => some (none, false)
  | none =>
    let username := (user.profile.map GoogleProfile.name).getD ""
    match user.profile.map GoogleProfile.email with
    | none => some (none, false)
    | some email => do
        let users ← collection "users"
        let document ← users.document email
        return (some (.merge document (googleData username email)), attached)

end ViewController

/-- The root controllers, by storyboard identifier. -/
inductive Page where
  | loginPage
  | landingPage
deriving DecidableEq

/-- `checkAuthentication` (`SceneDelegate.swift:42`): the page that the deferred
replacement will show. -/
def SceneDelegate.checkAuthentication (currentUser : Option String) : Page :=
  match currentUser with
  | none => .loginPage
  | some _ => .landingPage

end QuickNote
