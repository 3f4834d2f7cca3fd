import LukePanel.Library.GoStrings

/-! # What a password login is decided on

The pure part of `login` (`internal/server/server.go`): the credentials it copies under the
read lock and the verdict it reaches from them. `auth.VerifyPassword` is a parameter. -/
namespace LukePanel.Server.Login
open LukePanel.Library.GoStrings

structure LoginRequest where
  username : String
  password : String
  otp : String
  deriving DecidableEq, Repr

/-- `passwordHash, adminUser, totpEnabled` as copied under `configMu.RLock`. -/
structure Snapshot where
  passwordHash : String
  adminUser : String
  totpEnabled : Bool
  deriving DecidableEq, Repr

def isSecondFactorMissing (code : String) : Bool := trimSpace code == ""

inductive Verdict where
  | failed
  | secondFactor
  | granted
  deriving DecidableEq, Repr

/-- The verdict before the second factor is verified. `verifyPassword password hash` is `none`
where `auth.VerifyPassword` returns an error. -/
def verdict (verifyPassword : String → String → Option Bool) (snap : Snapshot)
    (req : LoginRequest) : Verdict :=
  if verifyPassword req.password snap.passwordHash ≠ some true ∨ req.username ≠ snap.adminUser then
    .failed
  else if !snap.totpEnabled then .granted
  else if isSecondFactorMissing req.otp then .failed
  else .secondFactor

end LukePanel.Server.Login
