import LukePanel.Library.GoStrings
import Mathlib.Logic.Function.Basic

/-! # Connecting GitHub

The locked sections of `internal/server/github_auth.go` over the maps of device flows and of
credentials. -/
namespace LukePanel.Server.GithubAuth
open LukePanel.Library.GoStrings

structure User where
  login : String
  name : String
  avatarURL : String
  htmlURL : String
deriving DecidableEq

structure GithubCredential where
  token : String
  user : User
  scope : String
  connectedAt : ℕ
deriving DecidableEq

structure GithubDeviceFlow where
  session : String
  clientID : String
  deviceCode : String
  userCode : String
  verificationURI : String
  scope : String
  expiresAt : ℕ
  interval : ℕ
  nextPoll : ℕ
deriving DecidableEq

/-- `githubTokens` by session and `githubFlows` by their ids. -/
structure Store where
  githubTokens : String → Option GithubCredential
  githubFlows : String → Option GithubDeviceFlow

def Store.setToken (store : Store) (session : String) (credential : GithubCredential) : Store :=
  { store with githubTokens := Function.update store.githubTokens session (some credential) }

def Store.setFlow (store : Store) (flowID : String) (flow : GithubDeviceFlow) : Store :=
  { store with githubFlows := Function.update store.githubFlows flowID (some flow) }

def Store.deleteFlow (store : Store) (flowID : String) : Store :=
  { store with githubFlows := Function.update store.githubFlows flowID none }

/-- Deletes the flows of a session. -/
def Store.deleteFlowsOf (store : Store) (session : String) : Store :=
  { store with githubFlows := fun id =>
      (store.githubFlows id).filter fun flow => flow.session ≠ session }

/-! ## Starting a flow -/

def defaultGitHubDeviceClientID : String := "178c6fc778ccc68e1d6a"

def validClientID (clientID : String) : Bool :=
  12 ≤ clientID.utf8ByteSize && clientID.utf8ByteSize ≤ 128 &&
    !containsAny clientID [' ', '\t', '\r', '\n']

/-- What `StartDeviceFlow` returns. -/
structure DeviceCode where
  deviceCode : String
  userCode : String
  verificationURI : String
  expiresIn : ℕ
  interval : ℕ

def newFlow (session clientID : String) (device : DeviceCode) (now : ℕ) : GithubDeviceFlow where
  session := session
  clientID := clientID
  deviceCode := device.deviceCode
  userCode := device.userCode
  verificationURI := device.verificationURI
  scope := "repo workflow read:user"
  expiresAt := now + device.expiresIn
  interval := device.interval
  nextPoll := now + device.interval

/-- `githubDeviceStart`: the flow takes the place of the session's others. -/
def deviceStart (store : Store) (session flowID clientID : String) (device : DeviceCode)
    (now : ℕ) : Store :=
  (store.deleteFlowsOf session).setFlow flowID (newFlow session clientID device now)

/-! ## Polling a flow -/

/-- What `githubDevicePoll` finds out before it asks GitHub. -/
inductive PollCheck where
  | missing
  | expired
  | early (retryAfter : ℕ)
  | ask (clientID deviceCode : String)
deriving DecidableEq

def pollCheck (store : Store) (session flowID : String) (now : ℕ) : PollCheck × Store :=
  match store.githubFlows flowID with
  | none => (.missing, store)
  | some flow =>
    if flow.session ≠ session then (.missing, store)
    else if flow.expiresAt < now then (.expired, store.deleteFlow flowID)
    else if now < flow.nextPoll then (.early (flow.nextPoll - now + 1), store)
    else (.ask flow.clientID flow.deviceCode,
      store.setFlow flowID { flow with nextPoll := now + flow.interval })

/-- What `PollDeviceFlow` returns. Only a pending flow is slowed down. -/
inductive DevicePoll where
  | authorized (accessToken scope : String)
  | pending (message : String) (intervalIncrease : ℕ)
  | expired (message : String)
  | denied (message : String)

/-- What `githubDevicePoll` does to the flow when GitHub has answered. -/
def pollReply (store : Store) (flowID : String) (result : DevicePoll) (now : ℕ) : Store :=
  match result with
  | .authorized _ _ => store
  | .pending _ increase =>
    if 0 < increase then
      match store.githubFlows flowID with
      | some current => store.setFlow flowID
          { current with
            interval := current.interval + increase
            nextPoll := now + (current.interval + increase) }
      | none => store
    else store
  | .expired _ | .denied _ => store.deleteFlow flowID

/-- The end of `githubDevicePoll`: the credential is stored and the flow is over. -/
def pollInstall (store : Store) (session flowID : String) (credential : GithubCredential) : Store :=
  (store.setToken session credential).deleteFlow flowID

/-! ## Ending flows -/

def deviceCancel (store : Store) (session flowID : String) : Store :=
  if flowID ≠ "" then
    match store.githubFlows flowID with
    | some flow => if flow.session = session then store.deleteFlow flowID else store
    | none => store
  else store.deleteFlowsOf session

def validToken (token : String) : Bool :=
  20 ≤ token.utf8ByteSize && token.utf8ByteSize ≤ 512 && !containsAny token [' ', '\t', '\r', '\n']

/-- `githubTokenConnect` -/
def tokenConnect (store : Store) (session : String) (credential : GithubCredential) : Store :=
  (store.setToken session credential).deleteFlowsOf session

/-- `clearGitHubSession`, of `githubDisconnect` and of `logout` -/
def clearGitHubSession (store : Store) (session : String) : Store :=
  { store with githubTokens := Function.update store.githubTokens session none }.deleteFlowsOf
    session

end LukePanel.Server.GithubAuth
