import LukePanel.Library.Utf8

/-! # The panel configuration

`Config` of `internal/config/config.go`. `Save` writes a configuration as JSON and replaces the file
as a whole by renaming a synced temporary file, or fails and leaves it; `decoded` is what is read
back. Times are instants, `0` is Go's zero time. -/
namespace LukePanel
open LukePanel.Library

/-- The name is cut at a byte when the passkey is registered; the other strings are text. -/
structure PasskeyCredential where
  id : String
  name : Utf8.Bytes
  publicX : String
  publicY : String
  signCount : UInt32
  createdAt : Nat
  lastUsed : Nat
  deriving DecidableEq, Repr

structure Config where
  listen : String
  dataDir : String
  adminUser : String
  passwordHash : String
  sessionSecret : String
  agentSecret : String
  agentSocket : String
  trustedProxy : String
  secureCookie : Bool
  webAuthnOrigin : String
  webAuthnRPID : String
  allowedRoots : List String
  autoRefreshSeconds : Int
  totpSecret : String
  recoveryCodeHashes : List String
  passkeys : List PasskeyCredential
  ipAllowlistEnabled : Bool
  ipAllowlist : List String
  ipRecoveryHash : String
  ipRecoveryExpires : Nat
  loginNotifyEnabled : Bool
  telegramBotToken : String
  telegramChatID : String
  deriving DecidableEq, Repr

namespace Config

/-- `config.Default`. -/
def default : Config where
  listen := "127.0.0.1:6767"
  dataDir := "/var/lib/lukepanel"
  adminUser := "admin"
  passwordHash := ""
  sessionSecret := ""
  agentSecret := ""
  agentSocket := "/run/lukepanel/agent.sock"
  trustedProxy := ""
  secureCookie := true
  webAuthnOrigin := ""
  webAuthnRPID := ""
  allowedRoots := ["/"]
  autoRefreshSeconds := 5
  totpSecret := ""
  recoveryCodeHashes := []
  passkeys := []
  ipAllowlistEnabled := false
  ipAllowlist := []
  ipRecoveryHash := ""
  ipRecoveryExpires := 0
  loginNotifyEnabled := false
  telegramBotToken := ""
  telegramChatID := ""

/-! ## Fields -/

inductive Field where
  | listen | dataDir | adminUser | passwordHash | sessionSecret | agentSecret | agentSocket
  | trustedProxy | secureCookie | webAuthnOrigin | webAuthnRPID | allowedRoots
  | autoRefreshSeconds | totpSecret | recoveryCodeHashes | passkeys | ipAllowlistEnabled
  | ipAllowlist | ipRecoveryHash | ipRecoveryExpires | loginNotifyEnabled | telegramBotToken
  | telegramChatID
  deriving DecidableEq, Repr

def Field.Value : Field → Type
  | .secureCookie | .ipAllowlistEnabled | .loginNotifyEnabled => Bool
  | .allowedRoots | .recoveryCodeHashes | .ipAllowlist => List String
  | .passkeys => List PasskeyCredential
  | .autoRefreshSeconds => Int
  | .ipRecoveryExpires => Nat
  | _ => String

def get (c : Config) : (f : Field) → f.Value
  | .listen => c.listen
  | .dataDir => c.dataDir
  | .adminUser => c.adminUser
  | .passwordHash => c.passwordHash
  | .sessionSecret => c.sessionSecret
  | .agentSecret => c.agentSecret
  | .agentSocket => c.agentSocket
  | .trustedProxy => c.trustedProxy
  | .secureCookie => c.secureCookie
  | .webAuthnOrigin => c.webAuthnOrigin
  | .webAuthnRPID => c.webAuthnRPID
  | .allowedRoots => c.allowedRoots
  | .autoRefreshSeconds => c.autoRefreshSeconds
  | .totpSecret => c.totpSecret
  | .recoveryCodeHashes => c.recoveryCodeHashes
  | .passkeys => c.passkeys
  | .ipAllowlistEnabled => c.ipAllowlistEnabled
  | .ipAllowlist => c.ipAllowlist
  | .ipRecoveryHash => c.ipRecoveryHash
  | .ipRecoveryExpires => c.ipRecoveryExpires
  | .loginNotifyEnabled => c.loginNotifyEnabled
  | .telegramBotToken => c.telegramBotToken
  | .telegramChatID => c.telegramChatID

end Config

/-! ## What is read of a file -/

/-- What `json.Unmarshal` reads where `json.Marshal` has written the passkey. -/
def PasskeyCredential.decoded (p : PasskeyCredential) : PasskeyCredential :=
  { p with name := Utf8.coerced p.name }

theorem PasskeyCredential.decoded_eq_iff {p : PasskeyCredential} :
    p.decoded = p ↔ Utf8.Valid p.name := by
  constructor
  · exact congrArg PasskeyCredential.name
  · intro h
    rw [Utf8.Valid] at h
    rw [decoded, h]

namespace Config

/-- What is read of the file in which the configuration was saved. -/
def decoded (c : Config) : Config := { c with passkeys := c.passkeys.map PasskeyCredential.decoded }

/-- The names of the passkeys are text. -/
def Legible (c : Config) : Prop := ∀ p ∈ c.passkeys, Utf8.Valid p.name

theorem decoded_eq_iff {c : Config} : c.decoded = c ↔ c.Legible := by
  have hpasskeys : c.decoded = c ↔ c.passkeys.map PasskeyCredential.decoded = c.passkeys.map id := by
    rw [List.map_id]
    exact ⟨congrArg Config.passkeys, fun h => by rw [decoded, h]⟩
  rw [hpasskeys, List.map_inj_left]
  exact forall₂_congr fun p _ => PasskeyCredential.decoded_eq_iff

theorem legible_decoded (c : Config) : c.decoded.Legible := by
  intro p hp
  obtain ⟨q, -, rfl⟩ := List.mem_map.mp hp
  exact Utf8.valid_coerced q.name

theorem decoded_decoded (c : Config) : c.decoded.decoded = c.decoded :=
  decoded_eq_iff.mpr (legible_decoded c)

end Config

end LukePanel
