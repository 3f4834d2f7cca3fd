import LukePanel.Config
import LukePanel.Library.Attempt
import LukePanel.Library.NetUrl

/-! # Which configurations are accepted

`Validate` of `internal/config/config.go`, which `Save` and `LoadOrCreate` call. -/
namespace LukePanel.Config
open LukePanel.Library LukePanel.Library.GoStrings LukePanel.Library.NetAddress

/-- `^[A-Za-z][A-Za-z0-9_.-]{2,31}$` -/
def adminUserPattern (user : String) : Bool :=
  match user.toList with
  | c :: rest => c.isAlpha && 2 ≤ rest.length && rest.length ≤ 31 &&
      rest.all fun c => c.isAlphanum || c = '_' || c = '.' || c = '-'
  | [] => false

/-- The case folding of `strings.EqualFold`, as far as the result is ASCII. -/
def foldChar (c : Char) : Char :=
  if c.toNat = 383 then 's' else if c.toNat = 8490 then 'k' else c.toLower

/-- `strings.EqualFold` -/
def equalFold (s t : String) : Bool := s.toList.map foldChar = t.toList.map foldChar

/-- `localhost`, or an address of the loopback network. -/
def isLoopbackHost (host : String) : Bool :=
  host = "localhost" || (parseIP host).any IP.isLoopback

/-- The checks up to those of the WebAuthn origin. -/
def validateRequired (c : Config) : Except String Unit := do
  if c.listen = "" ∨ c.dataDir = "" ∨ c.adminUser = "" ∨ c.passwordHash = "" ∨
      c.sessionSecret = "" ∨ c.agentSecret = "" ∨ c.agentSocket = "" then
    throw "config contains empty required fields"
  if adminUserPattern c.adminUser = false then
    throw "admin_user must start with a letter and contain 3-32 letters, digits, dots, underscores or hyphens"
  match splitHostPort c.listen with
  | none => throw "listen must be a valid host:port address"
  | some (host, port) =>
    if trimSpace host = "" ∧ c.listen.toList.head? ≠ some ':' then
      throw "listen must be a valid host:port address"
    if (parseInt port).all (fun n => n < 1 || 65535 < n) then
      throw "listen port must be between 1 and 65535"
  if c.allowedRoots = [] then throw "allowed_roots must not be empty"
  if c.autoRefreshSeconds < 2 ∨ 300 < c.autoRefreshSeconds then
    throw "auto_refresh_seconds must be between 2 and 300"

/-- The checks of a WebAuthn origin that is set. -/
def validateOrigin (origin rpID : String) : Except String Unit :=
  match NetUrl.parse origin with
  | none => .error "webauthn_origin must be an origin without path, query, fragment or credentials"
  | some parsed =>
    if parsed.host = [] ∨ parsed.user = true ∨ parsed.rawQuery ≠ [] ∨ parsed.fragment ≠ [] ∨
        parsed.path ≠ [] ∧ parsed.path ≠ ['/'] then
      .error "webauthn_origin must be an origin without path, query, fragment or credentials"
    else
      let host := toLower (String.ofList parsed.hostname)
      if host = "" ∨ equalFold host rpID = false then
        .error "webauthn_rp_id must match the WebAuthn origin hostname"
      else if parsed.scheme ≠ "https".toList ∧
          ¬ (parsed.scheme = "http".toList ∧ isLoopbackHost host = true) then
        .error "WebAuthn requires HTTPS except on loopback hosts"
      else .ok ()

def validate (c : Config) : Except String Unit := do
  validateRequired c
  let origin := trimSpace c.webAuthnOrigin
  let rpID := trimSpace c.webAuthnRPID
  if ¬ (origin = "" ↔ rpID = "") then
    throw "webauthn_origin and webauthn_rp_id must be configured together"
  if origin ≠ "" then
    if origin ≠ c.webAuthnOrigin ∨ rpID ≠ c.webAuthnRPID then
      throw "WebAuthn origin and RP ID must not contain surrounding whitespace"
    validateOrigin origin rpID

example : validate { Config.default with
    passwordHash := "p", sessionSecret := "s", agentSecret := "a",
    webAuthnOrigin := "http://panel.example.com", webAuthnRPID := "panel.example.com" } =
      .error "WebAuthn requires HTTPS except on loopback hosts" := by decide +kernel

/-- An accepted configuration with other WebAuthn values is judged by these alone. -/
theorem validate_of_origin {c c' : Config} (hc : c.validate = .ok ())
    (hsame : c'.validateRequired = c.validateRequired)
    (horigin : trimSpace c'.webAuthnOrigin = c'.webAuthnOrigin) (hne : c'.webAuthnOrigin ≠ "")
    (hrpID : trimSpace c'.webAuthnRPID = c'.webAuthnRPID) (hne' : c'.webAuthnRPID ≠ "") :
    c'.validate = validateOrigin c'.webAuthnOrigin c'.webAuthnRPID := by
  obtain ⟨⟨⟩, hrequired, _⟩ := Attempt.bind_eq_ok hc
  unfold validate
  rw [hsame, hrequired]
  simp only [horigin, hrpID, hne, hne', ne_eq, not_true, not_false_eq_true, or_self, iff_self,
    if_true, if_false]
  rfl

end LukePanel.Config
