import LukePanel.Library.LockedStore
import LukePanel.Server.SecondFactor

/-! # The handlers that rewrite the configuration

Every handler but one clones `s.cfg`, changes the clone, saves it and assigns it under
`configMu`. `backupImport` copies under a read lock, saves without the lock and locks again for
the assignment. A request carries what its handler has read or computed before it takes the
lock. -/
namespace LukePanel.Server.ConfigHandlers
open LukePanel.Auth.Totp LukePanel.Config LukePanel.Library.LockedStore
open LukePanel.Server.SecondFactor

inductive Request where
  /-- `verifySecondFactor(otp, true)` of `login` and of `elevate`. -/
  | login (otp : String) (now : Int)
  | elevate (otp : String) (now : Int)
  | changePassword (otp : String) (now : Int) (passwordHash newHash : String)
  | changeAccount (otp : String) (now : Int) (passwordHash oldUser username : String)
  | upgradePasswordKDF (currentHash upgraded : String)
  | passkeyLoginFinish (origin rpID id : String) (count : UInt32) (now : Nat)
  | passkeyRegisterFinish (origin rpID : String) (credential : PasskeyCredential)
  | passkeyDelete (id : String)
  | ipAllowlist (enabled : Bool) (entries : List String) (hash : String) (expires : Nat)
  | ipAllowlistRecover (tokenHash : String) (now : Nat)
  | loginNotifications (enabled : Bool) (botToken chatID : String)
  | settings (autoRefreshSeconds : Int)
  | totpConfirm (secret : String) (codes : List String)
  | totpDisable
  | totpRegenerateRecovery (codes : List String)
  deriving DecidableEq

/-! ## Passkeys -/

/-- An unset WebAuthn context is pinned to the one of the challenge. -/
def pinWebAuthn (origin rpID : String) (updated : Config) : Config :=
  if updated.webAuthnOrigin = "" ∧ updated.webAuthnRPID = "" then
    { updated with webAuthnOrigin := origin, webAuthnRPID := rpID }
  else updated

theorem pinWebAuthn_passkeys (origin rpID : String) (cfg : Config) :
    (pinWebAuthn origin rpID cfg).passkeys = cfg.passkeys := by
  unfold pinWebAuthn
  split <;> rfl

def passkeyLoginFinish (origin rpID id : String) (count : UInt32) (now : Nat) (cfg : Config) :
    Option Config :=
  let updated := pinWebAuthn origin rpID cfg
  match updated.passkeys.findIdx? (·.id == id) with
  | none => none
  | some i =>
    some { updated with
      passkeys := updated.passkeys.modify i fun p => { p with signCount := count, lastUsed := now } }

def passkeyRegisterFinish (origin rpID : String) (credential : PasskeyCredential) (cfg : Config) :
    Option Config :=
  let updated := pinWebAuthn origin rpID cfg
  if updated.passkeys.any (·.id == credential.id) then none
  else if 12 ≤ updated.passkeys.length then none
  else some { updated with passkeys := updated.passkeys ++ [credential] }

def passkeyDelete (id : String) (cfg : Config) : Option Config :=
  if cfg.passkeys.any (·.id == id) then
    some { cfg with passkeys := cfg.passkeys.filter fun item => !(item.id == id) }
  else none

/-! ## The other sections -/

def ipAllowlistRecover (tokenHash : String) (now : Nat) (cfg : Config) : Option Config :=
  if cfg.ipRecoveryHash = "" ∨ cfg.ipRecoveryExpires < now ∨ cfg.ipRecoveryHash ≠ tokenHash then none
  else some { cfg with ipAllowlistEnabled := false, ipRecoveryHash := "", ipRecoveryExpires := 0 }

/-- `^[0-9]{5,16}:[A-Za-z0-9_-]{20,100}$` -/
def telegramToken (token : String) : Bool :=
  let digits := token.toList.takeWhile Char.isDigit
  let rest := token.toList.dropWhile Char.isDigit
  5 ≤ digits.length && digits.length ≤ 16 && rest.head? == some ':' &&
    20 ≤ rest.tail.length && rest.tail.length ≤ 100 &&
    rest.tail.all fun c => c.isDigit || ('A' ≤ c && c ≤ 'Z') || ('a' ≤ c && c ≤ 'z') ||
      c == '_' || c == '-'

/-- `^-?[0-9]{4,24}$` -/
def telegramChat (chat : String) : Bool :=
  let digits := if chat.toList.head? = some '-' then chat.toList.tail else chat.toList
  4 ≤ digits.length && digits.length ≤ 24 && digits.all Char.isDigit

def loginNotifications (enabled : Bool) (botToken chatID : String) (cfg : Config) :
    Option Config :=
  if botToken ≠ "" ∧ !telegramToken botToken then none
  else if chatID ≠ "" ∧ !telegramChat chatID then none
  else
    let updated := { cfg with
      telegramBotToken := if botToken ≠ "" then botToken else cfg.telegramBotToken
      telegramChatID := if chatID ≠ "" then chatID else cfg.telegramChatID }
    if enabled ∧ (updated.telegramBotToken = "" ∨ updated.telegramChatID = "") then none
    else some { updated with loginNotifyEnabled := enabled }

/-- What a request saves, if it gets as far as its save. -/
def locked (macs : Macs) (r : Request) (cfg : Config) : Option Config :=
  match r with
  | .login otp now | .elevate otp now =>
    match verifySecondFactor macs otp true now cfg with
    | .answer .. => none
    | .save updated => some updated
  | .changePassword otp now passwordHash newHash =>
    match saveConfigWithSecondFactor macs otp now (setPassword passwordHash newHash) cfg with
    | .error _ => none
    | .ok (updated, _) => some updated
  | .changeAccount otp now passwordHash oldUser username =>
    match saveConfigWithSecondFactor macs otp now (setAccount passwordHash oldUser username) cfg with
    | .error _ => none
    | .ok (updated, _) => some updated
  | .upgradePasswordKDF currentHash upgraded =>
    if cfg.passwordHash ≠ currentHash then none else some { cfg with passwordHash := upgraded }
  | .passkeyLoginFinish origin rpID id count now => passkeyLoginFinish origin rpID id count now cfg
  | .passkeyRegisterFinish origin rpID credential =>
    passkeyRegisterFinish origin rpID credential cfg
  | .passkeyDelete id => passkeyDelete id cfg
  | .ipAllowlist enabled entries hash expires =>
    some { cfg with
      ipAllowlistEnabled := enabled
      ipAllowlist := entries
      ipRecoveryHash := hash
      ipRecoveryExpires := expires }
  | .ipAllowlistRecover tokenHash now => ipAllowlistRecover tokenHash now cfg
  | .loginNotifications enabled botToken chatID => loginNotifications enabled botToken chatID cfg
  | .settings seconds =>
    -- checked before the lock is taken
    if seconds < 2 ∨ 300 < seconds then none else some { cfg with autoRefreshSeconds := seconds }
  | .totpConfirm secret codes =>
    some { cfg with
      totpSecret := secret
      recoveryCodeHashes := codes.map fun code => hashRecoveryCode macs code cfg.sessionSecret }
  | .totpDisable => some { cfg with totpSecret := "", recoveryCodeHashes := [] }
  | .totpRegenerateRecovery codes =>
    some { cfg with
      recoveryCodeHashes := codes.map fun code => hashRecoveryCode macs code cfg.sessionSecret }

/-- `backupImport`: what is read of the configuration of the archive, with the endpoints and secrets
of this machine taken from its copy `current`. -/
def restore (archive current : Config) : Config :=
  let restored := archive.decoded
  { restored with
    listen := current.listen
    dataDir := current.dataDir
    agentSocket := current.agentSocket
    agentSecret := current.agentSecret
    sessionSecret := current.sessionSecret
    secureCookie := current.secureCookie
    trustedProxy := current.trustedProxy
    webAuthnOrigin := current.webAuthnOrigin
    webAuthnRPID := current.webAuthnRPID
    autoRefreshSeconds :=
      if restored.autoRefreshSeconds = 0 then Config.default.autoRefreshSeconds
      else restored.autoRefreshSeconds }

/-- The panel's writers; an unlocked request is the configuration of an uploaded archive. -/
def panel (macs : Macs) : Writers Config Request Config := ⟨locked macs, restore⟩

/-! ## What each request touches -/

def touches : Request ⊕ Config → List Field
  | .inl (.login ..) | .inl (.elevate ..) => [.recoveryCodeHashes]
  | .inl (.changePassword ..) => [.passwordHash, .recoveryCodeHashes]
  | .inl (.changeAccount ..) => [.adminUser, .recoveryCodeHashes]
  | .inl (.upgradePasswordKDF ..) => [.passwordHash]
  | .inl (.passkeyLoginFinish ..) | .inl (.passkeyRegisterFinish ..) =>
    [.webAuthnOrigin, .webAuthnRPID, .passkeys]
  | .inl (.passkeyDelete _) => [.passkeys]
  | .inl (.ipAllowlist ..) => [.ipAllowlistEnabled, .ipAllowlist, .ipRecoveryHash, .ipRecoveryExpires]
  | .inl (.ipAllowlistRecover ..) => [.ipAllowlistEnabled, .ipRecoveryHash, .ipRecoveryExpires]
  | .inl (.loginNotifications ..) => [.loginNotifyEnabled, .telegramBotToken, .telegramChatID]
  | .inl (.settings _) => [.autoRefreshSeconds]
  | .inl (.totpConfirm ..) | .inl .totpDisable => [.totpSecret, .recoveryCodeHashes]
  | .inl (.totpRegenerateRecovery _) => [.recoveryCodeHashes]
  | .inr _ => [.adminUser, .passwordHash, .allowedRoots, .autoRefreshSeconds, .totpSecret,
      .recoveryCodeHashes, .passkeys, .ipAllowlistEnabled, .ipAllowlist, .ipRecoveryHash,
      .ipRecoveryExpires, .loginNotifyEnabled, .telegramBotToken, .telegramChatID]

/-- The configurations agree on every field that is not listed. -/
def Frame (fields : List Field) (c c' : Config) : Prop := ∀ f, f ∉ fields → c.get f = c'.get f

theorem Frame.mono {fields fields' : List Field} {c c' : Config} (h : Frame fields c c')
    (hsub : ∀ f ∈ fields, f ∈ fields') : Frame fields' c c' :=
  fun f hf => h f fun hm => hf (hsub f hm)

theorem Frame.trans {fields : List Field} {a b c : Config} (h : Frame fields a b)
    (h' : Frame fields b c) : Frame fields a c :=
  fun f hf => (h f hf).trans (h' f hf)

theorem frame_hashes (c : Config) (hashes : List String) :
    Frame [.recoveryCodeHashes] c { c with recoveryCodeHashes := hashes } := by
  intro f hf
  cases f <;> first | rfl | exact absurd (by decide) hf

theorem frame_pinWebAuthn (origin rpID : String) (c : Config) :
    Frame [.webAuthnOrigin, .webAuthnRPID] c (pinWebAuthn origin rpID c) := by
  intro f hf
  unfold pinWebAuthn
  split
  · cases f <;> first | rfl | exact absurd (by decide) hf
  · rfl

theorem frame_passkeys {origin rpID : String} {c : Config} (passkeys : List PasskeyCredential) :
    Frame [.webAuthnOrigin, .webAuthnRPID, .passkeys] c
      { pinWebAuthn origin rpID c with passkeys := passkeys } := by
  refine (frame_pinWebAuthn origin rpID c).mono (by decide) |>.trans fun f hf => ?_
  cases f <;> first | rfl | exact absurd (by decide) hf

theorem frame_loginNotifications {enabled : Bool} {botToken chatID : String} {c c' : Config}
    (h : loginNotifications enabled botToken chatID c = some c') :
    Frame [.loginNotifyEnabled, .telegramBotToken, .telegramChatID] c c' := by
  intro f hf
  simp only [loginNotifications, Option.ite_none_left_eq_some, Option.some.injEq] at h
  obtain ⟨_, _, _, rfl⟩ := h
  cases f <;> first | rfl | exact absurd (by decide) hf

/-- The second factor alone changes the recovery hashes; a mutation then changes its field. -/
theorem frame_saveConfig {macs : Macs} {code : String} {now : Int} {fields : List Field}
    {mutate : Config → Except SecondFactorError Config} {c c' : Config} {used : Bool}
    (hm : ∀ a b, mutate a = .ok b → Frame fields a b) (hsub : .recoveryCodeHashes ∈ fields)
    (h : saveConfigWithSecondFactor macs code now mutate c = .ok (c', used)) :
    Frame fields c c' := by
  obtain ⟨d, hd, hmut⟩ := saveConfig_split h
  obtain ⟨_, _, heq⟩ := consume_ok hd
  have hclone : Frame fields c d := by
    rw [heq]
    exact (frame_hashes c _).mono fun f hf => by rw [List.mem_singleton.mp hf]; exact hsub
  exact hclone.trans (hm d c' hmut)

/-- **A request changes the fields it touches and no others.** -/
theorem frame_apply {macs : Macs} {e : Request ⊕ Config} {c c' : Config}
    (h : (panel macs).apply c e = some c') : Frame (touches e) c c' := by
  cases e with
  | inr archive =>
    cases h
    intro f hf
    simp only [touches] at hf
    cases f <;> first | rfl | exact absurd (by decide) hf
  | inl r =>
    replace h : locked macs r c = some c' := h
    cases r with
    | login otp now | elevate otp now =>
      simp only [locked] at h
      split at h
      · cases h
      · rename_i updated hsave
        obtain ⟨_, _, _, heq⟩ := verify_save hsave
        cases h
        rw [heq]
        exact frame_hashes c _
    | changePassword otp now passwordHash newHash =>
      simp only [locked] at h
      split at h
      · cases h
      · rename_i updated used hsave
        cases h
        refine frame_saveConfig (fun a b hab f hf => ?_) (List.mem_of_elem_eq_true rfl) hsave
        rw [(setPassword_ok hab).2]
        simp only [touches] at hf
        cases f <;> first | rfl | exact absurd (by decide) hf
    | changeAccount otp now passwordHash oldUser username =>
      simp only [locked] at h
      split at h
      · cases h
      · rename_i updated used hsave
        cases h
        refine frame_saveConfig (fun a b hab f hf => ?_) (List.mem_of_elem_eq_true rfl) hsave
        rw [(setAccount_ok hab).2.2]
        simp only [touches] at hf
        cases f <;> first | rfl | exact absurd (by decide) hf
    | passkeyLoginFinish origin rpID id count now =>
      simp only [locked, passkeyLoginFinish] at h
      split at h
      · cases h
      · cases h
        exact frame_passkeys _
    | passkeyRegisterFinish origin rpID credential =>
      simp only [locked, passkeyRegisterFinish] at h
      split at h
      · cases h
      · split at h
        · cases h
        · cases h
          exact frame_passkeys _
    | loginNotifications enabled botToken chatID => exact frame_loginNotifications h
    | _ =>
      intro f hf
      simp only [touches] at hf
      simp only [locked, passkeyDelete, ipAllowlistRecover] at h
      first
        | cases h
        | split at h <;> cases h
      all_goals cases f <;> first | rfl | exact absurd (by decide) hf

end LukePanel.Server.ConfigHandlers
