import LukePanel.Auth.Totp
import LukePanel.Config

/-! # Checking the second factor under the configuration lock

`verifySecondFactor` and `saveConfigWithSecondFactor` of `internal/server/totp.go`, from the
configuration they find under the lock to the one they save. -/
namespace LukePanel.Server.SecondFactor
open LukePanel.Library.GoStrings LukePanel.Auth.Totp

/-- `verifySecondFactor` answers at once, or once `updated` is saved: with success and
`recoveryUsed` if the save succeeds, with an error if it fails. -/
inductive Check where
  | answer (ok recoveryUsed : Bool)
  | save (updated : Config)
  deriving DecidableEq

def verifySecondFactor (macs : Macs) (code : String) (consumeRecovery : Bool) (now : Int)
    (cfg : Config) : Check :=
  let code := trimSpace code
  if cfg.totpSecret = "" then .answer true false
  else if verifyTOTP macs cfg.totpSecret code now then .answer true false
  else
    let remaining := consumeRecoveryCode macs code cfg.sessionSecret cfg.recoveryCodeHashes
    if !remaining.2 then .answer false false
    else if !consumeRecovery then .answer true true
    else .save { cfg with recoveryCodeHashes := remaining.1 }

inductive SecondFactorError where
  | errSecondFactorRequired
  | errSecondFactorInvalid
  | errConfigChanged
  deriving DecidableEq, Repr

def SecondFactorError.text : SecondFactorError → String
  | .errSecondFactorRequired => "second factor required"
  | .errSecondFactorInvalid => "second factor invalid"
  | .errConfigChanged => "configuration changed"

/-- The clone with the recovery code taken out, and whether one was used. -/
def consumeSecondFactor (macs : Macs) (code : String) (now : Int) (cfg : Config) :
    Except SecondFactorError (Config × Bool) :=
  if cfg.totpSecret = "" then .ok (cfg, false)
  else if code = "" then .error .errSecondFactorRequired
  else if verifyTOTP macs cfg.totpSecret code now then .ok (cfg, false)
  else
    let remaining := consumeRecoveryCode macs code cfg.sessionSecret cfg.recoveryCodeHashes
    if !remaining.2 then .error .errSecondFactorInvalid
    else .ok ({ cfg with recoveryCodeHashes := remaining.1 }, true)

/-- What is saved, and whether a recovery code is used up by it. -/
def saveConfigWithSecondFactor (macs : Macs) (code : String) (now : Int)
    (mutate : Config → Except SecondFactorError Config) (cfg : Config) :
    Except SecondFactorError (Config × Bool) := do
  let (updated, recoveryUsed) ← consumeSecondFactor macs (trimSpace code) now cfg
  let updated ← mutate updated
  return (updated, recoveryUsed)

/-- The mutation of `changePassword`; `passwordHash` is the hash the password was verified
against. -/
def setPassword (passwordHash newHash : String) (updated : Config) :
    Except SecondFactorError Config :=
  if updated.passwordHash ≠ passwordHash then .error .errConfigChanged
  else .ok { updated with passwordHash := newHash }

/-- The mutation of `changeAccount`. -/
def setAccount (passwordHash oldUser username : String) (updated : Config) :
    Except SecondFactorError Config :=
  if updated.passwordHash ≠ passwordHash ∨ updated.adminUser ≠ oldUser then
    .error .errConfigChanged
  else .ok { updated with adminUser := username }

/-! ## The recovery entry a check uses up -/

/-- The stored hash that a check of `code` uses up in `cfg`, when it falls back to the recovery
codes and one matches. -/
def usedEntry (macs : Macs) (code : String) (now : Int) (cfg : Config) : Option String :=
  if cfg.totpSecret = "" ∨ verifyTOTP macs cfg.totpSecret (trimSpace code) now then none
  else consumedEntry macs (trimSpace code) cfg.sessionSecret cfg.recoveryCodeHashes

/-- `verifySecondFactor` saves exactly when it consumes an entry, and what it saves is the
configuration without it. -/
theorem verify_save {macs : Macs} {code : String} {now : Int} {cfg updated : Config}
    (h : verifySecondFactor macs code true now cfg = .save updated) :
    ∃ entry, usedEntry macs code now cfg = some entry ∧
      (entry :: updated.recoveryCodeHashes).Perm cfg.recoveryCodeHashes ∧
      updated = { cfg with recoveryCodeHashes := updated.recoveryCodeHashes } := by
  unfold verifySecondFactor at h
  simp only [Bool.not_true, Bool.false_eq_true, if_false] at h
  split at h
  · cases h
  · rename_i hsecret
    split at h
    · cases h
    · rename_i htotp
      split at h
      · cases h
      · rename_i hused
        obtain ⟨entry, he, _, hperm⟩ := consume_some (by simpa using hused)
        cases h
        exact ⟨entry, by rw [usedEntry, if_neg (by simp [hsecret, htotp]), he], hperm, rfl⟩

/-- The clone differs from the configuration in the consumed entry alone. -/
theorem consume_ok {macs : Macs} {code : String} {now : Int} {cfg updated : Config} {used : Bool}
    (h : consumeSecondFactor macs (trimSpace code) now cfg = .ok (updated, used)) :
    ((usedEntry macs code now cfg).toList ++ updated.recoveryCodeHashes).Perm
        cfg.recoveryCodeHashes ∧
      used = (usedEntry macs code now cfg).isSome ∧
      updated = { cfg with recoveryCodeHashes := updated.recoveryCodeHashes } := by
  unfold consumeSecondFactor at h
  split at h
  · rename_i hsecret
    cases h
    rw [usedEntry, if_pos (Or.inl hsecret)]
    exact ⟨.refl _, rfl, rfl⟩
  · rename_i hsecret
    split at h
    · cases h
    · split at h
      · rename_i htotp
        cases h
        rw [usedEntry, if_pos (Or.inr htotp)]
        exact ⟨.refl _, rfl, rfl⟩
      · rename_i htotp
        simp only at h
        split at h
        · cases h
        · rename_i hused
          obtain ⟨entry, he, _, hperm⟩ := consume_some (by simpa using hused)
          cases h
          rw [usedEntry, if_neg (by simp [hsecret, htotp]), he]
          exact ⟨hperm, rfl, rfl⟩

/-- A combined save mutates the clone that the second factor has passed. -/
theorem saveConfig_split {macs : Macs} {code : String} {now : Int}
    {mutate : Config → Except SecondFactorError Config} {cfg updated : Config} {used : Bool}
    (h : saveConfigWithSecondFactor macs code now mutate cfg = .ok (updated, used)) :
    ∃ c, consumeSecondFactor macs (trimSpace code) now cfg = .ok (c, used) ∧
      mutate c = .ok updated := by
  unfold saveConfigWithSecondFactor at h
  cases hc : consumeSecondFactor macs (trimSpace code) now cfg with
  | error e => rw [hc] at h; cases h
  | ok p =>
    obtain ⟨c, u⟩ := p
    cases hm : mutate c with
    | error e => simp only [hc, hm, bind, Except.bind] at h; cases h
    | ok c' =>
      simp only [hc, hm, bind, Except.bind, pure, Except.pure, Except.ok.injEq, Prod.mk.injEq] at h
      obtain ⟨rfl, rfl⟩ := h
      exact ⟨c, rfl, hm⟩

/-- A save combined with the second factor takes the used entry out, if its mutation leaves the
hashes alone. -/
theorem saveConfig_ok {macs : Macs} {code : String} {now : Int}
    {mutate : Config → Except SecondFactorError Config} {cfg updated : Config} {used : Bool}
    (hkeep : ∀ c c', mutate c = .ok c' → c'.recoveryCodeHashes = c.recoveryCodeHashes)
    (h : saveConfigWithSecondFactor macs code now mutate cfg = .ok (updated, used)) :
    ((usedEntry macs code now cfg).toList ++ updated.recoveryCodeHashes).Perm
        cfg.recoveryCodeHashes ∧
      used = (usedEntry macs code now cfg).isSome := by
  obtain ⟨c, hc, hm⟩ := saveConfig_split h
  obtain ⟨hperm, hused, _⟩ := consume_ok hc
  exact ⟨hkeep c updated hm ▸ hperm, hused⟩

theorem setPassword_ok {passwordHash newHash : String} {c c' : Config}
    (h : setPassword passwordHash newHash c = .ok c') :
    c.passwordHash = passwordHash ∧ c' = { c with passwordHash := newHash } := by
  unfold setPassword at h
  split at h
  · cases h
  · rename_i hsame
    cases h
    exact ⟨not_not.mp hsame, rfl⟩

theorem setAccount_ok {passwordHash oldUser username : String} {c c' : Config}
    (h : setAccount passwordHash oldUser username c = .ok c') :
    c.passwordHash = passwordHash ∧ c.adminUser = oldUser ∧
      c' = { c with adminUser := username } := by
  unfold setAccount at h
  split at h
  · cases h
  · rename_i hsame
    obtain ⟨hhash, huser⟩ := not_or.mp hsame
    cases h
    exact ⟨not_not.mp hhash, not_not.mp huser, rfl⟩

end LukePanel.Server.SecondFactor
