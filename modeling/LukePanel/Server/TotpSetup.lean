import LukePanel.Library.Machine
import LukePanel.Server.RecoveryCodes

/-! # Setting up the second factor

The handlers of `internal/server/totp.go` interleaved with the requests that check a second
factor: when the secret changes, and when there are recovery codes. -/
namespace LukePanel.Server.TotpSetup
open LukePanel.Library LukePanel.Auth.Totp
open LukePanel.Server.ConfigHandlers LukePanel.Server.RecoveryCodes

/-! ## Runs -/

/-- `totpPendingSetup`, with times in seconds. -/
structure TotpPendingSetup where
  secret : String
  codes : List String
  expiresAt : Int
deriving DecidableEq

/-- A `totpSetup` that has found the second factor off, with what it has generated. -/
structure Setup where
  session : String
  secret : String
  codes : List String

/-- A `totpConfirm` whose code was right, before its save or after it. -/
structure Confirm where
  session : String
  pending : TotpPendingSetup
  saved : Bool

structure State where
  cfg : Config
  totpPending : String → Option TotpPendingSetup
  setups : List Setup
  confirms : List Confirm

def start (cfg : Config) : State := ⟨cfg, fun _ => none, [], []⟩

/-- `written` is whether the save succeeds. -/
inductive Action where
  | setupCheck (session secret : String) (codes : List String)
  | setupStore (index : ℕ) (now : Int)
  | confirmCheck (session code : String) (now : Int)
  | confirmSave (index : ℕ) (written : Bool)
  | confirmDone (index : ℕ)
  | disable (written : Bool)
  | regenerate (codes : List String) (written : Bool)
  | check (request : Request) (written : Bool)

def setPending (s : State) (session : String) (pending : Option TotpPendingSetup) : State :=
  { s with totpPending := Function.update s.totpPending session pending }

variable (macs : Macs)

/-- A request that has changed the configuration under the lock saves it. -/
def save (s : State) (request : Request) (written : Bool) : State :=
  match locked macs request s.cfg with
  | some updated => if written then { s with cfg := updated } else s
  | none => s

def checkPending (s : State) (session code : String) (now : Int) : State :=
  match s.totpPending session with
  | none => s
  | some pending =>
    if pending.expiresAt < now then setPending s session none
    else if verifyTOTP macs pending.secret code now then
      { s with confirms := s.confirms ++ [⟨session, pending, false⟩] }
    else s

def saveConfirmed (s : State) (index : ℕ) (confirm : Confirm) (written : Bool) : State :=
  save macs { s with
    confirms := if written then s.confirms.set index { confirm with saved := true }
      else s.confirms.eraseIdx index }
    (.totpConfirm confirm.pending.secret confirm.pending.codes) written

/-- A generated secret is 20 random bytes in base32, and there are ten codes. -/
def Generated (secret : String) (codes : List String) : Prop := secret ≠ "" ∧ codes.length = 10

instance (secret : String) (codes : List String) : Decidable (Generated secret codes) :=
  inferInstanceAs (Decidable (_ ∧ _))

def step (s : State) : Action → Option State
  | .setupCheck session secret codes =>
    if s.cfg.totpSecret ≠ "" then some s
    else if Generated secret codes then
      some { s with setups := s.setups ++ [⟨session, secret, codes⟩] }
    else none
  | .setupStore index now => s.setups[index]?.map fun setup =>
    { setPending s setup.session (some ⟨setup.secret, setup.codes, now + 600⟩) with
      setups := s.setups.eraseIdx index }
  | .confirmCheck session code now => some (checkPending macs s session code now)
  | .confirmSave index written =>
    match s.confirms[index]? with
    | some confirm =>
      if confirm.saved then none else some (saveConfirmed macs s index confirm written)
    | none => none
  | .confirmDone index =>
    match s.confirms[index]? with
    | some confirm =>
      if confirm.saved then
        some { setPending s confirm.session none with confirms := s.confirms.eraseIdx index }
      else none
    | none => none
  | .disable written => some (save macs s .totpDisable written)
  | .regenerate codes written =>
    if codes.length = 10 then some (save macs s (.totpRegenerateRecovery codes) written) else none
  | .check request written =>
    if secondFactor request then some (save macs s request written) else none

/-! ## What is kept -/

/-- There are recovery codes only with a secret. -/
def CodesNeedSecret (cfg : Config) : Prop := cfg.recoveryCodeHashes ≠ [] → cfg.totpSecret ≠ ""

/-- The secret goes only by being disabled, and the recovery codes go with it. -/
structure SecretKept (guard : State → Action → Prop) (s : State) : Prop where
  kept : ∀ a s', guard s a → step macs s a = some s' → s.cfg.totpSecret ≠ "" →
    s'.cfg.totpSecret = s.cfg.totpSecret ∨ a = .disable true
  codes : CodesNeedSecret s.cfg

/-- A confirmation that is saved finds the second factor off or its own secret, and recovery codes
are regenerated for a secret. -/
def Meets (s : State) : Action → Prop
  | .confirmSave index written => ∀ confirm ∈ s.confirms[index]?, written = true →
    s.cfg.totpSecret = "" ∨ s.cfg.totpSecret = confirm.pending.secret
  | .regenerate _ written => written = true → s.cfg.totpSecret ≠ ""
  | .setupCheck _ _ _ | .setupStore _ _ | .confirmCheck _ _ _ | .confirmDone _ | .disable _
  | .check _ _ => True

instance (s : State) : (a : Action) → Decidable (Meets s a)
  | .confirmSave index _ => inferInstanceAs (Decidable (∀ confirm ∈ s.confirms[index]?, _))
  | .regenerate _ _ => inferInstanceAs (Decidable (_ → _))
  | .setupCheck _ _ _ | .setupStore _ _ | .confirmCheck _ _ _ | .confirmDone _ | .disable _
  | .check _ _ => inferInstanceAs (Decidable True)

/-! ## What a step does -/

variable {macs} {s s' : State} {a : Action} {cfg updated : Config} {request : Request}

/-- A checked second factor leaves the secret. -/
theorem secret_of_secondFactor (hr : secondFactor request = true)
    (h : locked macs request cfg = some updated) : updated.totpSecret = cfg.totpSecret := by
  have happly : (panel macs).apply cfg (.inl request) = some updated := h
  have hframe := frame_apply happly .totpSecret
  cases request with
  | login otp now => exact (hframe (by simp [touches])).symm
  | elevate otp now => exact (hframe (by simp [touches])).symm
  | changePassword otp now passwordHash newHash => exact (hframe (by simp [touches])).symm
  | changeAccount otp now passwordHash oldUser username => exact (hframe (by simp [touches])).symm
  | _ => cases hr

/-- It takes recovery codes away only. -/
theorem codes_of_secondFactor (hr : secondFactor request = true)
    (h : locked macs request cfg = some updated) (hcodes : CodesNeedSecret cfg) :
    CodesNeedSecret updated := by
  intro hne
  rw [secret_of_secondFactor hr h]
  refine hcodes fun hnil => hne ?_
  have hperm := locked_hashes hr h
  rw [hnil] at hperm
  exact (List.append_eq_nil_iff.mp hperm.eq_nil).2

/-- There are recovery codes only with a secret, and every pending secret is one. -/
structure Inv (s : State) : Prop where
  codes : CodesNeedSecret s.cfg
  pending : ∀ session pending, s.totpPending session = some pending → pending.secret ≠ ""
  setups : ∀ setup ∈ s.setups, setup.secret ≠ ""
  confirms : ∀ confirm ∈ s.confirms, confirm.pending.secret ≠ ""

theorem Inv.setPending (h : Inv s) (session : String) {pending : Option TotpPendingSetup}
    (hpending : ∀ p ∈ pending, p.secret ≠ "") : Inv (TotpSetup.setPending s session pending) := by
  refine ⟨h.codes, fun other p hp => ?_, h.setups, h.confirms⟩
  by_cases hother : other = session
  · exact hpending p (by simpa [TotpSetup.setPending, hother] using hp)
  · exact h.pending other p (by simpa [TotpSetup.setPending, hother] using hp)

/-- A save changes nothing but the configuration, and that to what was made under the lock. -/
theorem save_cfg (macs : Macs) (s : State) (request : Request) (written : Bool) :
    ∃ cfg, save macs s request written = { s with cfg := cfg } ∧
      (cfg = s.cfg ∨ written = true ∧ locked macs request s.cfg = some cfg) := by
  unfold save
  split
  · rename_i updated hlocked
    split
    · exact ⟨updated, rfl, .inr ⟨‹_›, hlocked⟩⟩
    · exact ⟨s.cfg, rfl, .inl rfl⟩
  · exact ⟨s.cfg, rfl, .inl rfl⟩

/-- What holds of a step: the invariant, and what it does to the secret. -/
structure Kept (s : State) (a : Action) (s' : State) : Prop where
  inv : Inv s'
  secret : s.cfg.totpSecret ≠ "" → s'.cfg.totpSecret = s.cfg.totpSecret ∨ a = .disable true

theorem Kept.of_cfg (h : Inv s') (hcfg : s'.cfg = s.cfg) : Kept s a s' :=
  ⟨h, fun _ => .inl (by rw [hcfg])⟩

theorem Kept.save (h : Inv s) {written : Bool}
    (hsave : ∀ cfg, written = true → locked macs request s.cfg = some cfg →
      CodesNeedSecret cfg ∧
        (s.cfg.totpSecret ≠ "" → cfg.totpSecret = s.cfg.totpSecret ∨ a = .disable true)) :
    Kept s a (TotpSetup.save macs s request written) := by
  obtain ⟨cfg, heq, hcfg⟩ := save_cfg macs s request written
  rw [heq]
  rcases hcfg with rfl | ⟨hwritten, hlocked⟩
  · exact .of_cfg h rfl
  · obtain ⟨hcodes, hsecret⟩ := hsave cfg hwritten hlocked
    exact ⟨⟨hcodes, h.pending, h.setups, h.confirms⟩, hsecret⟩

theorem Kept.setupStore (h : Inv s) {index : ℕ} {now : Int}
    (hstep : step macs s (.setupStore index now) = some s') : Kept s (.setupStore index now) s' := by
  obtain ⟨setup, hsetup, rfl⟩ := Option.map_eq_some_iff.mp hstep
  have hpending : Inv (TotpSetup.setPending s setup.session
      (some ⟨setup.secret, setup.codes, now + 600⟩)) := by
    refine h.setPending setup.session fun p hp => ?_
    rw [← Option.some.inj hp]
    exact h.setups setup (List.mem_of_getElem? hsetup)
  refine .of_cfg ⟨hpending.codes, hpending.pending, fun other hother => ?_, hpending.confirms⟩ rfl
  exact h.setups other (List.mem_of_mem_eraseIdx hother)

theorem Inv.checkPending (h : Inv s) (session code : String) (now : Int) :
    Inv (TotpSetup.checkPending macs s session code now) := by
  unfold TotpSetup.checkPending
  split
  · exact h
  rename_i pending hpending
  split
  · exact h.setPending session nofun
  split
  · refine ⟨h.codes, h.pending, h.setups, fun confirm hconfirm => ?_⟩
    rcases List.mem_append.mp hconfirm with hold | hnew
    · exact h.confirms confirm hold
    · rw [List.mem_singleton.mp hnew]
      exact h.pending session pending hpending
  · exact h

theorem checkPending_cfg (s : State) (session code : String) (now : Int) :
    (checkPending macs s session code now).cfg = s.cfg := by
  unfold checkPending
  repeat' split
  all_goals rfl

theorem Kept.confirmSave (h : Inv s) {index : ℕ} {written : Bool}
    (hm : Meets s (.confirmSave index written))
    (hstep : step macs s (.confirmSave index written) = some s') :
    Kept s (.confirmSave index written) s' := by
  simp only [step] at hstep
  split at hstep
  · rename_i confirm hconfirm
    simp only [Option.ite_none_left_eq_some, Option.some.injEq] at hstep
    obtain ⟨-, rfl⟩ := hstep
    have hsecret := h.confirms confirm (List.mem_of_getElem? hconfirm)
    have hmoved : Inv { s with
        confirms := if written then s.confirms.set index { confirm with saved := true }
          else s.confirms.eraseIdx index } := by
      refine ⟨h.codes, h.pending, h.setups, fun other hother => ?_⟩
      dsimp only at hother
      split at hother
      · rcases List.mem_or_eq_of_mem_set hother with hold | rfl
        · exact h.confirms other hold
        · exact hsecret
      · exact h.confirms other (List.mem_of_mem_eraseIdx hother)
    have hsaved : Kept _ (.confirmSave index written) (saveConfirmed macs s index confirm written) :=
      .save hmoved fun cfg hwritten hlocked => by
        rw [← Option.some.inj hlocked]
        refine ⟨fun _ => hsecret, fun hon => .inl ?_⟩
        exact ((hm confirm hconfirm hwritten).resolve_left hon).symm
    exact ⟨hsaved.inv, hsaved.secret⟩
  · cases hstep

theorem Kept.confirmDone (h : Inv s) {index : ℕ}
    (hstep : step macs s (.confirmDone index) = some s') : Kept s (.confirmDone index) s' := by
  simp only [step] at hstep
  split at hstep
  · rename_i confirm _
    simp only [Option.ite_none_right_eq_some, Option.some.injEq] at hstep
    obtain ⟨-, rfl⟩ := hstep
    have hpending : Inv (TotpSetup.setPending s confirm.session none) :=
      h.setPending confirm.session nofun
    refine .of_cfg ⟨hpending.codes, hpending.pending, hpending.setups, fun other hother => ?_⟩ rfl
    exact h.confirms other (List.mem_of_mem_eraseIdx hother)
  · cases hstep

theorem Kept.step (h : Inv s) (hm : Meets s a) (hstep : TotpSetup.step macs s a = some s') :
    Kept s a s' := by
  cases a with
  | setupCheck session secret codes =>
    simp only [TotpSetup.step] at hstep
    split at hstep
    · exact .of_cfg (Option.some.inj hstep ▸ h) (by rw [← Option.some.inj hstep])
    · simp only [Option.ite_none_right_eq_some, Option.some.injEq] at hstep
      obtain ⟨hgenerated, rfl⟩ := hstep
      refine .of_cfg ⟨h.codes, h.pending, fun setup hsetup => ?_, h.confirms⟩ rfl
      rcases List.mem_append.mp hsetup with hold | hnew
      · exact h.setups setup hold
      · rw [List.mem_singleton.mp hnew]
        exact hgenerated.1
  | setupStore index now => exact .setupStore h hstep
  | confirmCheck session code now =>
    rw [← Option.some.inj hstep]
    exact .of_cfg (h.checkPending session code now) (checkPending_cfg s session code now)
  | confirmSave index written => exact .confirmSave h hm hstep
  | confirmDone index => exact .confirmDone h hstep
  | disable written =>
    rw [← Option.some.inj hstep]
    refine .save h fun cfg hwritten hlocked => ?_
    rw [← Option.some.inj hlocked]
    exact ⟨fun hne => absurd rfl hne, fun _ => .inr (by rw [hwritten])⟩
  | regenerate codes written =>
    simp only [TotpSetup.step, Option.ite_none_right_eq_some, Option.some.injEq] at hstep
    obtain ⟨-, rfl⟩ := hstep
    refine .save h fun cfg hwritten hlocked => ?_
    rw [← Option.some.inj hlocked]
    exact ⟨fun _ => hm hwritten, fun _ => .inl rfl⟩
  | check request written =>
    simp only [TotpSetup.step, Option.ite_none_right_eq_some, Option.some.injEq] at hstep
    obtain ⟨hrequest, rfl⟩ := hstep
    refine .save h fun cfg hwritten hlocked => ?_
    exact ⟨codes_of_secondFactor hrequest hlocked h.codes,
      fun _ => .inl (secret_of_secondFactor hrequest hlocked)⟩

/-- **The secret is replaced only after it is disabled, and recovery codes need one, in every state
of a run whose confirmations and regenerations meet the condition.** -/
theorem secret_kept (hcfg : CodesNeedSecret cfg)
    (h : Machine.Reaches (step macs) Meets (start cfg) s) : SecretKept macs Meets s := by
  have hstart : Inv (start cfg) := by
    refine ⟨hcfg, fun _ _ hpending => ?_, fun _ hsetup => ?_, fun _ hconfirm => ?_⟩
    · cases hpending
    · cases hsetup
    · cases hconfirm
  have hinv : Inv s := h.invariant (P := Inv) hstart
    fun _ _ _ hinv hm hstep => (Kept.step hinv hm hstep).inv
  exact ⟨fun a s' hm hstep => (Kept.step hinv hm hstep).secret, hinv.codes⟩

/-! ## Concrete runs -/

def firstSecret : String := "AEBAGBAFAYDQQCIKBMGA2DQPCAIREEYU"

def secondSecret : String := "AIBQIBIGA4EASCQLBQGQ4DYQCEJBGFAV"

/-- The codes of the two secrets for the first minutes. -/
def firstCodes (secret : String) (counter : Int) : String :=
  if secret = firstSecret then ["486114", "711172", "145319", "940376"].getD counter.toNat ""
  else ["441652", "335163", "714572", "204520"].getD counter.toNat ""

def sampleMacs : Macs := ⟨fun _ message => message, fun _ message => message, firstCodes⟩

def tenCodes : List String := List.replicate 10 "AAAA-BBBB"

/-- A setup is confirmed and disabled, and then another one. -/
theorem second_setup_after_disable : ∃ s,
    Machine.Reaches (step sampleMacs) Meets (start Config.default) s ∧
      s.cfg.totpSecret = secondSecret ∧ SecretKept sampleMacs Meets s := by
  have hrun : (Machine.runIf (step sampleMacs) (fun s a => decide (Meets s a))
      (start Config.default)
      [.setupCheck "a" firstSecret tenCodes, .setupStore 0 0, .confirmCheck "a" "711172" 30,
        .confirmSave 0 true, .confirmDone 0, .regenerate tenCodes true, .disable true,
        .setupCheck "b" secondSecret tenCodes, .setupStore 0 60, .confirmCheck "b" "204520" 90,
        .confirmSave 0 true]).map (·.cfg.totpSecret) = some secondSecret := by decide +kernel
  obtain ⟨s, hs, hsecret⟩ := Option.map_eq_some_iff.mp hrun
  have hreach := Machine.reaches_of_runIf (fun _ _ h => of_decide_eq_true h) hs
  exact ⟨s, hreach, hsecret, secret_kept (fun hne => absurd rfl hne) hreach⟩

/-- Of two setups that were started before either is confirmed, the second replaces the first. -/
theorem second_setup_replaces_secret : ∃ s,
    Machine.Reaches (step sampleMacs) Machine.Free (start Config.default) s ∧
      ¬ SecretKept sampleMacs Machine.Free s := by
  have hrun : (Machine.run (step sampleMacs) (start Config.default)
      [.setupCheck "a" firstSecret tenCodes, .setupStore 0 0,
        .setupCheck "b" secondSecret tenCodes, .setupStore 0 0,
        .confirmCheck "a" "711172" 30, .confirmSave 0 true, .confirmDone 0,
        .confirmCheck "b" "714572" 60]).map (fun s => (s.cfg.totpSecret,
          (step sampleMacs s (.confirmSave 0 true)).map (·.cfg.totpSecret))) =
      some (firstSecret, some secondSecret) := by decide +kernel
  obtain ⟨s, hs, hval⟩ := Option.map_eq_some_iff.mp hrun
  obtain ⟨hfirst, hnext⟩ := Prod.mk.inj hval
  obtain ⟨s', hs', hsecond⟩ := Option.map_eq_some_iff.mp hnext
  refine ⟨s, Machine.reaches_of_run hs, fun hkept => ?_⟩
  rcases hkept.kept _ _ trivial hs' (by rw [hfirst]; decide) with hsame | hdisable
  · rw [hfirst, hsecond] at hsame
    exact absurd hsame (by decide)
  · cases hdisable

end LukePanel.Server.TotpSetup
