import LukePanel.Server.ConfigHandlers

/-! # Single use of recovery codes

Runs of the requests that check a second factor: `login`, `elevate`, `changePassword` and
`changeAccount`. All four consume a recovery code in the configuration they save under
`configMu`, the last two together with their own change. -/
namespace LukePanel.Server.RecoveryCodes
open LukePanel.Auth.Totp LukePanel.Library.LockedStore LukePanel.Library.Machine
open LukePanel.Server.ConfigHandlers LukePanel.Server.SecondFactor

/-- A stored hash that a request uses up when it runs on `cfg`. -/
def entryOf (macs : Macs) (cfg : Config) : Request → Option String
  | .login otp now | .elevate otp now | .changePassword otp now .. | .changeAccount otp now .. =>
    usedEntry macs otp now cfg
  | _ => none

def secondFactor : Request → Bool
  | .login .. | .elevate .. | .changePassword .. | .changeAccount .. => true
  | _ => false

/-- The stored hashes that authorised a history of answered requests, one after another. -/
def authorised (macs : Macs) (cfg : Config) : List (Request ⊕ Config) → List String
  | [] => []
  | .inl r :: rest =>
    (entryOf macs cfg r).toList ++ authorised macs ((locked macs r cfg).getD cfg) rest
  | .inr archive :: rest => authorised macs (restore archive cfg) rest

/-! ## One request -/

/-- What a request saves lacks exactly the entry it uses up. -/
theorem locked_hashes {macs : Macs} {r : Request} {cfg updated : Config}
    (hr : secondFactor r = true) (h : locked macs r cfg = some updated) :
    ((entryOf macs cfg r).toList ++ updated.recoveryCodeHashes).Perm cfg.recoveryCodeHashes := by
  cases r with
  | login otp now | elevate otp now =>
    simp only [locked] at h
    split at h
    · cases h
    · rename_i saved hsave
      obtain ⟨entry, hentry, hperm, _⟩ := verify_save hsave
      cases h
      rw [entryOf, hentry]
      exact hperm
  | changePassword otp now passwordHash newHash =>
    simp only [locked] at h
    split at h
    · cases h
    · rename_i saved used hsave
      cases h
      exact (saveConfig_ok (fun a b hab => by rw [(setPassword_ok hab).2]) hsave).1
  | changeAccount otp now passwordHash oldUser username =>
    simp only [locked] at h
    split at h
    · cases h
    · rename_i saved used hsave
      cases h
      exact (saveConfig_ok (fun a b hab => by rw [(setAccount_ok hab).2.2]) hsave).1
  | _ => cases hr

/-- Over a history, the entries used up and the entries left are the entries at the start. -/
theorem authorised_perm {macs : Macs} {requests : List (Request ⊕ Config)} {init cfg : Config}
    (hr : ∀ e ∈ requests, ∃ r, e = .inl r ∧ secondFactor r = true)
    (h : (panel macs).serial init requests = some cfg) :
    (authorised macs init requests ++ cfg.recoveryCodeHashes).Perm init.recoveryCodeHashes := by
  induction requests generalizing init with
  | nil =>
    simp only [Writers.serial, List.foldlM_nil, Option.pure_def, Option.some.injEq] at h
    rw [h]
    exact .refl _
  | cons e rest ih =>
    obtain ⟨r, rfl, hsf⟩ := hr e List.mem_cons_self
    obtain ⟨c, hc, hrest⟩ := Option.bind_eq_some_iff.mp h
    have hlocked : locked macs r init = some c := hc
    have hstep := locked_hashes hsf hlocked
    have hperm := ih (fun e' he' => hr e' (List.mem_cons_of_mem _ he')) hrest
    rw [authorised, hlocked, Option.getD_some, List.append_assoc]
    exact (hperm.append_left _).trans hstep

/-! ## Runs -/

variable {macs : Macs} {init : Config} {s : State Config Request Config}

/-- **A recovery code is used once, saved first, and kept when the request fails.** In every run
of the four requests: the entries that authorised the answered requests and the entries stored
are together the entries stored at the start; a request about to succeed has saved the
configuration without the entry it uses up; and a request whose save fails leaves the file and
the memory as it found them, as does one that ends before its save. -/
theorem recovery_codes_single_use
    (h : Reaches (step (panel macs)) (LockedOnly fun r => secondFactor r = true) (start init) s) :
    (authorised macs init s.answered ++ s.memory.recoveryCodeHashes).Perm
        init.recoveryCodeHashes ∧
    (∀ i r updated, s.thread i = .written r updated → s.file = updated ∧
      ((entryOf macs s.memory r).toList ++ s.file.recoveryCodeHashes).Perm
        s.memory.recoveryCodeHashes) ∧
    (∀ i t, step (panel macs) s (.write i false) = some t →
      s.file = s.memory ∧ t.file = s.file ∧ t.memory = s.memory) ∧
    (∀ i r t, locked macs r s.memory = none → step (panel macs) s (.enter i r) = some t →
      t = s) := by
  obtain ⟨hi, ho⟩ := ordered_of_lockedOnly h
  refine ⟨authorised_perm ho.answers hi.history, ?_, ?_, ?_⟩
  · intro i r updated hp
    have hfile := (file_of_lockedOnly h i).2 r updated hp
    have hlocked : locked macs r s.memory = some updated :=
      (hi.lock i r updated (by rw [hp]; rfl)).2
    have hr := ho.phases i
    rw [hp] at hr
    exact ⟨hfile, hfile ▸ locked_hashes hr hlocked⟩
  · intro i t hs
    cases did_of_step hs with
    | failed hp => exact ⟨(file_of_lockedOnly h i).1 _ _ hp, rfl, rfl⟩
  · intro i r t hnone hs
    cases did_of_step hs with
    | refused => rfl
    | entered _ _ hsome =>
      have : locked macs r s.memory = some _ := hsome
      rw [hnone] at this
      cases this

/-- MACs that keep the message, and a code of the panel in the current and the legacy form. -/
def plainMacs : Macs := ⟨fun _ message => message, fun _ message => message, fun _ _ => ""⟩

def enrolled : Config :=
  { Config.default with totpSecret := "SECRET", recoveryCodeHashes := ["sha512:ABCD", "ABCD"] }

/-- The code is stored twice: it passes two logins and no third. -/
theorem code_stored_twice_used_twice : ∃ s,
    run (step (panel plainMacs)) (start enrolled) [.enter 0 (.login "abcd" 0), .write 0 true,
      .publish 0, .enter 1 (.elevate "ab-cd" 0), .write 1 true, .publish 1,
      .enter 2 (.login "abcd" 0)] = some s ∧
    s.memory.recoveryCodeHashes = [] ∧
    (authorised plainMacs enrolled s.answered).Perm ["sha512:ABCD", "ABCD"] := by
  have hrun : (runIf (step (panel plainMacs)) (lockedOnlyCheck secondFactor) (start enrolled)
      [.enter 0 (.login "abcd" 0), .write 0 true, .publish 0, .enter 1 (.elevate "ab-cd" 0),
        .write 1 true, .publish 1, .enter 2 (.login "abcd" 0)]).map
      (fun s => s.memory.recoveryCodeHashes) = some [] := by decide +kernel
  obtain ⟨s, hs, hnone⟩ := Option.map_eq_some_iff.mp hrun
  have hperm := (recovery_codes_single_use (reaches_of_runIf lockedOnly_of_check hs)).1
  rw [hnone, List.append_nil] at hperm
  exact ⟨s, run_of_runIf hs, hnone, hperm⟩

end LukePanel.Server.RecoveryCodes
