import LukePanel.Auth.Webauthn
import LukePanel.Library.HeldDocuments
import LukePanel.Server.ConfigHandlers

/-! # The configuration file against the configuration in memory

Runs of any number of requests that rewrite the configuration, and of backup imports. An import
saves before it takes the lock, so a save of another request may come between its save and its
assignment; where none does, and no passkey is registered under a name that is cut inside a
character, the file and `s.cfg` agree at rest and no answered change is lost. -/
namespace LukePanel.Server.ConfigStore
open LukePanel.Auth LukePanel.Auth.Totp LukePanel.Library LukePanel.Library.LockedStore
open LukePanel.Library.Machine LukePanel.Server.ConfigHandlers

variable {macs : Macs} {init doc : Config} {s : State Config Request Config}

/-- A field that none of the answered requests touches is what it was. -/
theorem serial_untouched {c c' : Config} {requests : List (Request ⊕ Config)}
    (h : (panel macs).serial c requests = some c') {f : Config.Field}
    (hf : ∀ e ∈ requests, f ∉ touches e) : c.get f = c'.get f :=
  serial_frame (fun f c c' => c.get f = c'.get f) (fun e f => f ∈ touches e)
    (fun _ _ => rfl) (fun _ _ _ _ => Eq.trans) (fun _ _ _ h f hf => frame_apply h f hf) h hf

/-! ## Names -/

/-- A passkey is registered under a name that is text. -/
def Named : Request → Prop
  | .passkeyRegisterFinish _ _ credential => Utf8.Valid credential.name
  | _ => True

/-- A name that is not cut is text. -/
theorem valid_credentialName {name : String} {bytes : Utf8.Bytes}
    (h : Webauthn.credentialName name = .ok bytes)
    (hlength : (Utf8.encode (GoStrings.trimSpace name)).length ≤ 80) : Utf8.Valid bytes := by
  unfold Webauthn.credentialName at h
  dsimp only at h
  by_cases hempty : GoStrings.trimSpace name = ""
  · have hshort : ¬ 80 < (Utf8.encode "此设备 Passkey").length := by decide +kernel
    rw [if_pos hempty, if_neg hshort] at h
    cases h
    exact Utf8.valid_encode _
  · rw [if_neg hempty, if_neg (Nat.not_lt.mpr hlength)] at h
    cases h
    exact Utf8.valid_encode _

theorem legible_of_locked {r : Request} {c c' : Config} (hr : Named r) (hc : c.Legible)
    (h : locked macs r c = some c') : c'.Legible := by
  have hframe : Frame (touches (.inl r)) c c' := frame_apply (show (panel macs).apply c (.inl r) = some c' from h)
  cases r with
  | passkeyLoginFinish origin rpID id count now =>
    simp only [locked, passkeyLoginFinish] at h
    split at h
    · cases h
    · cases h
      intro p hp
      obtain ⟨j, hj, rfl⟩ := List.mem_iff_getElem.mp hp
      rw [List.length_modify, pinWebAuthn_passkeys] at hj
      have hname := hc _ (List.getElem_mem hj)
      simp only [List.getElem_modify, pinWebAuthn_passkeys]
      split <;> exact hname
  | passkeyRegisterFinish origin rpID credential =>
    simp only [locked, passkeyRegisterFinish, Option.ite_none_left_eq_some, Option.some.injEq] at h
    obtain ⟨-, -, rfl⟩ := h
    rw [Config.Legible, pinWebAuthn_passkeys]
    exact List.forall_mem_append.mpr ⟨hc, List.forall_mem_singleton.mpr hr⟩
  | passkeyDelete id =>
    simp only [locked, passkeyDelete, Option.ite_none_right_eq_some, Option.some.injEq] at h
    obtain ⟨-, rfl⟩ := h
    exact fun p hp => hc p (List.mem_filter.mp hp).1
  | _ =>
    have hpasskeys : c.passkeys = c'.passkeys := hframe .passkeys (by simp only [touches]; decide)
    rw [Config.Legible, ← hpasskeys]
    exact hc

/-! ## Runs -/

/-- Saves come in order, and a passkey is registered under a name that is text. -/
def Orderly (macs : Macs) (s : State Config Request Config) (a : Act Request Config) : Prop :=
  Ordered (panel macs) s a ∧ a.Entering Named

theorem legible_reaches (h : Reaches (step (panel macs)) (Orderly macs) (start doc.decoded) s) :
    s.All Config.Legible fun _ => True := by
  refine h.invariant (P := fun s => s.All Config.Legible fun _ => True)
    (all_start (Config.legible_decoded doc)) fun t a u hall hguard hstep => ?_
  exact (all_step (w := panel macs) (R := Named) (fun _ _ _ hr hc => legible_of_locked hr hc)
    (fun archive _ _ _ => Config.legible_decoded archive) hguard.2 (fun _ _ _ => trivial) hstep hall).1

/-- **Nothing is lost in an ordered run.** A panel starts with what it reads of `doc`. In a run in
which no configuration is saved while a restore has saved and not yet assigned its own, every
restore saves what it would make of the file as it is, and no passkey is registered under a name
that is cut inside a character: whenever no request is at work, what is read of the file is the
configuration in memory; each field an answered request has touched holds the value that request
gave it unless a request answered later touches it; and the other fields are what they were. -/
theorem quiescent_keeps_answered
    (h : Reaches (step (panel macs)) (Orderly macs) (start doc.decoded) s)
    (hidle : ∀ i, s.thread i = .idle) :
    s.file.decoded = s.memory ∧
    (∀ before e after, s.answered = before ++ e :: after →
      ∃ c c', (panel macs).serial doc.decoded before = some c ∧ (panel macs).apply c e = some c' ∧
        ∀ f, (∀ e' ∈ after, f ∉ touches e') → s.memory.get f = c'.get f) ∧
    (∀ f, (∀ e ∈ s.answered, f ∉ touches e) → s.memory.get f = doc.decoded.get f) := by
  obtain ⟨hfile, hserial⟩ := quiescent (h.mono fun _ _ hguard => hguard.1) hidle
  have hlegible : s.memory.Legible := (legible_reaches h).memory
  refine ⟨?_, ?_, fun f hf => (serial_untouched hserial hf).symm⟩
  · rw [hfile, Config.decoded_eq_iff]
    exact hlegible
  · intro before e after hsplit
    rw [hsplit] at hserial
    obtain ⟨c, c', hc, he, hafter⟩ := serial_split hserial
    exact ⟨c, c', hc, he, fun f hf => (serial_untouched hafter hf).symm⟩

/-- A valid configuration; the MACs play no part. -/
def installed : Config :=
  { Config.default with
    passwordHash := "hash"
    sessionSecret := "session"
    agentSecret := "agent" }

def noMacs : Macs := ⟨fun _ _ => "", fun _ _ => "", fun _ _ => ""⟩

/-- The archive of a panel with another account. -/
def archive : Config := { installed with adminUser := "luke" }

/-- An import, and a change of the settings after it. -/
theorem import_then_settings : ∃ s,
    run (step (panel noMacs)) (start installed) [.copy 0 archive, .store 0, .install 0,
      .enter 1 (.settings 10), .write 1 true, .publish 1] = some s ∧
    s.file.decoded = s.memory ∧ s.memory.get .adminUser = "luke" ∧
    s.memory.get .autoRefreshSeconds = (10 : Int) := by
  have hstored : Reaches (step (panel noMacs)) (Orderly noMacs) (start installed.decoded) _ :=
    (Reaches.refl.tail (a := .copy 0 archive) ⟨trivial, trivial⟩ rfl).tail (a := .store 0)
      ⟨⟨fun i hi => by rcases i with _ | i <;> exact hi, fun k copy hc => by cases hc; rfl⟩, trivial⟩ rfl
  have hsettings := ((hstored.tail (a := Act.install 0) ⟨trivial, trivial⟩ rfl).tail
    (a := Act.enter 1 (.settings 10)) ⟨trivial, by exact trivial⟩ rfl).tail (a := Act.write 1 true)
      ⟨fun i hi => by rcases i with _ | _ | i <;> exact hi, trivial⟩ rfl
  have hrun := hsettings.tail (a := Act.publish 1) ⟨trivial, trivial⟩ rfl
  obtain ⟨hfile, hkept, _⟩ := quiescent_keeps_answered hrun
    fun i => by rcases i with _ | _ | i <;> rfl
  refine ⟨_, rfl, hfile, ?_, ?_⟩
  · obtain ⟨c, c', _, he, hkeep⟩ := hkept [] (.inr archive) [.inl (.settings 10)] rfl
    refine (hkeep .adminUser (by decide)).trans ?_
    cases he
    rfl
  · obtain ⟨c, c', _, he, hkeep⟩ := hkept [.inr archive] (.inl (.settings 10)) [] rfl
    refine (hkeep .autoRefreshSeconds (by decide)).trans ?_
    cases he
    rfl

/-! ## A save between an import's save and its assignment, and a name that is cut -/

/-- Twenty-seven characters of three bytes each. -/
def longName : String := "我的工作笔记本电脑上的指纹识别器以及备用的安全密钥一把"

def cutName : Utf8.Bytes := (Utf8.encode longName).take 80

theorem credentialName_longName : Webauthn.credentialName longName = .ok cutName := by decide +kernel

/-- The import saves, the settings are changed and answered, the import assigns: at rest the
file has the new settings and the old account, the memory the reverse. And a passkey registered
under a long name has another name in the file than in memory. -/
theorem import_splits_file :
    (∃ s, run (step (panel noMacs)) (start installed) [.copy 0 archive, .store 0,
        .enter 1 (.settings 10), .write 1 true, .publish 1, .install 0] = some s ∧
      (∀ i, s.thread i = .idle) ∧ s.answered = [.inl (.settings 10), .inr archive] ∧
      s.file.decoded ≠ s.memory ∧ s.file.decoded.adminUser = "admin" ∧
      s.memory.autoRefreshSeconds = 5) ∧
    ∃ name s, Webauthn.credentialName longName = .ok name ∧
      run (step (panel noMacs)) (start installed)
        [.enter 0 (.passkeyRegisterFinish "https://panel.example.com" "panel.example.com"
          ⟨"AQ", name, "AQ", "AQ", 0, 1, 0⟩), .write 0 true, .publish 0] = some s ∧
      (∀ i, s.thread i = .idle) ∧ s.file.decoded ≠ s.memory := by
  refine ⟨⟨_, rfl, fun i => ?_, rfl, by decide, rfl, rfl⟩, cutName, _, credentialName_longName, rfl,
    fun i => ?_, fun heq => ?_⟩
  · rcases i with _ | _ | i <;> rfl
  · rcases i with _ | i <;> rfl
  · have hvalid : ¬ Utf8.Valid cutName := by decide +kernel
    exact hvalid (Config.decoded_eq_iff.mp heq ⟨"AQ", cutName, "AQ", "AQ", 0, 1, 0⟩ List.mem_cons_self)

end LukePanel.Server.ConfigStore
