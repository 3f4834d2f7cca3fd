import LukePanel.Library.Machine
import LukePanel.Library.PhasedSwitch
import LukePanel.SshAdmin.Manager
import Mathlib.Data.Finset.Lattice.Lemmas

/-! # Switching the port of sshd

Runs of `ApplySettings` and `ConfirmPort` from any configuration of sshd. A switch of the port is
on trial until it is confirmed or cancelled; the host is a way in for every port that sshd listens
on, and along a run of calls that meet the condition below no port is lost but by a confirmation. -/
namespace LukePanel.SshAdmin.PortSwitch
open LukePanel.Library LukePanel.Library.GoStrings LukePanel.Library.PhasedSwitch
open LukePanel.SshAdmin.Sshd LukePanel.SshAdmin.Manager

/-- The files of the host, and the switch that is still unconfirmed. -/
structure State where
  host : Host
  trial : Option (Trial String)

inductive Call where
  | applySettings (answers : SettingsAnswers) (request : SettingsRequest)
  | confirmPort (answers : ConfirmAnswers) (keepNew : Bool)

def Call.perform (host : Host) : Call → Except String SettingsResult × Host
  | .applySettings answers request => Manager.applySettings answers request host
  | .confirmPort answers keepNew => Manager.confirmPort answers keepNew host

variable (sshd : Reader)

/-- `sshd -T` is answered truly. -/
def Enabled (s : State) : Call → Prop
  | .applySettings answers _ => Reports sshd s.host answers.sshdT
  | .confirmPort _ _ => True

instance (host : Host) (sshdT : Except String String) : Decidable (Reports sshd host sshdT) :=
  Machine.decidableForallOk sshdT

instance (s : State) : (c : Call) → Decidable (Enabled sshd s c)
  | .applySettings answers _ => inferInstanceAs (Decidable (Reports sshd s.host answers.sshdT))
  | .confirmPort _ _ => inferInstanceAs (Decidable True)

def trialAfter (s : State) : Call → Except String SettingsResult → Option (Trial String)
  | _, .error _ => s.trial
  | .applySettings _ _, .ok result =>
    if result.pendingPortConfirmation then
      some ⟨result.oldPort, result.newPort, ports sshd s.host⟩
    else none
  | .confirmPort _ _, .ok _ => none

def step (s : State) (c : Call) : Option State :=
  if Enabled sshd s c then
    some ⟨(c.perform s.host).2, trialAfter sshd s c (c.perform s.host).1⟩
  else none

/-! ## The condition on a call -/

/-- What the ports have to be like for a call of `ApplySettings`, by its fate: a rollback needs
the drop-in it has read, a switch that leaves no record must add nothing, and a rewrite of the
drop-in must find in it no port but the current one that the main file does not have. -/
def KeepsPorts (s : State) (answers : SettingsAnswers) (plan : Plan) : Fate → Prop
  | .refused => True
  | .rolledBack => answers.read = none ∨ dropInPorts sshd s.host ⊆ mainPorts sshd s.host
  | .unsaved =>
    configured sshd s.host = mainPorts sshd s.host ∪ {plan.currentPort, plan.newPort}
  | .switched => dropInPorts sshd s.host ⊆ insert plan.currentPort (mainPorts sshd s.host)
  | .settled => ∀ port ∈ dropInPorts sshd s.host, port ∈ mainPorts sshd s.host ∨
    port = plan.currentPort ∨ s.trial.map Trial.new = some port

/-- The record is that of the switch on trial, or there is none and what the record names is not
in the drop-in alone. -/
def OwnRecord (s : State) (keepNew : Bool) (pending : PendingPort) (content : String) : Prop :=
  s.trial.map (fun t => (t.old, t.new)) = some (pending.oldPort, pending.newPort) ∨
    s.trial.isNone ∧ ∀ line ∈ split '\n' content,
      trimSpace line = "Port " ++ droppedPort keepNew pending →
        ∀ port, sshd.portOf line = some port → port ∈ mainPorts sshd s.host

def Meets (s : State) : Call → Prop
  | .applySettings answers request => ∀ plan, planSettings answers request = .ok plan →
    KeepsPorts sshd s answers plan (fate answers plan)
  | .confirmPort answers keepNew => ∀ pending ∈ loadPendingPort answers.load s.host,
    ∀ content, readFile answers.read s.host.dropIn = .ok content →
      answers.reload.outcome = .done → OwnRecord sshd s keepNew pending content

instance (s : State) (answers : SettingsAnswers) (plan : Plan) :
    (fated : Fate) → Decidable (KeepsPorts sshd s answers plan fated)
  | .refused => inferInstanceAs (Decidable True)
  | .rolledBack =>
    inferInstanceAs (Decidable (_ ∨ dropInPorts sshd s.host ⊆ mainPorts sshd s.host))
  | .unsaved => inferInstanceAs (Decidable (configured sshd s.host = _))
  | .switched => inferInstanceAs (Decidable (dropInPorts sshd s.host ⊆ insert _ _))
  | .settled => inferInstanceAs (Decidable (∀ port ∈ dropInPorts sshd s.host, _ ∨ _ ∨ _))

instance (line dropped : String) (others : Finset String) :
    Decidable (trimSpace line = "Port " ++ dropped →
      ∀ port, sshd.portOf line = some port → port ∈ others) :=
  inferInstanceAs (Decidable (_ → ∀ port ∈ sshd.portOf line, port ∈ others))

instance (s : State) (keepNew : Bool) (pending : PendingPort) (content : String) :
    Decidable (OwnRecord sshd s keepNew pending content) :=
  inferInstanceAs (Decidable (_ ∨ _ ∧ ∀ line ∈ split '\n' content, _))

instance (s : State) : (c : Call) → Decidable (Meets sshd s c)
  | .applySettings answers request => Machine.decidableForallOk (planSettings answers request)
  | .confirmPort answers keepNew => inferInstanceAs
    (Decidable (∀ pending ∈ loadPendingPort answers.load s.host,
      ∀ content, readFile answers.read s.host.dropIn = .ok content →
        answers.reload.outcome = .done → OwnRecord sshd s keepNew pending content))

/-! ## The switch on trial -/

/-- The drop-in and the remembered ports during a switch. -/
structure OnTrial (sshd : Reader) (host : Host) (t : Trial String) : Prop where
  ne : t.old ≠ t.new
  plain : ∀ text, host.dropIn = some text → sshd.Plain text
  before : t.before = insert t.old (mainPorts sshd host)
  standing : configured sshd host = insert t.new t.before

/-- Whatever switch is on trial, the host is as it left it. -/
def Inv (sshd : Reader) (s : State) : Prop := ∀ t, s.trial = some t → OnTrial sshd s.host t

def access (sshd : Reader) (s : State) : Access String := ⟨ports sshd s.host, s.trial⟩

variable {sshd} {s s' : State} {c : Call} {host host' : Host} {t : Trial String}

theorem ports_congr (h : configured sshd host' = configured sshd host) :
    ports sshd host' = ports sshd host := by
  unfold ports
  rw [h]

theorem OnTrial.ports_eq (h : OnTrial sshd host t) : ports sshd host = insert t.new t.before := by
  have hmem : t.new ∈ configured sshd host := h.standing ▸ Finset.mem_insert_self _ _
  rw [ports_of_mem hmem, h.standing]

theorem Inv.wellFormed (h : Inv sshd s) : (access sshd s).WellFormed := fun t ht =>
  (h t ht).ports_eq

/-! ## A call that fails -/

/-- What a failed call leaves as it was. -/
structure Unchanged (sshd : Reader) (host host' : Host) : Prop where
  main : host'.main = host.main
  configured : configured sshd host' = configured sshd host
  plain : ∀ text, host'.dropIn = some text → host.dropIn = some text ∨ sshd.Plain text

theorem Unchanged.refl (sshd : Reader) (host : Host) : Unchanged sshd host host :=
  ⟨rfl, rfl, fun _ => .inl⟩

theorem unchanged_rolledBack {fault : Option String} {left : Option PendingPort}
    (h : fault = none ∨ dropInPorts sshd host ⊆ mainPorts sshd host) :
    Unchanged sshd host ⟨host.main, (readFile fault host.dropIn).toOption, left⟩ := by
  cases hread : readFile fault host.dropIn with
  | ok content =>
    have hdrop := readFile_eq_ok hread
    refine ⟨rfl, ?_, fun _ hb => .inl (hdrop.trans hb)⟩
    simp [configured, mainPorts, dropInPorts, hdrop, Except.toOption]
  | error err =>
    refine ⟨rfl, ?_, fun _ hb => by cases hb⟩
    have hnone : dropInPorts sshd host ⊆ mainPorts sshd host := by
      rcases h with rfl | h
      · cases hd : host.dropIn with
        | none => simp [dropInPorts, hd]
        | some content => simp [hd, readFile] at hread
      · exact h
    rw [configured, configured, Finset.union_eq_left.mpr hnone]
    simp [mainPorts, dropInPorts, Except.toOption]

theorem configured_written (main text : String) (left : Option PendingPort) :
    configured sshd ⟨main, some text, left⟩ = sshd.portsOf main ∪ sshd.portsOf text := rfl

/-- **A call that returns an error leaves the configured ports.** -/
theorem unchanged_of_error (hm : Meets sshd s c) (he : Enabled sshd s c) {err : String}
    (h : c.perform s.host = (.error err, host')) : Unchanged sshd s.host host' := by
  cases c with
  | applySettings answers request =>
    simp only [Call.perform] at h
    cases hplan : planSettings answers request with
    | error reason =>
      simp only [applySettings, hplan, Prod.mk.injEq] at h
      exact h.2 ▸ .refl sshd s.host
    | ok plan =>
      have hkeeps := hm plan hplan
      have happlied := applied hplan s.host
      rw [h] at happlied
      generalize fate answers plan = end' at hkeeps happlied
      cases happlied with
      | refused => exact .refl sshd s.host
      | rolledBack => exact unchanged_rolledBack hkeeps
      | unsaved =>
        have hfits := Plan.fits hplan he
        refine ⟨rfl, ?_, fun _ hb => .inr (Option.some.inj hb ▸ hfits.plain)⟩
        rw [configured_written, hfits.ports_eq]
        exact hkeeps.symm
  | confirmPort answers keepNew =>
    have hconfirmed := confirmed answers keepNew s.host
    simp only [Call.perform] at h
    rw [h] at hconfirmed
    cases hconfirmed with
    | unchanged => exact .refl sshd s.host

theorem OnTrial.of_unchanged (h : OnTrial sshd host t) (hu : Unchanged sshd host host') :
    OnTrial sshd host' t where
  ne := h.ne
  plain text hb := (hu.plain text hb).elim (h.plain text) id
  before := by rw [h.before, mainPorts, mainPorts, hu.main]
  standing := hu.configured.trans h.standing

/-! ## A call that succeeds -/

/-- A switch that was not lost in the rewrite is on trial, with the ports from before it. -/
theorem onTrial_switched {plan : Plan} (left : Option PendingPort)
    (hfits : plan.Fits sshd host) (hne : plan.newPort ≠ plan.currentPort)
    (hkeeps : dropInPorts sshd host ⊆ insert plan.currentPort (mainPorts sshd host)) :
    OnTrial sshd ⟨host.main, some (written plan.lines), left⟩
      ⟨plan.currentPort, plan.newPort, ports sshd host⟩ := by
  have hbefore : ports sshd host = insert plan.currentPort (mainPorts sshd host) := by
    ext port
    refine ⟨fun hport => ?_, fun hport => ?_⟩
    · by_cases hempty : configured sshd host = ∅
      · have hcur := hfits.currentPort_mem
        rw [ports, if_pos hempty, Finset.mem_singleton] at hport hcur
        rw [hport, hcur]
        exact Finset.mem_insert_self _ _
      · rw [ports, if_neg hempty] at hport
        rcases Finset.mem_union.mp hport with hmain | hdrop
        · exact Finset.mem_insert_of_mem hmain
        · exact hkeeps hdrop
    · rcases Finset.mem_insert.mp hport with rfl | hmain
      · exact hfits.currentPort_mem
      · exact configured_subset_ports (Finset.mem_union_left _ hmain)
  refine ⟨hne.symm, fun text hb => Option.some.inj hb ▸ hfits.plain, hbefore, ?_⟩
  rw [configured_written, hfits.ports_eq, hbefore, Finset.union_comm, Finset.insert_union,
    Finset.singleton_union, Finset.insert_comm]
  rfl

/-- A rewrite without a switch keeps what is established. -/
theorem established_settled {plan : Plan} {left : Option PendingPort} (hinv : Inv sshd s)
    (hfits : plan.Fits sshd s.host) (hport : plan.newPort = plan.currentPort)
    (hkeeps : ∀ port ∈ dropInPorts sshd s.host, port ∈ mainPorts sshd s.host ∨
      port = plan.currentPort ∨ s.trial.map Trial.new = some port) :
    (access sshd s).established ⊆ ports sshd ⟨s.host.main, some (written plan.lines), left⟩ := by
  have hconfigured : configured sshd ⟨s.host.main, some (written plan.lines), left⟩ =
      insert plan.currentPort (mainPorts sshd s.host) := by
    rw [configured_written, hfits.ports_eq, hport, Finset.pair_eq_singleton, Finset.union_comm]
    rfl
  intro port hmem
  refine configured_subset_ports (hconfigured ▸ ?_)
  have hstands := hinv.wellFormed.established_subset hmem
  by_cases hempty : configured sshd s.host = ∅
  · have hcur := hfits.currentPort_mem
    rw [ports, if_pos hempty, Finset.mem_singleton] at hcur
    simp only [access, ports, if_pos hempty, Finset.mem_singleton] at hstands
    rw [hstands, hcur]
    exact Finset.mem_insert_self _ _
  · simp only [access, ports, if_neg hempty] at hstands
    rcases Finset.mem_union.mp hstands with hmain | hdrop
    · exact Finset.mem_insert_of_mem hmain
    · rcases hkeeps port hdrop with hmain | rfl | htrial
      · exact Finset.mem_insert_of_mem hmain
      · exact Finset.mem_insert_self _ _
      · obtain ⟨t, ht, rfl⟩ := Option.map_eq_some_iff.mp htrial
        have hbefore : t.new ∈ t.before := by simpa [Access.established, access, ht] using hmem
        rw [(hinv t ht).before] at hbefore
        have hmain := (Finset.mem_insert.mp hbefore).resolve_left (hinv t ht).ne.symm
        exact Finset.mem_insert_of_mem hmain

/-- A confirmation of the switch on trial keeps every port from before it but the old one. -/
theorem kept_confirmed {content : String} {left : Option PendingPort} (h : OnTrial sshd host t) :
    t.before.erase t.old ⊆
      ports sshd ⟨host.main, some (written (keptLines t.old content)), left⟩ := by
  intro port hmem
  obtain ⟨hne, hbefore⟩ := Finset.mem_erase.mp hmem
  rw [h.before] at hbefore
  have hmain := (Finset.mem_insert.mp hbefore).resolve_left hne
  exact configured_subset_ports (Finset.mem_union_left _ hmain)

theorem union_erase_of_eq {main dropIn : Finset String} {old new : String} (hne : old ≠ new)
    (h : main ∪ dropIn = insert new (insert old main)) :
    main ∪ dropIn.erase new = insert old main := by
  ext port
  have hport := Finset.ext_iff.mp h port
  simp only [Finset.mem_union, Finset.mem_insert, Finset.mem_erase] at hport ⊢
  grind

/-- A cancellation brings back the ports from before the switch. -/
theorem ports_cancelled {content : String} {left : Option PendingPort} (h : OnTrial sshd host t)
    (hdrop : host.dropIn = some content) :
    ports sshd ⟨host.main, some (written (keptLines t.new content)), left⟩ = t.before := by
  have hconfigured :
      configured sshd ⟨host.main, some (written (keptLines t.new content)), left⟩ = t.before := by
    have hstanding : mainPorts sshd host ∪ sshd.portsOf content =
        insert t.new (insert t.old (mainPorts sshd host)) := by
      rw [← h.before, ← h.standing, configured, dropInPorts, hdrop]
      rfl
    rw [configured_written, portsOf_keptLines (h.plain content hdrop), h.before]
    exact union_erase_of_eq h.ne hstanding
  have hold : t.old ∈ t.before := h.before ▸ Finset.mem_insert_self _ _
  rw [ports_of_mem (hconfigured ▸ hold), hconfigured]

/-- A record that is no longer that of a switch takes no port with it. -/
theorem ports_stale {content dropped : String} {left : Option PendingPort}
    (hdrop : host.dropIn = some content)
    (h : ∀ line ∈ split '\n' content, trimSpace line = "Port " ++ dropped →
      ∀ port, sshd.portOf line = some port → port ∈ mainPorts sshd host) :
    ports sshd ⟨host.main, some (written (keptLines dropped content)), left⟩ = ports sshd host := by
  refine ports_congr ?_
  rw [configured_written, configured, dropInPorts, hdrop]
  exact union_portsOf_keptLines h

theorem ports_of_cancel {answers : ConfirmAnswers} {result : SettingsResult} (hinv : Inv sshd s)
    (hm : Meets sshd s (.confirmPort answers false)) (ht : s.trial = some t)
    (h : confirmPort answers false s.host = (.ok result, host')) :
    ports sshd host' = t.before := by
  have hconfirmed := confirmed answers false s.host
  rw [h] at hconfirmed
  cases hconfirmed with
  | rewritten hload hread hreload =>
    rcases hm _ hload _ hread hreload with hown | ⟨hnone, _⟩
    · rw [ht] at hown
      obtain ⟨_, hnew⟩ := Prod.mk.inj (Option.some.inj hown)
      simp only [droppedPort, Bool.false_eq_true, if_false, ← hnew]
      exact ports_cancelled (hinv t ht) (readFile_eq_ok hread)
    · simp [ht] at hnone

/-! ## Steps and runs -/

/-- The call confirms the new port, with success. -/
def Confirms (s : State) (c : Call) : Prop :=
  ∃ answers result, c = .confirmPort answers true ∧ (c.perform s.host).1 = .ok result

theorem step_eq (h : step sshd s c = some s') : Enabled sshd s c ∧
    s' = ⟨(c.perform s.host).2, trialAfter sshd s c (c.perform s.host).1⟩ := by
  unfold step at h
  split at h
  · rename_i he
    exact ⟨he, (Option.some.inj h).symm⟩
  · cases h

theorem Inv.of_no_trial (h : s.trial = none) : Inv sshd s := fun t ht => by
  rw [h] at ht
  cases ht

/-- **A call that meets the condition is a step of the access to the host.** -/
theorem step_access (hinv : Inv sshd s) (hm : Meets sshd s c) (h : step sshd s c = some s') :
    Inv sshd s' ∧ ∃ e, Access.Step (access sshd s) e (access sshd s') ∧
      (e = .confirm → Confirms s c) := by
  obtain ⟨he, rfl⟩ := step_eq h
  cases hperform : c.perform s.host with
  | mk result host' =>
    cases result with
    | error err =>
      have hu := unchanged_of_error hm he hperform
      refine ⟨fun t ht => (hinv t ht).of_unchanged hu, .fail, ?_, nofun⟩
      exact .fail (ports_congr hu.configured) rfl
    | ok result =>
      cases c with
      | applySettings answers request =>
        simp only [Call.perform] at hperform
        cases hplan : planSettings answers request with
        | error reason => simp [applySettings, hplan] at hperform
        | ok plan =>
          have hkeeps := hm plan hplan
          have hfits := Plan.fits hplan he
          have happlied := applied hplan s.host
          rw [hperform] at happlied
          generalize fate answers plan = fated at hkeeps happlied
          cases happlied with
          | switched hne =>
            have htrial := onTrial_switched (some ⟨plan.currentPort, plan.newPort⟩)
              hfits hne hkeeps
            refine ⟨?_, .begin, ?_, nofun⟩
            · rintro t ⟨⟩
              exact htrial
            · exact .begin rfl rfl htrial.ports_eq
          | settled hport =>
            refine ⟨Inv.of_no_trial rfl, .replace, ?_, nofun⟩
            exact .replace rfl (established_settled hinv hfits hport hkeeps)
      | confirmPort answers keepNew =>
        have hconfirmed := confirmed answers keepNew s.host
        simp only [Call.perform] at hperform
        rw [hperform] at hconfirmed
        cases hconfirmed with
        | rewritten hload hread hreload =>
          have hdrop := readFile_eq_ok hread
          refine ⟨Inv.of_no_trial rfl, ?_⟩
          rcases hm _ hload _ hread hreload with hown | ⟨hnone, hstale⟩
          · obtain ⟨t, ht, hrecord⟩ := Option.map_eq_some_iff.mp hown
            obtain ⟨hold, hnew⟩ := Prod.mk.inj hrecord
            cases keepNew with
            | true =>
              refine ⟨.confirm, .confirm ht rfl ?_, fun _ => ⟨answers, result, rfl, ?_⟩⟩
              · simp only [droppedPort, if_true, ← hold]
                exact kept_confirmed (hinv t ht)
              · exact congrArg Prod.fst hperform
            | false =>
              exact ⟨.cancel, .cancel ht rfl (ports_of_cancel hinv hm ht hperform), nofun⟩
          · rw [Option.isNone_iff_eq_none] at hnone
            refine ⟨.replace, .replace rfl ?_, nofun⟩
            rw [Access.established_of_no_trial hnone]
            exact (ports_stale hdrop hstale).ge

/-- The call confirms a switch away from the port. -/
def ConfirmsAway (port : String) (s : State) (c : Call) : Prop :=
  Confirms s c ∧ s.trial.map Trial.old = some port

/-- What the calls from a state on do to the ports, when they meet the guard: a port that is not
on trial stays until a switch away from it is confirmed, a cancelled switch brings back the ports
from before it, and a failed call leaves the configured ones. -/
structure KeepsAccess (sshd : Reader) (guard : State → Call → Prop) (s : State) : Prop where
  kept : ∀ port ∈ ports sshd s.host, s.trial.map Trial.new ≠ some port →
    ∀ s', Machine.Reaches (step sshd) (fun s c => guard s c ∧ ¬ ConfirmsAway port s c) s s' →
      port ∈ ports sshd s'.host
  cancelled : ∀ answers result host' t, s.trial = some t →
    guard s (.confirmPort answers false) →
    confirmPort answers false s.host = (.ok result, host') → ports sshd host' = t.before
  failed : ∀ c err host', guard s c → Enabled sshd s c →
    c.perform s.host = (.error err, host') → configured sshd host' = configured sshd s.host

theorem Inv.kept {port : String} (hinv : Inv sshd s)
    (hport : port ∈ (access sshd s).established)
    (h : Machine.Reaches (step sshd) (fun s c => Meets sshd s c ∧ ¬ ConfirmsAway port s c) s s') :
    port ∈ ports sshd s'.host := by
  have hrun : Inv sshd s' ∧ port ∈ (access sshd s').established := by
    refine h.invariant (P := fun s => Inv sshd s ∧ port ∈ (access sshd s).established)
      ⟨hinv, hport⟩ ?_
    rintro t c u ⟨hinv, hport⟩ ⟨hm, haway⟩ hstep
    obtain ⟨hinv', e, haccess, hconfirm⟩ := step_access hinv hm hstep
    refine ⟨hinv', haccess.established hinv.wellFormed hport fun he trial ht hold => haway ?_⟩
    exact ⟨hconfirm he, Option.map_eq_some_iff.mpr ⟨trial, ht, hold⟩⟩
  exact hrun.1.wellFormed.established_subset hrun.2

/-- **Calls that meet the condition keep the ways in.** -/
theorem switches_keep_access {start : Host}
    (h : Machine.Reaches (step sshd) (Meets sshd) ⟨start, none⟩ s) :
    KeepsAccess sshd (Meets sshd) s := by
  have hinv : Inv sshd s := h.invariant (P := Inv sshd) (Inv.of_no_trial rfl)
    fun _ _ _ hinv hm hstep => (step_access hinv hm hstep).1
  refine ⟨fun port hport htrial s' hrun => hinv.kept ?_ hrun, ?_, ?_⟩
  · refine hinv.wellFormed.mem_established hport fun t ht hnew => htrial ?_
    exact Option.map_eq_some_iff.mpr ⟨t, ht, hnew⟩
  · exact fun _ _ _ _ ht hm hcancel => ports_of_cancel hinv hm ht hcancel
  · exact fun _ _ _ hm he herror => (unchanged_of_error hm he herror).configured

/-! ## Concrete runs -/

def reloads : ReloadAnswers := ⟨none, none, "ssh", none⟩

def answering (output : String) (reload : ReloadAnswers) : SettingsAnswers :=
  ⟨true, .ok output, none, reload, none, .ok "LISTEN 0 128 *:2222", true⟩

def toPort (port : Int) : SettingsRequest := ⟨port, "no", true, false, false⟩

/-- A switch away from one of two ports, after a first try that sshd refused. -/
theorem second_try_keeps_access : ∃ s,
    Machine.Reaches (step spelledReader) (Meets spelledReader)
      ⟨⟨"Port 22\nPort 2022\n", none, none⟩, none⟩ s ∧
    ports spelledReader s.host = {"22", "2022", "2222"} ∧
    KeepsAccess spelledReader (Meets spelledReader) s := by
  have hrun : (Machine.runIf (step spelledReader) (fun s c => decide (Meets spelledReader s c))
      ⟨⟨"Port 22\nPort 2022\n", none, none⟩, none⟩
      [.applySettings (answering "port 22\nport 2022\n" ⟨none, some "bad", "ssh", none⟩) (toPort 2222),
        .applySettings (answering "port 22\nport 2022\n" reloads) (toPort 2222)]).map
      (fun s => ports spelledReader s.host) = some {"22", "2022", "2222"} := by decide +kernel
  obtain ⟨s, hs, hports⟩ := Option.map_eq_some_iff.mp hrun
  have hreach := Machine.reaches_of_runIf (fun _ _ h => of_decide_eq_true h) hs
  exact ⟨s, hreach, hports, switches_keep_access hreach⟩

/-- Sending the same request twice gives up the old port before the new one is confirmed. -/
theorem repeated_request_drops_port : ∃ s,
    Machine.Reaches (step spelledReader) Machine.Free ⟨⟨"", none, none⟩, none⟩ s ∧
    ¬ KeepsAccess spelledReader Machine.Free s := by
  have hrun : (Machine.run (step spelledReader) ⟨⟨"", none, none⟩, none⟩
      [.applySettings (answering "port 22\n" reloads) (toPort 2222)]).map (fun s =>
      (ports spelledReader s.host, s.trial.map Trial.new,
        (step spelledReader s (.applySettings (answering "port 22\nport 2222\n" reloads)
          (toPort 2222))).map fun s => ports spelledReader s.host)) =
      some ({"22", "2222"}, some "2222", some {"2222"}) := by decide +kernel
  obtain ⟨s, hs, hval⟩ := Option.map_eq_some_iff.mp hrun
  simp only [Prod.mk.injEq] at hval
  obtain ⟨hports, htrial, hnext⟩ := hval
  obtain ⟨s', hs', hports'⟩ := Option.map_eq_some_iff.mp hnext
  refine ⟨s, Machine.reaches_of_run hs, fun hkeeps => ?_⟩
  have hstays := hkeeps.kept "22" (by rw [hports]; decide) (by rw [htrial]; decide) s'
    (Machine.Reaches.refl.tail ⟨trivial, fun ⟨⟨_, _, hc, _⟩, _⟩ => by cases hc⟩ hs')
  rw [hports'] at hstays
  exact absurd hstays (by decide)

end LukePanel.SshAdmin.PortSwitch
