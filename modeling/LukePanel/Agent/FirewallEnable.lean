import LukePanel.HostAdmin.Firewall
import LukePanel.SshAdmin.Sshd

/-! # Turning the firewall on from the panel

`firewallEnable` of `internal/agent/server.go`: the ports of sshd are read, opened for the caller
and UFW is turned on. -/
namespace LukePanel.Agent.FirewallEnable
open LukePanel.Library.GoStrings
open LukePanel.SshAdmin.Sshd (Status status reported values_port)
open LukePanel.HostAdmin.Firewall

/-! ## The handler -/

/-- A request, with the `current_ip` of its body if the body decodes. -/
structure Request where
  method : String
  currentIP : Option String

inductive Response where
  | enabled
  | failed (status : ℕ) (message : String)
deriving DecidableEq

structure Answers where
  enable : EnableAnswers
  armed : ArmAnswers

/-- The ports that the handler finds in the status. -/
def sshPorts (status : Status) : List Int := (fields status.port).filterMap parseInt

def respond : Except String Unit × Host → Response × Host
  | (.error err, host) => (.failed 400 (trimSpace err), host)
  | (.ok _, host) => (.enabled, host)

variable (parseIP : String → Option Address)

def firewallEnable (answers : Answers) (sshdT : Except String String) (request : Request)
    (now : ℕ) (host : Host) : Response × Host :=
  if request.method ≠ "POST" then (.failed 405 "方法不允许", host)
  else match request.currentIP with
    | none => (.failed 400 "请求格式错误", host)
    | some currentIP =>
      respond (enableUFW answers.enable answers.armed (callerAddress parseIP currentIP)
        (sshPorts (status sshdT)) now host)

/-! ## The ways in -/

def IsPort (port : Int) : Prop := 1 ≤ port ∧ port ≤ 65535

instance (port : Int) : Decidable (IsPort port) := inferInstanceAs (Decidable (_ ∧ _))

/-- The ports that `sshd -T` names. -/
def effectivePorts (output : String) : List Int :=
  ((reported output).flatMap fun value => (fields value).filterMap parseInt).filter (IsPort ·)

/-- Some rule lets the caller reach the port. -/
def Permitted (caller : Option Address) (rules : List Rule) (port : Int) : Prop :=
  ∃ rule ∈ rules, rule.permits caller port = true

instance (caller : Option Address) (rules : List Rule) (port : Int) :
    Decidable (Permitted caller rules port) :=
  inferInstanceAs (Decidable (∃ rule ∈ rules, _))

/-- The caller as the request names it. -/
def callerOf (request : Request) : Option Address :=
  request.currentIP.bind fun currentIP => parseIP (trimSpace currentIP)

/-- A success leaves rules that let the caller reach every port of sshd and were there when UFW
was turned on, and UFW is not turned on when such a rule cannot be added. -/
structure KeepsPorts (answers : Answers) (output : String) (request : Request) (now : ℕ)
    (host : Host) : Prop where
  permitted : (firewallEnable parseIP answers (.ok output) request now host).1 = .enabled →
    ∀ port ∈ effectivePorts output,
      let ufw := (firewallEnable parseIP answers (.ok output) request now host).2.ufw
      ∃ rule ∈ ufw.rules, rule ∈ ufw.enabledWith ∧
        rule.permits (callerOf parseIP request) port = true
  refused : ∀ port ∈ effectivePorts output, (answers.enable.allow port).err ≠ none →
    (firewallEnable parseIP answers (.ok output) request now host).2.ufw.active = true →
      host.ufw.active = true

/-! ## The condition -/

/-- The ports that are opened. -/
def openedPorts (output : String) : List Int :=
  (portsOrDefault (sshPorts (status (.ok output)))).filter (IsPort ·)

/-- The ports of sshd that are not. -/
def missedPorts (output : String) : List Int :=
  (effectivePorts output).filter (· ∉ openedPorts output)

/-- The call gets as far as turning UFW on. -/
def reachesEnable (answers : Answers) (output : String) (request : Request) : Bool :=
  request.method = "POST" && request.currentIP.isSome && answers.enable.root &&
    answers.enable.ufw &&
    (openedPorts output).all fun port => (answers.enable.allow port).err.isNone

/-- The commands from there on work. -/
def works (answers : Answers) : Bool :=
  answers.enable.enable.err.isNone && answers.armed.schedule.work

/-- They leave UFW on. -/
def leavesOn (answers : Answers) : Bool :=
  answers.enable.enable.effective && (answers.enable.enable.err.isSome ||
    answers.armed.schedule.work || !answers.armed.disable.effective)

/-- A port that is missed is open already, and could be opened. -/
structure MissesNone (answers : Answers) (output : String) (request : Request)
    (host : Host) : Prop where
  covered : reachesEnable answers output request = true → works answers = true →
    ∀ port ∈ missedPorts output, Permitted (callerOf parseIP request) host.ufw.rules port
  addable : reachesEnable answers output request = true → leavesOn answers = true →
    host.ufw.active = false →
      ∀ port ∈ missedPorts output, (answers.enable.allow port).err = none

/-! ## Rules -/

variable {parseIP} {rule : Rule} {rules : List Rule} {port : Int} {caller : Option Address}

theorem mem_addRule : rule ∈ addRule rule rules := by
  unfold addRule
  split
  · rename_i hany
    obtain ⟨old, hold, hmatch⟩ := List.any_eq_true.mp hany
    exact List.mem_map.mpr ⟨old, hold, if_pos (by simpa using hmatch)⟩
  · exact List.mem_append_right _ (List.mem_singleton_self _)

/-- An allowing rule that is added lets through what it allows besides what was let through. -/
theorem permitted_addRule (h : rule.action = .allow) :
    Permitted caller (addRule rule rules) port ↔
      rule.permits caller port = true ∨ Permitted caller rules port := by
  refine ⟨?_, ?_⟩
  · rintro ⟨kept, hkept, hpermits⟩
    unfold addRule at hkept
    split at hkept
    · obtain ⟨old, hold, rfl⟩ := List.mem_map.mp hkept
      split at hpermits
      · exact .inl hpermits
      · exact .inr ⟨old, hold, hpermits⟩
    · rcases List.mem_append.mp hkept with hold | hnew
      · exact .inr ⟨kept, hold, hpermits⟩
      · exact .inl (List.mem_singleton.mp hnew ▸ hpermits)
  · rintro (hpermits | ⟨old, hold, hpermits⟩)
    · exact ⟨rule, mem_addRule, hpermits⟩
    · by_cases hmatch : old.toMatch = rule.toMatch
      · have hallow : old.action = .allow := by
          simp only [Rule.permits, Bool.and_eq_true, decide_eq_true_eq] at hpermits
          exact hpermits.1.1.1.1.1.1
        have hsame : old = rule := by
          cases old
          cases rule
          simp_all
        exact ⟨rule, mem_addRule, hsame ▸ hpermits⟩
      · refine ⟨old, ?_, hpermits⟩
        unfold addRule
        split
        · exact List.mem_map.mpr ⟨old, hold, if_neg hmatch⟩
        · exact List.mem_append_left _ hold

theorem permits_allowRule (currentIP : String) (opened : Int) :
    (allowRule (callerAddress parseIP currentIP) opened).permits
      (parseIP (trimSpace currentIP)) port = true ↔ port = opened := by
  have hsource : (allowRule (callerAddress parseIP currentIP) opened).source.all
      (fun network => (parseIP (trimSpace currentIP)).any network.contains) = true := by
    unfold allowRule callerAddress
    cases parseIP (trimSpace currentIP) with
    | none => rfl
    | some ip =>
      dsimp only
      split
      · rfl
      · simp [Network.contains]
  unfold Rule.permits
  rw [hsource]
  simp only [allowRule, Option.all_some, Bool.and_eq_true, decide_eq_true_eq, Option.isNone_none]
  constructor
  · intro h
    have hrange := h.1.2
    omega
  · rintro rfl
    simp

/-! ## Opening the ports -/

variable {answers : Int → Ran} {seen ports : List Int} {ufw : Ufw}

/-- Opening ports touches nothing but the rules. -/
theorem allowPorts_frame (answers : Int → Ran) (caller : Option Address) (seen ports : List Int)
    (ufw : Ufw) : ∃ rules, (allowPorts answers caller seen ports ufw).2 =
      { ufw with rules := rules } := by
  induction ports generalizing seen ufw with
  | nil => exact ⟨_, rfl⟩
  | cons port rest ih =>
    unfold allowPorts
    split
    · exact ih seen ufw
    · have hallow : ∃ rules, (answers port).onUfw (Ufw.allow (allowRule caller port)) ufw =
          { ufw with rules := rules } := by
        unfold Ran.onUfw
        split <;> exact ⟨_, rfl⟩
      obtain ⟨rules, hrules⟩ := hallow
      dsimp only
      rw [hrules]
      split
      · exact ⟨rules, rfl⟩
      · obtain ⟨rules', hrules'⟩ := ih (port :: seen) { ufw with rules := rules }
        exact ⟨rules', hrules'⟩

/-- It succeeds if the command of each port works. -/
theorem allowPorts_ok :
    (allowPorts answers caller seen ports ufw).1 = .ok () ↔
      ∀ port ∈ ports, IsPort port → port ∉ seen → (answers port).err = none := by
  induction ports generalizing seen ufw with
  | nil => simp [allowPorts]
  | cons port rest ih =>
    unfold allowPorts IsPort
    split
    · rename_i hskip
      rw [ih, List.forall_mem_cons]
      refine ⟨fun h => ⟨fun hport hseen => ?_, h⟩, And.right⟩
      rcases hskip with hlow | hhigh | hmem
      · omega
      · omega
      · exact absurd hmem hseen
    · rename_i hport
      simp only [not_or, not_lt] at hport
      rw [List.forall_mem_cons]
      dsimp only
      split
      · rename_i output herr
        refine ⟨nofun, fun h => ?_⟩
        rw [h.1 ⟨hport.1, hport.2.1⟩ hport.2.2] at herr
        cases herr
      · rename_i herr
        rw [ih]
        refine ⟨fun h => ⟨fun _ _ => herr, fun other hother hport hseen => ?_⟩, fun h other hother
          hport hseen => h.2 other hother hport fun hmem => hseen (List.mem_cons_of_mem _ hmem)⟩
        by_cases heq : other = port
        · exact heq ▸ herr
        · exact h other hother hport (by simp [heq, hseen])

/-- Then each port is let through, besides what was let through before. -/
theorem permitted_allowPorts {currentIP : String}
    (h : (allowPorts answers (callerAddress parseIP currentIP) seen ports ufw).1 = .ok ()) :
    Permitted (parseIP (trimSpace currentIP))
        (allowPorts answers (callerAddress parseIP currentIP) seen ports ufw).2.rules port ↔
      (port ∈ ports ∧ IsPort port ∧ port ∉ seen) ∨
        Permitted (parseIP (trimSpace currentIP)) ufw.rules port := by
  induction ports generalizing seen ufw with
  | nil => simp [allowPorts]
  | cons opened rest ih =>
    unfold allowPorts at h ⊢
    split at h
    · rename_i hskip
      rw [if_pos hskip, ih h]
      have hopened : ¬ (port = opened ∧ IsPort port ∧ port ∉ seen) := by
        rintro ⟨rfl, hport, hseen⟩
        rcases hskip with hlow | hhigh | hmem
        · exact absurd hport.1 (by omega)
        · exact absurd hport.2 (by omega)
        · exact hseen hmem
      simp only [List.mem_cons]
      tauto
    · rename_i hport
      rw [if_neg hport]
      dsimp only at h ⊢
      split at h
      · cases h
      · rename_i herr
        have hran : (answers opened).onUfw
            (Ufw.allow (allowRule (callerAddress parseIP currentIP) opened)) ufw =
            Ufw.allow (allowRule (callerAddress parseIP currentIP) opened) ufw := by
          simp [Ran.onUfw, Ran.effective, herr]
        rw [ih h, hran, Ufw.allow, permitted_addRule rfl, permits_allowRule]
        simp only [not_or, not_lt] at hport
        have hopened : port = opened → IsPort port ∧ port ∉ seen := by
          rintro rfl
          exact ⟨⟨hport.1, hport.2.1⟩, hport.2.2⟩
        simp only [List.mem_cons]
        by_cases heq : port = opened
        · simp only [heq, true_or, true_and]
          simp [heq ▸ hopened heq]
        · simp [heq]

/-! ## The call -/

variable {enable : EnableAnswers}

/-- The checks and the rules of `turnOn` go through. -/
def Opens (enable : EnableAnswers) (ports : List Int) : Prop :=
  enable.root = true ∧ enable.ufw = true ∧
    ∀ port ∈ portsOrDefault ports, IsPort port → (enable.allow port).err = none

/-- What UFW is after the rules and the enabling command. -/
structure TurnedOn (enable : EnableAnswers) (caller : Option Address) (ports : List Int)
    (ufw ufw' : Ufw) : Prop where
  rules : ufw'.rules = (allowPorts enable.allow caller [] (portsOrDefault ports) ufw).2.rules
  active : ufw'.active = (enable.enable.effective || ufw.active)
  enabledWith : enable.enable.effective = true → ufw'.enabledWith = ufw'.rules

/-- If the rules are not all added UFW is not turned on. -/
theorem turnOn_of_not_opens (caller : Option Address) (ufw : Ufw) (h : ¬ Opens enable ports) :
    (∃ err, (turnOn enable caller ports ufw).1 = .error err) ∧
      (turnOn enable caller ports ufw).2.active = ufw.active := by
  unfold turnOn
  split
  · exact ⟨⟨_, rfl⟩, rfl⟩
  rename_i hroot
  split
  · exact ⟨⟨_, rfl⟩, rfl⟩
  rename_i hufw
  obtain ⟨rules, hframe⟩ :=
    allowPorts_frame enable.allow caller [] (portsOrDefault ports) ufw
  split
  · rename_i err left hallowed
    rw [hallowed] at hframe
    refine ⟨⟨err, rfl⟩, ?_⟩
    dsimp only at hframe ⊢
    rw [hframe]
  · rename_i left hallowed
    refine absurd ⟨by simpa using hroot, by simpa using hufw, ?_⟩ h
    intro port hport hvalid
    exact allowPorts_ok.mp (by rw [hallowed]) port hport hvalid List.not_mem_nil

/-- The enabling command keeps the rules. -/
theorem onUfw_enable (ran : Ran) (ufw : Ufw) :
    (ran.onUfw Ufw.enable ufw).rules = ufw.rules ∧
      (ran.onUfw Ufw.enable ufw).active = (ran.effective || ufw.active) ∧
      (ran.effective = true →
        (ran.onUfw Ufw.enable ufw).enabledWith = (ran.onUfw Ufw.enable ufw).rules) := by
  unfold Ran.onUfw
  split
  · rename_i heffective
    exact ⟨rfl, by simp [heffective, Ufw.enable], fun _ => rfl⟩
  · rename_i heffective
    exact ⟨rfl, by simp [heffective], fun h => absurd h heffective⟩

theorem turnOn_of_opens (caller : Option Address) (ufw : Ufw) (h : Opens enable ports) :
    ((turnOn enable caller ports ufw).1 = .ok () ↔ enable.enable.err = none) ∧
      TurnedOn enable caller ports ufw (turnOn enable caller ports ufw).2 := by
  obtain ⟨hroot, hufw, hports⟩ := h
  have hallowed : (allowPorts enable.allow caller [] (portsOrDefault ports) ufw).1 = .ok () :=
    allowPorts_ok.mpr fun port hport hvalid _ => hports port hport hvalid
  obtain ⟨rules, hframe⟩ :=
    allowPorts_frame enable.allow caller [] (portsOrDefault ports) ufw
  have heq : allowPorts enable.allow caller [] (portsOrDefault ports) ufw =
      (.ok (), { ufw with rules := rules }) := Prod.ext hallowed hframe
  unfold turnOn
  simp only [hroot, hufw, heq, Bool.not_true, Bool.false_eq_true, if_false]
  generalize hset : enable.outgoing.onUfw (fun ufw => { ufw with outgoing := .allow })
    (enable.incoming.onUfw (fun ufw => { ufw with incoming := .deny })
      { ufw with rules := rules }) = before
  have hbefore : before.rules = rules ∧ before.active = ufw.active := by
    rw [← hset]
    unfold Ran.onUfw
    repeat' split
    all_goals exact ⟨rfl, rfl⟩
  obtain ⟨hrules, hactive, henabled⟩ := onUfw_enable enable.enable before
  rw [hbefore.1] at hrules
  rw [hbefore.2] at hactive
  cases herr : enable.enable.err with
  | some output => exact ⟨by simp, hrules.trans (by rw [heq]), hactive, henabled⟩
  | none => exact ⟨by simp, hrules.trans (by rw [heq]), hactive, henabled⟩

variable {now : ℕ} {host : Host}

theorem enableUFW_of_not_opens (armed : ArmAnswers) (caller : Option Address) (now : ℕ)
    (host : Host) (h : ¬ Opens enable ports) :
    (∃ err, (enableUFW enable armed caller ports now host).1 = .error err) ∧
      (enableUFW enable armed caller ports now host).2.ufw.active = host.ufw.active := by
  obtain ⟨⟨err, herr⟩, hactive⟩ := turnOn_of_not_opens caller host.ufw h
  unfold enableUFW
  generalize turnOn enable caller ports host.ufw = turned at herr hactive
  obtain ⟨result, ufw⟩ := turned
  dsimp only at herr
  rw [herr]
  exact ⟨⟨err, rfl⟩, hactive⟩

/-- Once the ports are open, what is left is whether the commands after that work. -/
theorem enableUFW_of_opens (armed : ArmAnswers) (caller : Option Address) (now : ℕ)
    (host : Host) (h : Opens enable ports) :
    ((enableUFW enable armed caller ports now host).1 = .ok () ↔
      works ⟨enable, armed⟩ = true) ∧
    ((enableUFW enable armed caller ports now host).1 = .ok () →
      TurnedOn enable caller ports host.ufw
        (enableUFW enable armed caller ports now host).2.ufw) ∧
    (host.ufw.active = false → (enableUFW enable armed caller ports now host).2.ufw.active =
      leavesOn ⟨enable, armed⟩) := by
  obtain ⟨hok, hturned⟩ := turnOn_of_opens caller host.ufw h
  unfold enableUFW works leavesOn
  generalize turnOn enable caller ports host.ufw = turned at hok hturned
  obtain ⟨result, ufw⟩ := turned
  have hactive := hturned.active
  cases result with
  | error err =>
    have herr : enable.enable.err.isSome = true := by
      rw [Option.isSome_iff_ne_none]
      exact fun hnone => by simpa using hok.mpr hnone
    refine ⟨?_, fun hcontra => ?_, fun hoff => ?_⟩
    · simp [Option.isSome_iff_ne_none.mp herr]
    · cases hcontra
    · show ufw.active = _
      rw [hactive, hoff, herr]
      simp
  | ok _ =>
    have herr := hok.mp rfl
    have heffective : enable.enable.effective = true := by simp [Ran.effective, herr]
    have hscheduled : (scheduleUFWRecovery armed.schedule now { host with ufw := ufw }).1 = .ok () ↔
        armed.schedule.work = true := schedule_ok_iff
    have hufw := schedule_ufw armed.schedule now { host with ufw := ufw }
    dsimp only [arm]
    generalize scheduleUFWRecovery armed.schedule now { host with ufw := ufw } = scheduled
      at hscheduled hufw
    obtain ⟨result, after⟩ := scheduled
    dsimp only at hufw hactive hscheduled
    cases result with
    | error err =>
      have hwork : armed.schedule.work = false := by simpa using hscheduled
      refine ⟨by simp [hwork], fun hcontra => ?_, fun _ => ?_⟩
      · cases hcontra
      · dsimp only
        rw [hufw, Ran.onUfw]
        split <;> simp_all [Ufw.disable]
    | ok _ =>
      have hwork := hscheduled.mp rfl
      refine ⟨by simp [hwork, herr], fun _ => hufw ▸ hturned, fun _ => ?_⟩
      simp [hufw, hactive, heffective, hwork]

/-! ## The ports that are missed -/

variable {answers : Answers} {output : String} {request : Request}

theorem mem_openedPorts : port ∈ openedPorts output ↔
    port ∈ portsOrDefault (sshPorts (status (.ok output))) ∧ IsPort port := by
  simp [openedPorts]

theorem mem_missedPorts : port ∈ missedPorts output ↔
    port ∈ effectivePorts output ∧ port ∉ openedPorts output := by
  simp [missedPorts]

/-- The call reaches the enabling command if it is a request that opens its ports. -/
theorem reachesEnable_iff : reachesEnable answers output request = true ↔
    (request.method = "POST" ∧ request.currentIP.isSome = true) ∧
      Opens answers.enable (sshPorts (status (.ok output))) := by
  simp only [reachesEnable, Opens, Bool.and_eq_true, decide_eq_true_eq, List.all_eq_true,
    mem_openedPorts, Option.isNone_iff_eq_none, and_imp]
  tauto

/-- A call that does not get there reports no success and turns nothing on. -/
theorem firewallEnable_of_not_reaches (parseIP : String → Option Address) (now : ℕ) (host : Host)
    (h : reachesEnable answers output request ≠ true) :
    (firewallEnable parseIP answers (.ok output) request now host).1 ≠ .enabled ∧
      (firewallEnable parseIP answers (.ok output) request now host).2.ufw.active =
        host.ufw.active := by
  unfold firewallEnable
  split
  · exact ⟨nofun, rfl⟩
  rename_i hmethod
  split
  · exact ⟨nofun, rfl⟩
  rename_i currentIP hip
  have hopens : ¬ Opens answers.enable (sshPorts (status (.ok output))) := fun hopens =>
    h (reachesEnable_iff.mpr ⟨⟨by simpa using hmethod, by simp [hip]⟩, hopens⟩)
  obtain ⟨⟨err, herr⟩, hactive⟩ := enableUFW_of_not_opens answers.armed
    (callerAddress parseIP currentIP) now host hopens
  generalize enableUFW answers.enable answers.armed (callerAddress parseIP currentIP)
    (sshPorts (status (.ok output))) now host = enabled at herr hactive
  obtain ⟨result, after⟩ := enabled
  dsimp only at herr
  rw [herr]
  exact ⟨nofun, hactive⟩

/-- What a call does that gets there. -/
structure Reached (parseIP : String → Option Address) (answers : Answers) (output : String)
    (request : Request) (now : ℕ) (host : Host) : Prop where
  enabled_iff : (firewallEnable parseIP answers (.ok output) request now host).1 = .enabled ↔
    works answers = true
  same : (firewallEnable parseIP answers (.ok output) request now host).1 = .enabled →
    (firewallEnable parseIP answers (.ok output) request now host).2.ufw.enabledWith =
      (firewallEnable parseIP answers (.ok output) request now host).2.ufw.rules
  permitted_iff : (firewallEnable parseIP answers (.ok output) request now host).1 = .enabled →
    ∀ port, Permitted (callerOf parseIP request)
      (firewallEnable parseIP answers (.ok output) request now host).2.ufw.rules port ↔
        port ∈ openedPorts output ∨ Permitted (callerOf parseIP request) host.ufw.rules port
  active : host.ufw.active = false →
    (firewallEnable parseIP answers (.ok output) request now host).2.ufw.active =
      leavesOn answers

theorem reached (h : reachesEnable answers output request = true) :
    Reached parseIP answers output request now host := by
  obtain ⟨⟨hmethod, hbody⟩, hopens⟩ := reachesEnable_iff.mp h
  obtain ⟨currentIP, hip⟩ := Option.isSome_iff_exists.mp hbody
  obtain ⟨hok, hturned, hactive⟩ := enableUFW_of_opens answers.armed
    (callerAddress parseIP currentIP) now host hopens
  have hallowed : (allowPorts answers.enable.allow (callerAddress parseIP currentIP) []
      (portsOrDefault (sshPorts (status (.ok output)))) host.ufw).1 = .ok () :=
    allowPorts_ok.mpr fun port hport hvalid _ => hopens.2.2 port hport hvalid
  have hcall : firewallEnable parseIP answers (.ok output) request now host =
      respond (enableUFW answers.enable answers.armed (callerAddress parseIP currentIP)
        (sshPorts (status (.ok output))) now host) := by
    simp [firewallEnable, hmethod, hip]
  generalize enableUFW answers.enable answers.armed (callerAddress parseIP currentIP)
    (sshPorts (status (.ok output))) now host = enabled at hok hturned hactive hcall
  obtain ⟨result, after⟩ := enabled
  cases result with
  | error err =>
    dsimp only at hcall hok hactive
    refine ⟨?_, ?_, ?_, fun hoff => ?_⟩
    · rw [hcall, ← hok]
      simp [respond]
    · rw [hcall]
      exact nofun
    · rw [hcall]
      exact nofun
    · rw [hcall]
      exact hactive hoff
  | ok _ =>
    dsimp only at hcall hok hactive hturned
    have hturned := hturned rfl
    have hworks := hok.mp rfl
    have heffective : answers.enable.enable.effective = true := by
      simp only [works, Bool.and_eq_true] at hworks
      simp [Ran.effective, hworks.1]
    refine ⟨?_, fun _ => ?_, fun _ port => ?_, fun hoff => ?_⟩
    · rw [hcall, ← hok]
      simp [respond]
    · rw [hcall]
      exact hturned.enabledWith heffective
    · rw [hcall]
      show Permitted _ after.ufw.rules port ↔ _
      rw [hturned.rules, callerOf, hip, Option.bind_some, permitted_allowPorts hallowed,
        mem_openedPorts]
      simp
    · rw [hcall]
      exact hactive hoff

theorem Reached.keepsPorts (h : Reached parseIP answers output request now host)
    (hreaches : reachesEnable answers output request = true)
    (hmisses : MissesNone parseIP answers output request host) :
    KeepsPorts parseIP answers output request now host := by
  refine ⟨fun henabled port hport => ?_, fun port hport herr hactive => ?_⟩
  · have hpermitted := (h.permitted_iff henabled port).mpr (by
      by_cases hopened : port ∈ openedPorts output
      · exact .inl hopened
      · exact .inr (hmisses.covered hreaches (h.enabled_iff.mp henabled) port
          (mem_missedPorts.mpr ⟨hport, hopened⟩)))
    obtain ⟨rule, hrule, hpermits⟩ := hpermitted
    refine ⟨rule, hrule, ?_, hpermits⟩
    rw [h.same henabled]
    exact hrule
  · by_contra hoff
    rw [Bool.not_eq_true] at hoff
    rw [h.active hoff] at hactive
    by_cases hopened : port ∈ openedPorts output
    · obtain ⟨hmem, hvalid⟩ := mem_openedPorts.mp hopened
      exact herr ((reachesEnable_iff.mp hreaches).2.2.2 port hmem hvalid)
    · exact herr (hmisses.addable hreaches hactive hoff port
        (mem_missedPorts.mpr ⟨hport, hopened⟩))

theorem Reached.missesNone (h : Reached parseIP answers output request now host)
    (hkeeps : KeepsPorts parseIP answers output request now host) :
    MissesNone parseIP answers output request host := by
  refine ⟨fun _ hworks port hmissed => ?_, fun _ hleaves hoff port hmissed => ?_⟩
  · obtain ⟨hport, hopened⟩ := mem_missedPorts.mp hmissed
    have henabled := h.enabled_iff.mpr hworks
    obtain ⟨rule, hrule, _, hpermits⟩ := hkeeps.permitted henabled port hport
    exact ((h.permitted_iff henabled port).mp ⟨rule, hrule, hpermits⟩).resolve_left hopened
  · obtain ⟨hport, _⟩ := mem_missedPorts.mp hmissed
    by_contra herr
    have hon := hkeeps.refused port hport herr ((h.active hoff).trans hleaves)
    simp [hoff] at hon

/-- **The call keeps the ways in if and only if it misses no port of sshd.** -/
theorem keepsPorts_iff (answers : Answers) (output : String) (request : Request) (now : ℕ)
    (host : Host) : KeepsPorts parseIP answers output request now host ↔
      MissesNone parseIP answers output request host := by
  by_cases hreaches : reachesEnable answers output request = true
  · exact ⟨(reached hreaches).missesNone, (reached hreaches).keepsPorts hreaches⟩
  · obtain ⟨hfailed, hactive⟩ := firewallEnable_of_not_reaches parseIP now host
      hreaches
    exact ⟨fun _ => ⟨fun h => absurd h hreaches, fun h => absurd h hreaches⟩,
      fun _ => ⟨fun henabled => absurd henabled hfailed, fun _ _ _ hon => hactive ▸ hon⟩⟩

/-! ## A concrete call -/

def allWork : Answers :=
  ⟨⟨true, true, fun _ => .ok, .ok, .ok, .ok⟩, ⟨⟨none, none, none, none, none, .ok⟩, .ok⟩⟩

def noRules : Host := ⟨⟨[], .allow, .allow, false, []⟩, .inactive, false⟩

/-- Of two ports only the one that is printed last is opened. -/
theorem first_port_not_opened : ¬ KeepsPorts (fun _ => some 0xffffcb007107#128) allWork
    "port 22\nport 2222\n" ⟨"POST", some "203.0.113.7"⟩ 0 noRules := by
  intro h
  have henabled : (firewallEnable (fun _ => some 0xffffcb007107#128) allWork
      (.ok "port 22\nport 2222\n") ⟨"POST", some "203.0.113.7"⟩ 0 noRules).1 = .enabled := by
    decide +kernel
  have hclosed : ¬ Permitted (some 0xffffcb007107#128) (firewallEnable
      (fun _ => some 0xffffcb007107#128) allWork (.ok "port 22\nport 2222\n")
      ⟨"POST", some "203.0.113.7"⟩ 0 noRules).2.ufw.rules 22 := by decide +kernel
  obtain ⟨rule, hrule, _, hpermits⟩ := h.permitted henabled 22 (by decide +kernel)
  exact hclosed ⟨rule, hrule, hpermits⟩

end LukePanel.Agent.FirewallEnable
