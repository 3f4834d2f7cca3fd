import LukePanel.Library.Machine
import LukePanel.HostAdmin.Firewall

/-! # The recovery window

Runs of `EnableUFW`, `ConfirmUFW` and `DisableUFW` with the recovery timer beside them: until an
enable is confirmed a timer is waiting that turns UFW off again in time. -/
namespace LukePanel.HostAdmin.Recovery
open LukePanel.Library
open LukePanel.HostAdmin.Firewall

/-! ## Runs -/

/-- The host at a time, how many `EnableUFW` have turned UFW on and not returned yet, and when
the last one returned success, until a confirmation, a shutdown or the recovery ends its window. -/
structure State where
  now : ℕ
  host : Host
  pending : ℕ
  window : Option ℕ

inductive Event where
  | turnOn (answers : EnableAnswers) (caller : Option Address) (sshPorts : List Int)
  | arm (answers : ArmAnswers)
  | confirm (answers : ConfirmAnswers)
  | disable (disable : Ran) (answers : ConfirmAnswers)
  | elapse
  | pass (seconds : ℕ)

/-- A timer was started at most its time ago, up to its accuracy. -/
def Timely (now : ℕ) : Timer → Prop
  | .waiting due => due ≤ now + onActiveSec ∧ now ≤ due + accuracySec
  | .inactive | .elapsed => True

instance (now : ℕ) : (timer : Timer) → Decidable (Timely now timer)
  | .waiting _ => inferInstanceAs (Decidable (_ ∧ _))
  | .inactive | .elapsed => inferInstanceAs (Decidable True)

def onUfw (s : State) (answers : EnableAnswers) (caller : Option Address)
    (sshPorts : List Int) : State :=
  match Firewall.turnOn answers caller sshPorts s.host.ufw with
  | (.error _, ufw) => { s with host := { s.host with ufw := ufw } }
  | (.ok _, ufw) => { s with host := { s.host with ufw := ufw }, pending := s.pending + 1 }

def afterArm (s : State) (answers : ArmAnswers) : State :=
  match Firewall.arm answers s.now s.host with
  | (.error _, host) => ⟨s.now, host, s.pending - 1, s.window⟩
  | (.ok _, host) => ⟨s.now, host, s.pending - 1, some s.now⟩

def afterDisable (s : State) (disable : Ran) (answers : ConfirmAnswers) : State :=
  match disableUFW disable answers s.host with
  | (.error _, host) => { s with host := host }
  | (.ok _, host) => { s with host := host, window := none }

def step (s : State) : Event → Option State
  | .turnOn answers caller sshPorts => some (onUfw s answers caller sshPorts)
  | .arm answers => if 0 < s.pending then some (afterArm s answers) else none
  | .confirm answers => some { s with host := (confirmUFW answers s.host).2, window := none }
  | .disable disable answers => some (afterDisable s disable answers)
  | .elapse =>
    match s.host.timer with
    | .waiting due =>
      if due ≤ s.now then some { s with host := recover s.host, window := none } else none
    | .inactive | .elapsed => none
  | .pass seconds =>
    if Timely (s.now + seconds) s.host.timer then some { s with now := s.now + seconds } else none

/-- A recovery timer is waiting that turns UFW off within 5 minutes of the last enable. -/
def Covered (s : State) : Prop :=
  ∀ since, s.window = some since →
    ∃ due, s.host.timer = .waiting due ∧ due ≤ since + onActiveSec ∧ s.now ≤ due + accuracySec

/-- An enable that goes through does not find an elapsed timer. -/
def Meets (s : State) : Event → Prop
  | .arm answers => answers.schedule.work = true → s.host.timer ≠ .elapsed
  | .turnOn _ _ _ | .confirm _ | .disable _ _ | .elapse | .pass _ => True

instance (s : State) : (e : Event) → Decidable (Meets s e)
  | .arm _ => inferInstanceAs (Decidable (_ → _))
  | .turnOn _ _ _ | .confirm _ | .disable _ _ | .elapse | .pass _ =>
    inferInstanceAs (Decidable True)

/-! ## What a step keeps -/

variable {s s' : State} {e : Event} {host : Host}

/-- The timer is not overdue, and it is due in time for the window. -/
structure Inv (s : State) : Prop where
  timely : Timely s.now s.host.timer
  covered : ∀ since, s.window = some since →
    ∃ due, s.host.timer = .waiting due ∧ due ≤ since + onActiveSec

theorem Inv.toCovered (h : Inv s) : Covered s := by
  intro since hsince
  obtain ⟨due, htimer, hdue⟩ := h.covered since hsince
  have htimely := h.timely
  rw [htimer] at htimely
  exact ⟨due, htimer, hdue, htimely.2⟩

/-- With no window open nothing is asked of the timer. -/
theorem Inv.of_closed (htimely : Timely s.now s.host.timer) (hwindow : s.window = none) : Inv s :=
  ⟨htimely, fun since hsince => by simp [hwindow] at hsince⟩

theorem Timely.start {now : ℕ} {timer : Timer} (h : Timely now timer) :
    Timely now (timer.start now) := by
  cases timer with
  | inactive => exact ⟨le_refl _, by simp only [onActiveSec, accuracySec]; omega⟩
  | waiting due => exact h
  | elapsed => trivial

/-- Unless it has elapsed, a started timer is waiting, and its time is soon enough. -/
theorem waiting_of_start {now : ℕ} {timer : Timer} (h : Timely now timer)
    (helapsed : timer ≠ .elapsed) :
    ∃ due, timer.start now = .waiting due ∧ due ≤ now + onActiveSec := by
  cases timer with
  | inactive => exact ⟨_, rfl, le_refl _⟩
  | waiting due => exact ⟨due, rfl, h.1⟩
  | elapsed => exact absurd rfl helapsed

/-- A timer that is waiting is left alone by a start. -/
theorem start_waiting {now due : ℕ} {timer : Timer} (h : timer = .waiting due) :
    timer.start now = timer := by
  rw [h]
  rfl

theorem arm_timer (answers : ArmAnswers) (now : ℕ) (host : Host) :
    (arm answers now host).2.timer = host.timer ∨
      (arm answers now host).2.timer = host.timer.start now := by
  have hscheduled := schedule_timer answers.schedule now host
  unfold arm
  split <;> simp_all

theorem armed_ok {answers : ArmAnswers} {now : ℕ} (h : (arm answers now host).1 = .ok ()) :
    answers.schedule.work = true ∧ (arm answers now host).2.timer = host.timer.start now := by
  unfold arm at h ⊢
  split at h
  · rename_i scheduled hscheduled
    have hok : (scheduleUFWRecovery answers.schedule now host).1 = .ok () := by rw [hscheduled]
    refine ⟨schedule_ok_iff.mp hok, ?_⟩
    have htimer := schedule_timer_of_ok hok
    rwa [hscheduled] at htimer
  · cases h

/-- Turning UFW on leaves the timer and the window. -/
theorem onUfw_keeps (s : State) (answers : EnableAnswers) (caller : Option Address)
    (sshPorts : List Int) : (onUfw s answers caller sshPorts).now = s.now ∧
      (onUfw s answers caller sshPorts).host.timer = s.host.timer ∧
      (onUfw s answers caller sshPorts).window = s.window := by
  unfold onUfw
  split <;> exact ⟨rfl, rfl, rfl⟩

theorem Inv.afterArm {answers : ArmAnswers} (h : Inv s)
    (hm : answers.schedule.work = true → s.host.timer ≠ .elapsed) :
    Inv (Recovery.afterArm s answers) := by
  have hkept := arm_timer answers s.now s.host
  have hok : (arm answers s.now s.host).1 = .ok () → _ := armed_ok
  unfold Recovery.afterArm
  generalize arm answers s.now s.host = armed at hkept hok
  obtain ⟨result, host⟩ := armed
  cases result with
  | error err =>
    refine ⟨?_, fun since hsince => ?_⟩
    · rcases hkept with heq | heq
      · exact heq ▸ h.timely
      · exact heq ▸ h.timely.start
    · obtain ⟨due, htimer, hdue⟩ := h.covered since hsince
      refine ⟨due, ?_, hdue⟩
      rcases hkept with heq | heq
      · exact heq.trans htimer
      · exact heq.trans ((start_waiting htimer).trans htimer)
  | ok _ =>
    obtain ⟨hwork, htimer⟩ := hok rfl
    refine ⟨htimer ▸ h.timely.start, fun since hsince => ?_⟩
    obtain ⟨due, hwaiting, hdue⟩ := waiting_of_start h.timely (hm hwork)
    rw [← Option.some.inj hsince]
    exact ⟨due, htimer.trans hwaiting, hdue⟩

/-- A confirmation leaves the timer or stops it. -/
theorem Timely.confirm {now : ℕ} (answers : ConfirmAnswers) (h : Timely now host.timer) :
    Timely now (confirmUFW answers host).2.timer := by
  unfold confirmUFW
  dsimp only
  split
  · trivial
  · exact h

theorem Inv.afterDisable (disable : Ran) (answers : ConfirmAnswers) (h : Inv s) :
    Inv (Recovery.afterDisable s disable answers) := by
  unfold Recovery.afterDisable disableUFW
  cases disable.err with
  | some output => exact ⟨h.timely, h.covered⟩
  | none => exact .of_closed (Timely.confirm answers h.timely) rfl

theorem Inv.step (h : Inv s) (hm : Meets s e) (hstep : Recovery.step s e = some s') : Inv s' := by
  cases e with
  | turnOn answers caller sshPorts =>
    obtain ⟨hnow, htimer, hwindow⟩ := onUfw_keeps s answers caller sshPorts
    rw [← Option.some.inj hstep]
    refine ⟨?_, ?_⟩
    · rw [hnow, htimer]
      exact h.timely
    · rw [htimer, hwindow]
      exact h.covered
  | arm answers =>
    simp only [Recovery.step, Option.ite_none_right_eq_some, Option.some.injEq] at hstep
    rw [← hstep.2]
    exact h.afterArm hm
  | confirm answers =>
    rw [← Option.some.inj hstep]
    exact .of_closed (Timely.confirm answers h.timely) rfl
  | disable disable answers =>
    rw [← Option.some.inj hstep]
    exact h.afterDisable disable answers
  | elapse =>
    simp only [Recovery.step] at hstep
    split at hstep
    · simp only [Option.ite_none_right_eq_some, Option.some.injEq] at hstep
      rw [← hstep.2]
      exact .of_closed trivial rfl
    · cases hstep
    · cases hstep
  | pass seconds =>
    simp only [Recovery.step, Option.ite_none_right_eq_some, Option.some.injEq] at hstep
    rw [← hstep.2]
    exact ⟨hstep.1, h.covered⟩

/-- **While an enable is neither confirmed nor undone, a timer is waiting that turns UFW off in
time, in every state reached by enables that find no elapsed timer.** -/
theorem enables_stay_covered {start : State} (htimer : Timely start.now start.host.timer)
    (hwindow : start.window = none) (h : Machine.Reaches step Meets start s) : Covered s :=
  (h.invariant (P := Inv) (.of_closed htimer hwindow)
    fun _ _ _ hinv hm hstep => hinv.step hm hstep).toCovered

/-! ## Concrete runs -/

def enableWorks : EnableAnswers := ⟨true, true, fun _ => .ok, .ok, .ok, .ok⟩

def armWorks : ArmAnswers := ⟨⟨none, none, none, none, none, .ok⟩, .ok⟩

def off : State := ⟨0, ⟨⟨[], .allow, .allow, false, []⟩, .inactive, false⟩, 0, none⟩

/-- A second enable while the first window runs, a confirmation, and a third enable. -/
theorem third_enable_covered : ∃ s, Machine.Reaches step Meets off s ∧ s.window = some 200 ∧
    Covered s := by
  have hrun : (Machine.runIf step (fun s e => decide (Meets s e)) off
      [.turnOn enableWorks none [22], .arm armWorks, .pass 200, .turnOn enableWorks none [22],
        .arm armWorks, .confirm ⟨true, .ok, .ok⟩, .turnOn enableWorks none [22],
        .arm armWorks]).map State.window = some (some 200) := by decide
  obtain ⟨s, hs, hwindow⟩ := Option.map_eq_some_iff.mp hrun
  have hreach := Machine.reaches_of_runIf (fun _ _ h => of_decide_eq_true h) hs
  have htimer : Timely off.now off.host.timer := trivial
  exact ⟨s, hreach, hwindow, enables_stay_covered htimer rfl hreach⟩

/-- After a window that ran out the next enable has none. -/
theorem enable_after_recovery_uncovered : ∃ s, Machine.Reaches step Machine.Free off s ∧
    s.host.ufw.active = true ∧ ¬ Covered s := by
  have hrun : (Machine.run step off
      [.turnOn enableWorks none [22], .arm armWorks, .pass 300, .elapse,
        .turnOn enableWorks none [22], .arm armWorks]).map
      (fun s => (s.host.ufw.active, s.window, s.host.timer)) =
      some (true, some 300, .elapsed) := by decide
  obtain ⟨s, hs, hval⟩ := Option.map_eq_some_iff.mp hrun
  simp only [Prod.mk.injEq] at hval
  obtain ⟨hactive, hwindow, htimer⟩ := hval
  refine ⟨s, Machine.reaches_of_run hs, hactive, fun hcovered => ?_⟩
  obtain ⟨due, hdue, _⟩ := hcovered 300 hwindow
  rw [htimer] at hdue
  cases hdue

end LukePanel.HostAdmin.Recovery
