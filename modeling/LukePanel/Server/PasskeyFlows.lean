import LukePanel.Library.Machine
import LukePanel.Library.History
import LukePanel.Library.QuotaMap

/-! # Pending passkey flows

The challenges of `internal/server/passkey.go`: `passkeyLoginBegin` and `passkeyRegisterBegin` add
them under quotas, and a finish takes one out before it looks at it. Times are in seconds. -/
namespace LukePanel.Server.PasskeyFlows
open LukePanel.Library
open LukePanel.Library.History (Justified)
open LukePanel.Library.QuotaMap

inductive Kind where
  | login | register
deriving DecidableEq

structure PasskeyChallenge where
  challenge : String
  origin : String
  rpID : String
  username : String
  sessionID : String
  kind : Kind
  sourceIP : String
  expiresAt : ℕ
deriving DecidableEq

abbrev Pending := Map String PasskeyChallenge

/-! ## Beginning -/

/-- `cleanupPasskeyChallengesLocked` -/
def cleanupPasskeyChallenges (now : ℕ) (passkeyPending : Pending) : Pending :=
  sweep (fun item => !(item.expiresAt < now)) passkeyPending

/-- The texts of the two refusals, and which pending flows count against the quota. -/
structure Limits where
  counts : PasskeyChallenge → Bool
  tooMany : String
  busy : String

/-- The locked section of a begin request. -/
def addFlow (limits : Limits) (now : ℕ) (flowID : String) (item : PasskeyChallenge)
    (passkeyPending : Pending) : Except (ℕ × String) Unit × Pending :=
  let passkeyPending := cleanupPasskeyChallenges now passkeyPending
  if 5 ≤ count limits.counts passkeyPending then (.error (429, limits.tooMany), passkeyPending)
  else if 256 ≤ size passkeyPending then (.error (503, limits.busy), passkeyPending)
  else (.ok (), passkeyPending.insert flowID item)

/-- What a begin request has made for its flow before it takes the lock. -/
structure Opening where
  flowID : String
  challenge : String
  origin : String
  rpID : String
  username : String
  sourceIP : String

def loginFlow (opening : Opening) (now : ℕ) : PasskeyChallenge :=
  ⟨opening.challenge, opening.origin, opening.rpID, opening.username, "", .login,
    opening.sourceIP, now + 300⟩

def registerFlow (opening : Opening) (sessionID : String) (now : ℕ) : PasskeyChallenge :=
  ⟨opening.challenge, opening.origin, opening.rpID, opening.username, sessionID, .register,
    opening.sourceIP, now + 300⟩

/-- `passkeyLoginBegin`. The clock is read once more when the flow is stored. -/
def passkeyLoginBegin (opening : Opening) (now later : ℕ) (passkeyPending : Pending) :
    Except (ℕ × String) Unit × Pending :=
  addFlow
    ⟨fun item => item.kind = .login && item.sourceIP = opening.sourceIP,
      "Passkey 登录请求过多，请完成或稍后重试", "Passkey 登录暂时繁忙，请稍后重试"⟩
    now opening.flowID (loginFlow opening later) passkeyPending

/-- `passkeyRegisterBegin` -/
def passkeyRegisterBegin (opening : Opening) (sessionID : String) (now later : ℕ)
    (passkeyPending : Pending) : Except (ℕ × String) Unit × Pending :=
  addFlow
    ⟨fun item => item.kind = .register && item.sessionID = sessionID,
      "Passkey 注册请求过多，请完成或稍后重试", "Passkey 服务暂时繁忙，请稍后重试"⟩
    now opening.flowID (registerFlow opening sessionID later) passkeyPending

/-! ## Finishing -/

/-- `passkeyLoginFinish`, or `passkeyRegisterFinish` of a session. -/
inductive Finish where
  | login
  | register (sessionID : String)
deriving DecidableEq

/-- The flow is of the kind that is finished, and for a registration of the session. -/
def Finish.accepts : Finish → PasskeyChallenge → Bool
  | .login, item => item.kind = .login
  | .register sessionID, item => item.kind = .register && item.sessionID = sessionID

/-- What a finish decides about the flow it took. -/
def Finish.proceeds (finish : Finish) (taken : Option PasskeyChallenge) (now : ℕ) : Bool :=
  taken.any fun item => finish.accepts item && !(item.expiresAt < now)

def Finish.refusal : Finish → ℕ × String
  | .login => (401, "Passkey 登录请求已过期")
  | .register _ => (400, "Passkey 注册请求已过期")

/-! ## Runs -/

inductive Entry where
  | begun (flowID : String) (item : PasskeyChallenge)
  | consumed (flowID : String)
  | proceeded (finish : Finish) (flowID : String) (time : ℕ)
  | refused (answer : ℕ × String)
deriving DecidableEq

/-- A finish call that has taken its flow and not looked at it yet. -/
structure Call where
  finish : Finish
  flowID : String
  taken : Option PasskeyChallenge

structure State where
  now : ℕ
  passkeyPending : Pending
  calls : List Call
  history : List Entry

def init (now : ℕ) : State := ⟨now, ∅, [], []⟩

/-- The section of a begin request takes some time. -/
inductive Action where
  | loginBegin (opening : Opening) (seconds : ℕ)
  | registerBegin (opening : Opening) (sessionID : String) (seconds : ℕ)
  | take (finish : Finish) (flowID : String)
  | look (index : ℕ)
  | pass (seconds : ℕ)

def Entry.begunID : Entry → Option String
  | .begun flowID _ => some flowID
  | .consumed _ | .proceeded _ _ _ | .refused _ => none

def Entry.consumedID : Entry → Option String
  | .consumed flowID => some flowID
  | .begun _ _ | .proceeded _ _ _ | .refused _ => none

/-- The random id of a new flow is one that no flow has had. -/
def Fresh (history : List Entry) (flowID : String) : Prop :=
  flowID ∉ history.filterMap Entry.begunID

instance (history : List Entry) (flowID : String) : Decidable (Fresh history flowID) :=
  inferInstanceAs (Decidable (¬ _))

/-- A begin request with its outcome. -/
def begin (s : State) (flowID : String) (item : PasskeyChallenge) (seconds : ℕ)
    (added : Except (ℕ × String) Unit × Pending) : State :=
  match added with
  | (.error answer, pending) => ⟨s.now + seconds, pending, s.calls, .refused answer :: s.history⟩
  | (.ok _, pending) => ⟨s.now + seconds, pending, s.calls, .begun flowID item :: s.history⟩

def takeFlow (s : State) (finish : Finish) (flowID : String) : State :=
  let taken := s.passkeyPending.lookup flowID
  { s with
    passkeyPending := s.passkeyPending.erase flowID
    calls := s.calls ++ [⟨finish, flowID, taken⟩]
    history := if taken.isSome then .consumed flowID :: s.history else s.history }

def lookAt (s : State) (index : ℕ) (call : Call) : State :=
  { s with
    calls := s.calls.eraseIdx index
    history := (if call.finish.proceeds call.taken s.now then
      .proceeded call.finish call.flowID s.now else .refused call.finish.refusal) :: s.history }

def step (s : State) : Action → Option State
  | .loginBegin opening seconds =>
    if Fresh s.history opening.flowID then
      some (begin s opening.flowID (loginFlow opening (s.now + seconds)) seconds
        (passkeyLoginBegin opening s.now (s.now + seconds) s.passkeyPending))
    else none
  | .registerBegin opening sessionID seconds =>
    if Fresh s.history opening.flowID then
      some (begin s opening.flowID (registerFlow opening sessionID (s.now + seconds)) seconds
        (passkeyRegisterBegin opening sessionID s.now (s.now + seconds) s.passkeyPending))
    else none
  | .take finish flowID => some (takeFlow s finish flowID)
  | .look index => s.calls[index]?.map (lookAt s index)
  | .pass seconds => some { s with now := s.now + seconds }

/-! ## What is kept -/

/-- Those who may have five flows pending. -/
inductive Owner where
  | ip (sourceIP : String)
  | session (sessionID : String)
deriving DecidableEq

/-- The flow counts against the owner's quota. -/
def Owner.has : Owner → PasskeyChallenge → Bool
  | .ip sourceIP, item => item.kind = .login && item.sourceIP = sourceIP
  | .session sessionID, item => item.kind = .register && item.sessionID = sessionID

def Owner.hasAt (owner : Owner) (now : ℕ) (item : PasskeyChallenge) : Bool :=
  owner.has item && !(item.expiresAt < now)

/-- A flow is consumed once, and a finish goes on with a flow it consumed, of its own kind and
session, that is not expired. -/
def Because : Entry → List Entry → Prop
  | .consumed flowID, before => .consumed flowID ∉ before
  | .proceeded finish flowID time, before => .consumed flowID ∈ before ∧
    ∃ item, .begun flowID item ∈ before ∧ finish.accepts item = true ∧ time ≤ item.expiresAt
  | .begun _ _, _ | .refused _, _ => True

structure FlowsKept (s : State) : Prop where
  consumed : ∀ later before flowID, s.history = later ++ .consumed flowID :: before →
    .consumed flowID ∉ before
  proceeded : ∀ later before finish flowID time,
    s.history = later ++ .proceeded finish flowID time :: before → .consumed flowID ∈ before ∧
      ∃ item, .begun flowID item ∈ before ∧ finish.accepts item = true ∧ time ≤ item.expiresAt
  size : size s.passkeyPending ≤ 256
  quota : ∀ owner : Owner, count (owner.hasAt s.now) s.passkeyPending ≤ 5

variable {s s' : State} {a : Action} {owner : Owner} {limits : Limits} {now : ℕ}
  {flowID : String} {item : PasskeyChallenge} {pending : Pending}

structure Inv (s : State) : Prop where
  pending : ∀ flowID item, s.passkeyPending.lookup flowID = some item →
    .begun flowID item ∈ s.history ∧ .consumed flowID ∉ s.history
  calls : ∀ call ∈ s.calls, ∀ item, call.taken = some item →
    .begun call.flowID item ∈ s.history ∧ .consumed call.flowID ∈ s.history
  known : ∀ flowID, .consumed flowID ∈ s.history → ∃ item, .begun flowID item ∈ s.history
  justified : Justified Because s.history
  size : size s.passkeyPending ≤ 256
  quota : ∀ owner : Owner, count (owner.hasAt s.now) s.passkeyPending ≤ 5

/-! ## Quotas -/

/-- Flows only expire as time passes. -/
theorem quota_later {later : ℕ} (h : now ≤ later) (owner : Owner) (pending : Pending) :
    count (owner.hasAt later) pending ≤ count (owner.hasAt now) pending := by
  refine count_mono (fun item hitem => ?_) pending
  simp only [Owner.hasAt, Bool.and_eq_true, Bool.not_eq_true', decide_eq_false_iff_not] at hitem ⊢
  exact ⟨hitem.1, by omega⟩

theorem count_hasAt_le (owner : Owner) (now : ℕ) (pending : Pending) :
    count (owner.hasAt now) pending ≤ count owner.has pending :=
  count_mono (fun _ hitem => (Bool.and_eq_true_iff.mp hitem).1) pending

/-- What the section of a begin request does to the pending flows. -/
inductive Added (limits : Limits) (now : ℕ) (flowID : String) (item : PasskeyChallenge)
    (pending : Pending) : Except (ℕ × String) Unit × Pending → Prop
  | refused (answer : ℕ × String) :
    Added limits now flowID item pending (.error answer, cleanupPasskeyChallenges now pending)
  | stored (hcount : count limits.counts (cleanupPasskeyChallenges now pending) < 5)
      (hsize : QuotaMap.size (cleanupPasskeyChallenges now pending) < 256) :
    Added limits now flowID item pending
      (.ok (), (cleanupPasskeyChallenges now pending).insert flowID item)

theorem added (limits : Limits) (now : ℕ) (flowID : String) (item : PasskeyChallenge)
    (pending : Pending) :
    Added limits now flowID item pending (addFlow limits now flowID item pending) := by
  unfold addFlow
  dsimp only
  split
  · exact .refused _
  split
  · exact .refused _
  · exact .stored (by omega) (by omega)

/-- A flow that is added under the quota of its owner keeps the quotas of all. -/
theorem quota_insert {later : ℕ} (hquota : count (owner.hasAt later) pending ≤ 5)
    (hcount : owner.has item = true → count owner.has pending < 5) :
    count (owner.hasAt later) (pending.insert flowID item) ≤ 5 := by
  refine (count_insert_le _ _ _ _).trans ?_
  by_cases hitem : owner.hasAt later item = true
  · rw [if_pos hitem]
    have hhas := (Bool.and_eq_true_iff.mp hitem).1
    exact Nat.succ_le_of_lt ((count_hasAt_le owner later pending).trans_lt (hcount hhas))
  · rw [if_neg hitem]
    exact hquota

/-! ## Steps -/

theorem Fresh.not_consumed (h : Inv s) (hfresh : Fresh s.history flowID) :
    .consumed flowID ∉ s.history := by
  intro hconsumed
  obtain ⟨item, hbegun⟩ := h.known flowID hconsumed
  exact hfresh (List.mem_filterMap.mpr ⟨_, hbegun, rfl⟩)

/-- An entry that consumes nothing leaves what is known of the flows. -/
theorem Inv.log (h : Inv s) {e : Entry} (he : e.consumedID = none)
    (hbecause : Because e s.history) : Inv { s with history := e :: s.history } := by
  have hconsumed : ∀ flowID, .consumed flowID ∈ e :: s.history → .consumed flowID ∈ s.history := by
    intro flowID hmem
    rcases List.mem_cons.mp hmem with heq | hold
    · rw [← heq] at he
      cases he
    · exact hold
  refine ⟨fun flowID item hitem => ?_, fun call hcall item hitem => ?_, fun flowID hmem => ?_,
    ⟨hbecause, h.justified⟩, h.size, h.quota⟩
  · obtain ⟨hbegun, hnot⟩ := h.pending flowID item hitem
    exact ⟨List.mem_cons_of_mem _ hbegun, fun hmem => hnot (hconsumed flowID hmem)⟩
  · obtain ⟨hbegun, hmem⟩ := h.calls call hcall item hitem
    exact ⟨List.mem_cons_of_mem _ hbegun, List.mem_cons_of_mem _ hmem⟩
  · obtain ⟨item, hitem⟩ := h.known flowID (hconsumed flowID hmem)
    exact ⟨item, List.mem_cons_of_mem _ hitem⟩

/-- Flows are forgotten as time passes. -/
theorem Inv.cleanup (h : Inv s) (seconds : ℕ) :
    Inv { s with
      now := s.now + seconds
      passkeyPending := cleanupPasskeyChallenges s.now s.passkeyPending } := by
  refine ⟨fun flowID item hitem => h.pending flowID item (lookup_of_sweep hitem), h.calls, h.known,
    h.justified, (count_sweep_le (fun _ => true) _ _).2.trans h.size, fun owner => ?_⟩
  exact (quota_later (Nat.le_add_right _ _) owner _).trans
    ((count_sweep_le _ _ _).1.trans (h.quota owner))

theorem Inv.begin (h : Inv s) (hfresh : Fresh s.history flowID) {seconds : ℕ}
    {result : Except (ℕ × String) Unit × Pending}
    (hadded : Added limits s.now flowID item s.passkeyPending result)
    (hlimits : ∀ owner : Owner, owner.has item = true → owner.has = limits.counts) :
    Inv (PasskeyFlows.begin s flowID item seconds result) := by
  have hclean := h.cleanup seconds
  cases hadded with
  | refused answer => exact hclean.log rfl trivial
  | stored hcount hsize =>
    have hlogged : Inv { s with
        now := s.now + seconds
        passkeyPending := cleanupPasskeyChallenges s.now s.passkeyPending
        history := .begun flowID item :: s.history } := hclean.log rfl trivial
    refine ⟨fun id other hother => ?_, hlogged.calls, hlogged.known, hlogged.justified,
      (size_insert_le _ _ _).trans hsize, fun owner => ?_⟩
    · rcases lookup_of_insert hother with ⟨rfl, rfl⟩ | hold
      · refine ⟨List.mem_cons_self, fun hmem => hfresh.not_consumed h ?_⟩
        exact (List.mem_cons.mp hmem).resolve_left nofun
      · exact hlogged.pending id other hold
    · refine quota_insert (hlogged.quota owner) fun hitem => ?_
      rw [hlimits owner hitem]
      exact hcount

/-- A finish takes the flow out, whoever it is for. -/
theorem Inv.take (h : Inv s) (finish : Finish) (flowID : String) :
    Inv (takeFlow s finish flowID) := by
  have hsize := (count_erase_le (fun _ => true) flowID s.passkeyPending).2.trans h.size
  have hquota := fun owner : Owner =>
    (count_erase_le (owner.hasAt s.now) flowID s.passkeyPending).1.trans (h.quota owner)
  unfold takeFlow
  dsimp only
  cases htaken : s.passkeyPending.lookup flowID with
  | none =>
    refine ⟨fun id item hitem => h.pending id item (lookup_of_erase hitem).2,
      fun call hcall item hitem => ?_, h.known, h.justified, hsize, hquota⟩
    rcases List.mem_append.mp hcall with hold | hnew
    · exact h.calls call hold item hitem
    · rw [List.mem_singleton.mp hnew] at hitem
      cases hitem
  | some taken =>
    obtain ⟨hbegun, hnot⟩ := h.pending flowID taken htaken
    refine ⟨fun id item hitem => ?_, fun call hcall item hitem => ?_, fun id hmem => ?_,
      ⟨hnot, h.justified⟩, hsize, hquota⟩
    · obtain ⟨hne, hlookup⟩ := lookup_of_erase hitem
      obtain ⟨hother, hpending⟩ := h.pending id item hlookup
      refine ⟨List.mem_cons_of_mem _ hother, fun hmem => ?_⟩
      rcases List.mem_cons.mp hmem with heq | hold
      · exact hne (Entry.consumed.inj heq)
      · exact hpending hold
    · rcases List.mem_append.mp hcall with hold | hnew
      · obtain ⟨hcallbegun, hconsumed⟩ := h.calls call hold item hitem
        exact ⟨List.mem_cons_of_mem _ hcallbegun, List.mem_cons_of_mem _ hconsumed⟩
      · rw [List.mem_singleton.mp hnew] at hitem ⊢
        rw [← Option.some.inj hitem]
        exact ⟨List.mem_cons_of_mem _ hbegun, List.mem_cons_self⟩
    · rcases List.mem_cons.mp hmem with heq | hold
      · rw [Entry.consumed.inj heq]
        exact ⟨taken, List.mem_cons_of_mem _ hbegun⟩
      · obtain ⟨item, hitem⟩ := h.known id hold
        exact ⟨item, List.mem_cons_of_mem _ hitem⟩

/-- A finish that goes on took a flow of its own that is not expired. -/
theorem Inv.because (h : Inv s) {call : Call} (hcall : call ∈ s.calls)
    (hproceeds : call.finish.proceeds call.taken s.now = true) :
    Because (.proceeded call.finish call.flowID s.now) s.history := by
  unfold Finish.proceeds at hproceeds
  cases htaken : call.taken with
  | none => simp [htaken] at hproceeds
  | some item =>
    obtain ⟨hbegun, hconsumed⟩ := h.calls call hcall item htaken
    simp only [htaken, Option.any_some, Bool.and_eq_true, Bool.not_eq_true',
      decide_eq_false_iff_not, not_lt] at hproceeds
    exact ⟨hconsumed, item, hbegun, hproceeds.1, hproceeds.2⟩

theorem Inv.look (h : Inv s) {index : ℕ} {call : Call} (hcall : s.calls[index]? = some call) :
    Inv (lookAt s index call) := by
  have herased : Inv { s with calls := s.calls.eraseIdx index } :=
    ⟨h.pending, fun other hother => h.calls other (List.mem_of_mem_eraseIdx hother), h.known,
      h.justified, h.size, h.quota⟩
  unfold lookAt
  split
  · rename_i hproceeds
    exact herased.log rfl (h.because (List.mem_of_getElem? hcall) hproceeds)
  · exact herased.log rfl trivial

theorem Inv.step (h : Inv s) (hstep : PasskeyFlows.step s a = some s') : Inv s' := by
  cases a with
  | loginBegin opening seconds =>
    simp only [PasskeyFlows.step, Option.ite_none_right_eq_some, Option.some.injEq] at hstep
    obtain ⟨hfresh, rfl⟩ := hstep
    refine h.begin hfresh (added _ _ _ _ _) fun owner howner => ?_
    cases owner with
    | ip sourceIP =>
      have hip : opening.sourceIP = sourceIP := of_decide_eq_true howner
      rw [← hip]
      rfl
    | session sessionID => simp [Owner.has, loginFlow] at howner
  | registerBegin opening sessionID seconds =>
    simp only [PasskeyFlows.step, Option.ite_none_right_eq_some, Option.some.injEq] at hstep
    obtain ⟨hfresh, rfl⟩ := hstep
    refine h.begin hfresh (added _ _ _ _ _) fun owner howner => ?_
    cases owner with
    | ip sourceIP => simp [Owner.has, registerFlow] at howner
    | session other =>
      have hsession : sessionID = other := of_decide_eq_true howner
      rw [← hsession]
      rfl
  | take finish flowID => exact Option.some.inj hstep ▸ h.take finish flowID
  | look index =>
    obtain ⟨call, hcall, rfl⟩ := Option.map_eq_some_iff.mp hstep
    exact h.look hcall
  | pass seconds =>
    rw [← Option.some.inj hstep]
    exact ⟨h.pending, h.calls, h.known, h.justified, h.size, fun owner =>
      (quota_later (Nat.le_add_right _ _) owner _).trans (h.quota owner)⟩

theorem inv_init (now : ℕ) : Inv (init now) :=
  ⟨nofun, nofun, nofun, trivial, Nat.zero_le _, fun _ => Nat.zero_le _⟩

/-- **In every state of every run the quotas hold, each flow was consumed at most once, and each
finish went on with a flow of its own that was not expired.** -/
theorem flows_kept (start : ℕ) (h : Machine.Reaches step Machine.Free (init start) s) :
    FlowsKept s := by
  have hinv : Inv s := h.invariant (P := Inv) (inv_init start)
    fun _ _ _ hinv _ hstep => hinv.step hstep
  refine ⟨fun later before flowID hhistory => ?_,
    fun later before finish flowID time hhistory => ?_, hinv.size, hinv.quota⟩
  · exact (hhistory ▸ hinv.justified).of_append
  · exact (hhistory ▸ hinv.justified).of_append

/-! ## A concrete run -/

def opening (flowID : String) : Opening :=
  ⟨flowID, "challenge", "https://panel", "panel", "admin", "203.0.113.7"⟩

/-- A login that is begun and finished while a registration is finished as a login. -/
theorem login_proceeds : ∃ s, Machine.Reaches step Machine.Free (init 100) s ∧
    s.history = [.proceeded .login "a" 160, .refused (401, "Passkey 登录请求已过期"),
      .consumed "b", .consumed "a", .begun "b" (registerFlow (opening "b") "session" 130),
      .begun "a" (loginFlow (opening "a") 100)] ∧ FlowsKept s := by
  have hrun : (Machine.run step (init 100)
      [.loginBegin (opening "a") 0, .registerBegin (opening "b") "session" 30, .take .login "a",
        .take .login "b", .take .login "a", .pass 30, .look 1, .look 0]).map State.history =
      some [.proceeded .login "a" 160, .refused (401, "Passkey 登录请求已过期"),
        .consumed "b", .consumed "a", .begun "b" (registerFlow (opening "b") "session" 130),
        .begun "a" (loginFlow (opening "a") 100)] := by decide +kernel
  obtain ⟨s, hs, hhistory⟩ := Option.map_eq_some_iff.mp hrun
  have hreach := Machine.reaches_of_run hs
  exact ⟨s, hreach, hhistory, flows_kept 100 hreach⟩

end LukePanel.Server.PasskeyFlows
