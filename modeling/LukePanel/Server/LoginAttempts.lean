import LukePanel.Auth.LimiterLocks
import LukePanel.Server.Login

/-! # Concurrent logins against the attempt bound

`login` asks `Allowed`, reads the body, verifies the password and only then records the
failure, each under its own lock. The machine runs any number of such logins of one address,
interleaved with limiter calls for other keys. Nothing is reserved for a login between its
check and its record, so the attempt bound holds when, and only as far as, every login that is
admitted finds fewer than five failures and logins still in flight together. -/
namespace LukePanel.Server.LoginAttempts
open LukePanel.Auth LukePanel.Auth.Ratelimit LukePanel.Library.Machine LukePanel.Server.Login

inductive Phase where
  /-- `Allowed` has answered yes; the body is being read. -/
  | admitted
  /-- `auth.VerifyPassword` has returned. -/
  | verified (verdict : Verdict)
  | ended
  deriving DecidableEq, Repr

def Phase.inFlight : Phase → Bool
  | .ended => false
  | _ => true

/-- The password is verified and the outcome not yet recorded. -/
def Phase.unrecorded : Phase → Bool
  | .verified _ => true
  | _ => false

/-- `verified` counts the password verifications performed for the address, `opened` the
windows its failures have opened; the code keeps neither. -/
structure State where
  clocked : Clocked
  logins : List Phase
  verified : Nat
  opened : Nat

def start : State := ⟨Ratelimit.start, [], 0, 0⟩

inductive Act where
  /-- A login arrives and asks `Allowed`. -/
  | arrive (now : Nat) (order : List String)
  /-- The body is decoded, the credentials are copied and the password is verified;
  `none` is a body that does not decode, which ends the login unrecorded. -/
  | verify (i : Nat) (body : Option LoginRequest) (snap : Snapshot)
  /-- `verifySecondFactor` returns. -/
  | second (i : Nat) (ok : Bool)
  | fail (i : Nat) (now : Nat) (order : List String)
  /-- `establishSession` calls `Success`. -/
  | succeed (i : Nat) (now : Nat) (order : List String)
  /-- A limiter call for another key. -/
  | other (c : Call)

section

variable (verifyPassword : String → String → Option Bool) (ip : String)

def step (s : State) : Act → Option State
  | .arrive now order =>
    (Ratelimit.step s.clocked ⟨.allowed ip, now, order⟩).map fun clocked =>
      if (s.clocked.limiter.allowed ip order now).1.1 then
        { s with clocked, logins := s.logins ++ [.admitted] }
      else { s with clocked }
  | .verify i body snap =>
    match s.logins[i]? with
    | some .admitted =>
      match body with
      | none => some { s with logins := s.logins.set i .ended }
      | some req =>
        some { s with
          logins := s.logins.set i (.verified (verdict verifyPassword snap req))
          verified := s.verified + 1 }
    | _ => none
  | .second i ok =>
    match s.logins[i]? with
    | some (.verified .secondFactor) =>
      some { s with logins := s.logins.set i (.verified (if ok then .granted else .failed)) }
    | _ => none
  | .fail i now order =>
    match s.logins[i]? with
    | some (.verified .failed) =>
      (Ratelimit.step s.clocked ⟨.fail ip, now, order⟩).map fun clocked =>
        { s with
          clocked
          logins := s.logins.set i .ended
          opened := if (s.clocked.limiter.get ip).opensWindow now then s.opened + 1
            else s.opened }
    | _ => none
  | .succeed i now order =>
    match s.logins[i]? with
    | some (.verified .granted) =>
      (Ratelimit.step s.clocked ⟨.success ip, now, order⟩).map fun clocked =>
        { s with clocked, logins := s.logins.set i .ended }
    | _ => none
  | .other c =>
    if c.op.key = ip then none
    else (Ratelimit.step s.clocked c).map fun clocked => { s with clocked }

end

/-- The failures of the running window; a window that is over counts none. -/
def running (a : Attempt) (now : Nat) : Nat := if a.opensWindow now then 0 else a.count

def State.inFlight (s : State) : Nat := s.logins.countP Phase.inFlight

def State.unrecorded (s : State) : Nat := s.logins.countP Phase.unrecorded

/-- Every admitted login finds room for itself, no login succeeds, and the record of the
address is not evicted. -/
def Bounded (ip : String) (s : State) : Act → Prop
  | .arrive now order => (s.clocked.limiter.allowed ip order now).1.1 = true →
      running (s.clocked.limiter.get ip) now + s.inFlight < 5
  | .fail _ now order => EvictionSpared ip s.clocked ⟨.fail ip, now, order⟩
  | .succeed .. => False
  | .other c => EvictionSpared ip s.clocked c
  | _ => True

/-! ## Counting phases -/

theorem countP_set {p : Phase → Bool} {logins : List Phase} {i : Nat} {x y : Phase}
    (h : logins[i]? = some x) :
    (logins.set i y).countP p + (if p x then 1 else 0) =
      logins.countP p + (if p y then 1 else 0) := by
  obtain ⟨hi, hx⟩ := List.getElem?_eq_some_iff.mp h
  rw [List.countP_set hi, hx]
  have hpos : p x = true → 0 < logins.countP p := fun hp =>
    List.countP_pos_iff.mpr ⟨x, hx ▸ List.getElem_mem hi, hp⟩
  by_cases hp : p x = true
  · have := hpos hp
    simp only [hp, if_true]
    omega
  · simp [hp]

theorem unrecorded_le_inFlight (s : State) : s.unrecorded ≤ s.inFlight := by
  refine List.countP_mono_left fun x _ h => ?_
  cases x <;> simp_all [Phase.unrecorded, Phase.inFlight]

/-! ## The record of the address under limiter calls -/

/-- A window does not open again as time passes. -/
theorem opensWindow_mono {a : Attempt} {now now' : Nat} (hle : now ≤ now')
    (h : a.opensWindow now' = false) : a.opensWindow now = false := by
  obtain ⟨h0, hw⟩ := Attempt.opensWindow_eq_false h
  exact Attempt.opensWindow_false (by omega) (by omega)

theorem running_mono {a : Attempt} {now now' : Nat} (hle : now ≤ now') :
    running a now' ≤ running a now := by
  unfold running
  by_cases h : a.opensWindow now' = true
  · simp [h]
  · rw [Bool.not_eq_true] at h
    simp [h, opensWindow_mono hle h]

theorem running_inside {a : Attempt} {now : Nat} (h : a.opensWindow now = false) :
    running a now = a.count := by
  unfold running
  rw [h]
  rfl

/-- A failure that opens a window is the only one that counts in it. -/
theorem running_afterFail_opens {a : Attempt} {now : Nat} (h : a.opensWindow now = true)
    (later : Nat) : running (a.afterFail now) later ≤ 1 := by
  rw [Attempt.afterFail_opens h]
  unfold running
  split
  · exact Nat.zero_le _
  · exact le_refl _

/-- A failure inside a window leaves its beginning where it is. -/
theorem running_afterFail_inside {a : Attempt} {now : Nat} (h : a.opensWindow now = false) :
    running (a.afterFail now) now = a.count + 1 := by
  have hstill : (a.afterFail now).opensWindow now = false := by
    rw [Attempt.afterFail_inside h]
    exact h
  rw [running_inside hstill, Attempt.afterFail_inside h]

/-- What a limiter call that is not a failure or success of the address leaves of its record:
everything, or nothing of a stale one. -/
def Kept (a a' : Attempt) (now : Nat) : Prop :=
  a' = a ∨ a' = ⟨0, 0, 0⟩ ∧ a.stale now = true

theorem Kept.running_le {a a' : Attempt} {now now' : Nat} (h : Kept a a' now') (hle : now ≤ now') :
    running a' now' ≤ running a now := by
  rcases h with rfl | ⟨rfl, _⟩
  · exact running_mono hle
  · exact Nat.zero_le _

theorem Kept.locked {a a' : Attempt} {now : Nat} (h : Kept a a' now) (hl : now < a'.lockedUntil) :
    now < a.lockedUntil := by
  rcases h with rfl | ⟨rfl, _⟩
  · exact hl
  · exact absurd hl (Nat.not_lt_zero _)

theorem kept_prune {l : LoginLimiter} {key : String} {order : List String} {now : Nat}
    (h : key ∈ (l.pruneLocked order now).keys ∨ key ∉ l.keys ∨ (l.record key).stale now = true) :
    Kept (l.get key) ((l.pruneLocked order now).get key) now := by
  by_cases hm : key ∈ (l.pruneLocked order now).keys
  · rw [LoginLimiter.get_of_mem hm, LoginLimiter.get_of_mem (LoginLimiter.mem_of_mem_prune hm),
      LoginLimiter.pruneLocked_record]
    exact Or.inl rfl
  · rw [LoginLimiter.get_of_not_mem hm]
    by_cases hk : key ∈ l.keys
    · refine Or.inr ⟨rfl, ?_⟩
      rw [LoginLimiter.get_of_mem hk]
      exact (h.resolve_left hm).resolve_left (fun hn => hn hk)
    · rw [LoginLimiter.get_of_not_mem hk]
      exact Or.inl rfl

theorem kept_step {ip : String} {s t : Clocked} {c : Call} (hi : Inv s)
    (hg : EvictionSpared ip s c) (hf : c.op ≠ .fail ip) (hq : c.op ≠ .success ip)
    (hs : Ratelimit.step s c = some t) :
    Kept (s.limiter.get ip) (t.limiter.get ip) t.now := by
  obtain ⟨hle, hn, hv, hl, ht⟩ := step_some hs
  rw [hl, ht]
  unfold apply
  split
  · rw [LoginLimiter.allowed_snd]
    refine kept_prune ?_
    by_cases hm : ip ∈ s.limiter.keys
    · cases hstale : (s.limiter.record ip).stale c.time with
      | true => exact Or.inr (Or.inr rfl)
      | false =>
        exact Or.inl (LoginLimiter.mem_prune_of_card hm hstale
          ((LoginLimiter.dropStale_card_le ..).trans hi.card))
    · exact Or.inr (Or.inl hm)
  · rename_i j hop
    rw [hop] at hv
    have hj : ip ≠ j := fun he => hf (he ▸ hop)
    have hrec := LoginLimiter.put_record_ne (l := s.limiter)
      ((s.limiter.get j).afterFail c.time) hj
    have hget : s.limiter.get ip =
        (s.limiter.put j ((s.limiter.get j).afterFail c.time)).get ip := by
      simp only [LoginLimiter.get, LoginLimiter.put_keys, Finset.mem_insert, hj, false_or]
      rw [LoginLimiter.put_record_ne _ hj]
    rw [hget]
    refine kept_prune ?_
    by_cases hm : ip ∈ s.limiter.keys
    · cases hstale : (s.limiter.record ip).stale c.time with
      | true => exact Or.inr (Or.inr (hrec ▸ hstale))
      | false =>
        exact Or.inl (mem_fail_of_spared hi hop hg hn hv (Finset.mem_insert_of_mem hm)
          (hrec ▸ hstale))
    · exact Or.inr (Or.inl (by simp [hj, hm]))
  · rename_i j hop
    have hj : ip ≠ j := fun he => hq (he ▸ hop)
    refine Or.inl ?_
    simp [LoginLimiter.get, LoginLimiter.success, hj]

theorem get_fail {ip : String} {s t : Clocked} {now : Nat} {order : List String} (hi : Inv s)
    (hg : EvictionSpared ip s ⟨.fail ip, now, order⟩)
    (hs : Ratelimit.step s ⟨.fail ip, now, order⟩ = some t) :
    t.limiter.get ip = (s.limiter.get ip).afterFail now := by
  obtain ⟨hle, hn, hv, hl, ht⟩ := step_some hs
  have hm : ip ∈ (s.limiter.fail ip order now).keys := by
    have hlive : ((s.limiter.put ip ((s.limiter.get ip).afterFail now)).record ip).stale now =
        false := by
      rw [LoginLimiter.put_record_self]
      exact Attempt.afterFail_not_stale _ _
    exact mem_fail_of_spared (c := ⟨.fail ip, now, order⟩) hi rfl hg hn hv
      (Finset.mem_insert_self _ _) hlive
  have hput : t.limiter = s.limiter.fail ip order now := hl
  rw [hput, LoginLimiter.get_of_mem hm, LoginLimiter.fail, LoginLimiter.pruneLocked_record, LoginLimiter.put_record_self]

/-! ## The invariant -/

/-- A record that reads as locked is one the limiter keeps. -/
theorem held_of_get {ip : String} {T : Nat} {l : LoginLimiter} (hT : 0 < T)
    (h : T ≤ (l.get ip).lockedUntil) : Held ip T l := by
  have hm : ip ∈ l.keys := by
    by_contra hm
    rw [LoginLimiter.get_of_not_mem hm] at h
    exact absurd h (Nat.not_le.mpr hT)
  rw [LoginLimiter.get_of_mem hm] at h
  exact ⟨hm, h⟩

/-- What a run under `Bounded` keeps: the failures of the running window and the logins in
flight are five together, no login is in flight under a lock, and the verifications performed
are accounted for while the first window runs. -/
structure Accounted (ip : String) (s : State) : Prop where
  inv : Inv s.clocked
  total : running (s.clocked.limiter.get ip) s.clocked.now + s.inFlight ≤ 5
  idle : s.clocked.now < (s.clocked.limiter.get ip).lockedUntil → s.inFlight = 0
  unopened : s.opened = 0 → s.clocked.limiter.get ip = ⟨0, 0, 0⟩ ∧ s.verified = s.unrecorded
  first : s.opened = 1 → (s.clocked.limiter.get ip).opensWindow s.clocked.now = false →
    s.verified = (s.clocked.limiter.get ip).count + s.unrecorded

namespace Accounted

variable {ip : String} {s : State}

theorem start : Accounted ip start :=
  ⟨inv_start, Nat.zero_le _, fun _ => rfl, fun _ => ⟨rfl, rfl⟩, fun h => absurd h (by decide)⟩

/-- A limiter call that keeps the record, and a clock that moves on. -/
theorem clock (h : Accounted ip s) {c : Clocked} (hi : Inv c) (hle : s.clocked.now ≤ c.now)
    (hk : Kept (s.clocked.limiter.get ip) (c.limiter.get ip) c.now) :
    Accounted ip { s with clocked := c } := by
  refine ⟨hi, ?_, ?_, ?_, ?_⟩
  · exact (Nat.add_le_add_right (hk.running_le hle) _).trans h.total
  · exact fun hl => h.idle (lt_of_le_of_lt hle (hk.locked hl))
  · intro h0
    obtain ⟨hz, hv⟩ := h.unopened h0
    refine ⟨?_, hv⟩
    rcases hk with hk | ⟨hk, _⟩
    · exact hk.trans hz
    · exact hk
  · intro h1 ho
    rcases hk with hk | ⟨hk, _⟩
    · rw [hk] at ho ⊢
      exact h.first h1 (opensWindow_mono hle ho)
    · rw [hk] at ho
      cases ho

theorem join (h : Accounted ip s)
    (hroom : running (s.clocked.limiter.get ip) s.clocked.now + s.inFlight < 5)
    (hfree : ¬ s.clocked.now < (s.clocked.limiter.get ip).lockedUntil) :
    Accounted ip { s with logins := s.logins ++ [.admitted] } := by
  have hin : State.inFlight { s with logins := s.logins ++ [.admitted] } = s.inFlight + 1 := by
    simp [State.inFlight, Phase.inFlight]
  have hun : State.unrecorded { s with logins := s.logins ++ [.admitted] } = s.unrecorded := by
    simp [State.unrecorded, Phase.unrecorded]
  refine ⟨h.inv, ?_, fun hl => absurd hl hfree, ?_, ?_⟩
  · rw [hin]; exact hroom
  · rw [hun]; exact h.unopened
  · rw [hun]; exact h.first

/-- A login moves on without a limiter call; `v` verifications are performed by then. -/
theorem move (h : Accounted ip s) {i v : Nat} {x y : Phase} (hx : s.logins[i]? = some x)
    (hxf : x.inFlight = true) (hv : v + (if x.unrecorded then 1 else 0) =
      s.verified + (if y.unrecorded then 1 else 0)) :
    Accounted ip { s with logins := s.logins.set i y, verified := v } := by
  have hin : State.inFlight { s with logins := s.logins.set i y, verified := v } ≤ s.inFlight := by
    have := countP_set (p := Phase.inFlight) (y := y) hx
    simp only [State.inFlight, hxf, if_true] at this ⊢
    split at this <;> omega
  have hun := countP_set (p := Phase.unrecorded) (y := y) hx
  refine ⟨h.inv, (Nat.add_le_add_left hin _).trans h.total, ?_, ?_, ?_⟩
  · exact fun hl => Nat.le_zero.mp (hin.trans (h.idle hl).le)
  · intro h0
    refine ⟨(h.unopened h0).1, ?_⟩
    have := (h.unopened h0).2
    simp only [State.unrecorded] at this ⊢
    omega
  · intro h1 ho
    have := h.first h1 ho
    simp only [State.unrecorded] at this ⊢
    omega

/-- A login that has failed leaves the logins in flight and those that are not recorded. -/
theorem recorded {i : Nat} (hx : s.logins[i]? = some (.verified .failed)) :
    (s.logins.set i .ended).countP Phase.inFlight + 1 = s.inFlight ∧
      (s.logins.set i .ended).countP Phase.unrecorded + 1 = s.unrecorded :=
  ⟨by simpa [State.inFlight, Phase.inFlight] using
      countP_set (p := Phase.inFlight) (y := .ended) hx,
    by simpa [State.unrecorded, Phase.unrecorded] using
      countP_set (p := Phase.unrecorded) (y := .ended) hx⟩

/-- A failure recorded after the window has run out opens the next one. -/
theorem record_opens (h : Accounted ip s) {i now : Nat} {c : Clocked}
    (hx : s.logins[i]? = some (.verified .failed)) (hi : Inv c)
    (hget : c.limiter.get ip = (s.clocked.limiter.get ip).afterFail now)
    (ho : (s.clocked.limiter.get ip).opensWindow now = true) :
    Accounted ip
      { s with clocked := c, logins := s.logins.set i .ended, opened := s.opened + 1 } := by
  obtain ⟨hin, hun⟩ := recorded hx
  have htotal := h.total
  have hone := running_afterFail_opens ho c.now
  rw [← hget] at hone
  rw [Attempt.afterFail_opens ho] at hget
  refine ⟨hi, ?_, ?_, nofun, ?_⟩
  · simp only [State.inFlight] at hin htotal ⊢
    omega
  · intro hl
    rw [hget] at hl
    exact absurd hl (Nat.not_lt_zero _)
  · intro h1 _
    have := (h.unopened (by simpa using h1)).2
    simp only [State.unrecorded, hget] at hun this ⊢
    omega

/-- A failure recorded inside the window counts in it. -/
theorem record_inside (h : Accounted ip s) {i : Nat} {c : Clocked}
    (hx : s.logins[i]? = some (.verified .failed)) (hi : Inv c) (hle : s.clocked.now ≤ c.now)
    (hget : c.limiter.get ip = (s.clocked.limiter.get ip).afterFail c.now)
    (ho : (s.clocked.limiter.get ip).opensWindow c.now = false) :
    Accounted ip { s with clocked := c, logins := s.logins.set i .ended } := by
  obtain ⟨hin, hun⟩ := recorded hx
  have hopen := opensWindow_mono hle ho
  have htotal := h.total
  have hidle := h.idle
  rw [running_inside hopen] at htotal
  have hinside := running_afterFail_inside ho
  rw [← hget] at hinside
  rw [Attempt.afterFail_inside ho] at hget
  simp only [State.inFlight] at hin htotal hidle
  refine ⟨hi, ?_, ?_, ?_, ?_⟩
  · simp only [State.inFlight, hinside]
    omega
  · intro hl
    simp only [State.inFlight, hget] at hl ⊢
    split at hl
    · omega
    · have := hidle (lt_of_le_of_lt hle hl)
      omega
  · intro h0
    have hz := (h.unopened h0).1
    rw [hz] at ho
    cases ho
  · intro h1 _
    have := h.first h1 hopen
    simp only [State.unrecorded, hget] at hun this ⊢
    omega

/-- Recording a failure moves one login from in flight to the count of the window. -/
theorem record (h : Accounted ip s) {i now : Nat} {order : List String} {c : Clocked}
    (hx : s.logins[i]? = some (.verified .failed))
    (hg : EvictionSpared ip s.clocked ⟨.fail ip, now, order⟩)
    (hs : Ratelimit.step s.clocked ⟨.fail ip, now, order⟩ = some c) :
    Accounted ip
        { s with
          clocked := c
          logins := s.logins.set i .ended
          opened := if (s.clocked.limiter.get ip).opensWindow now then s.opened + 1
            else s.opened } ∧
      (running (c.limiter.get ip) c.now = 5 → Held ip (now + 15 * minute) c.limiter) := by
  obtain ⟨hle, _, _, _, hnow⟩ := step_some hs
  have hget := get_fail h.inv hg hs
  have hi := inv_step h.inv hs
  simp only at hle hnow
  subst hnow
  cases ho : (s.clocked.limiter.get ip).opensWindow c.now with
  | true =>
    have hone := running_afterFail_opens ho c.now
    refine ⟨h.record_opens hx hi hget ho, fun h5 => ?_⟩
    rw [hget] at h5
    omega
  | false =>
    refine ⟨h.record_inside hx hi hle hget ho, fun h5 => ?_⟩
    rw [hget, running_afterFail_inside ho] at h5
    have hlock : (c.limiter.get ip).lockedUntil = c.now + 15 * minute := by
      rw [hget, Attempt.afterFail_inside ho]
      exact if_pos h5.ge
    exact held_of_get (by unfold minute; omega) hlock.ge

end Accounted

/-! ## Runs -/

section

variable {verifyPassword : String → String → Option Bool} {ip : String} {s t : State}

theorem accounted_arrive {now : Nat} {order : List String} {c : Clocked} (h : Accounted ip s)
    (hg : Bounded ip s (.arrive now order))
    (hs : Ratelimit.step s.clocked ⟨.allowed ip, now, order⟩ = some c) :
    Accounted ip (if (s.clocked.limiter.allowed ip order now).1.1 then
      { s with clocked := c, logins := s.logins ++ [.admitted] } else { s with clocked := c }) := by
  obtain ⟨hle, _, _, hl, hnow⟩ := step_some hs
  simp only at hle hnow
  have hk : Kept (s.clocked.limiter.get ip) (c.limiter.get ip) c.now :=
    kept_step (c := ⟨.allowed ip, now, order⟩) h.inv nofun nofun nofun hs
  have hc := h.clock (inv_step h.inv hs) (hnow ▸ hle) hk
  split
  · rename_i hyes
    refine hc.join ?_ ?_
    · rw [hnow] at hk
      have := hk.running_le (le_refl now)
      have hroom := hg hyes
      simp only [State.inFlight, hnow] at hroom ⊢
      omega
    · intro hlocked
      have hprune : c.limiter = s.clocked.limiter.pruneLocked order now :=
        hl.trans LoginLimiter.allowed_snd
      rw [hnow, hprune] at hlocked
      rw [LoginLimiter.allowed_fst, if_pos hlocked] at hyes
      cases hyes
  · exact hc

theorem accounted_step {a : Act} (h : Accounted ip s) (hg : Bounded ip s a)
    (hs : step verifyPassword ip s a = some t) : Accounted ip t := by
  cases a with
  | arrive now order =>
    obtain ⟨c, hc, rfl⟩ := Option.map_eq_some_iff.mp hs
    exact accounted_arrive h hg hc
  | verify i body snap =>
    simp only [step] at hs
    split at hs
    · rename_i hx
      cases body with
      | none => cases hs; exact h.move hx rfl rfl
      | some req => cases hs; exact h.move hx rfl rfl
    · cases hs
  | second i ok =>
    simp only [step] at hs
    split at hs
    · rename_i hx
      cases hs
      exact h.move hx rfl rfl
    · cases hs
  | fail i now order =>
    simp only [step] at hs
    split at hs
    · rename_i hx
      obtain ⟨c, hc, rfl⟩ := Option.map_eq_some_iff.mp hs
      exact (h.record hx hg hc).1
    · cases hs
  | succeed i now order => exact hg.elim
  | other c =>
    simp only [step] at hs
    split at hs
    · cases hs
    · rename_i hkey
      obtain ⟨c', hc, rfl⟩ := Option.map_eq_some_iff.mp hs
      have hne : ∀ op : String → Op, (op ip).key = ip → c.op ≠ op ip := fun op hop he =>
        hkey (by rw [he, hop])
      have hle := (step_some hc).1
      have hnow := (step_some hc).2.2.2.2
      exact h.clock (inv_step h.inv hc) (hnow ▸ hle)
        (kept_step h.inv hg (hne .fail rfl) (hne .success rfl) hc)

theorem accounted (hr : Reaches (step verifyPassword ip) (Bounded ip) start s) : Accounted ip s :=
  hr.invariant .start fun _ _ _ h hg hs => accounted_step h hg hs

/-- What a bounded step does to the limiter: nothing, or one call that is no success of the
address and fails it only while a login is in flight. -/
theorem limiter_step {a : Act} (hg : Bounded ip s a) (hs : step verifyPassword ip s a = some t) :
    t.clocked = s.clocked ∨ ∃ c, Ratelimit.step s.clocked c = some t.clocked ∧
      c.op ≠ .success ip ∧ (c.op = .fail ip → s.inFlight ≠ 0) := by
  cases a with
  | arrive now order =>
    obtain ⟨c, hc, rfl⟩ := Option.map_eq_some_iff.mp hs
    refine Or.inr ⟨⟨.allowed ip, now, order⟩, ?_, nofun, nofun⟩
    rw [hc]
    split <;> rfl
  | verify i body snap =>
    simp only [step] at hs
    split at hs
    · cases body <;> cases hs <;> exact Or.inl rfl
    · cases hs
  | second i ok =>
    simp only [step] at hs
    split at hs
    · cases hs; exact Or.inl rfl
    · cases hs
  | fail i now order =>
    simp only [step] at hs
    split at hs
    · rename_i hx
      obtain ⟨c, hc, rfl⟩ := Option.map_eq_some_iff.mp hs
      refine Or.inr ⟨_, hc, nofun, fun _ hnone => ?_⟩
      have hin := countP_set (p := Phase.inFlight) (y := .ended) hx
      simp only [State.inFlight, Phase.inFlight] at hnone hin
      simp [hnone] at hin
    · cases hs
  | succeed i now order => exact hg.elim
  | other c =>
    simp only [step] at hs
    split at hs
    · cases hs
    · rename_i hkey
      obtain ⟨c', hc, rfl⟩ := Option.map_eq_some_iff.mp hs
      exact Or.inr ⟨c, hc, fun hf => hkey (by rw [hf]; rfl),
        fun hf => absurd (by rw [hf]; rfl) hkey⟩

theorem clock_step {a : Act} (hg : Bounded ip s a) (hs : step verifyPassword ip s a = some t) :
    s.clocked.now ≤ t.clocked.now := by
  rcases limiter_step hg hs with h | ⟨c, hc, _, _⟩
  · exact (congrArg Clocked.now h).ge
  · have := step_some hc
    omega

/-- A lock outlasts every step of a bounded run that ends before it does: no login is in
flight whose failure could reset it. -/
theorem lock_step {T : Nat} {a : Act} (ha : Accounted ip s) (hg : Bounded ip s a)
    (hs : step verifyPassword ip s a = some t) (hT : t.clocked.now < T)
    (h : Held ip T s.clocked.limiter) : Held ip T t.clocked.limiter := by
  rcases limiter_step hg hs with hc | ⟨c, hc, hq, hf⟩
  · rw [hc]; exact h
  · refine held_step ha.inv (fun hop hlocked => ?_) hq hc hT h
    have := (step_some hc).1
    exact absurd (ha.idle (by omega)) (hf hop)

theorem lock_along {T : Nat} (ha : Accounted ip s)
    (hr : Reaches (step verifyPassword ip) (Bounded ip) s t) (h : Held ip T s.clocked.limiter) :
    Accounted ip t ∧ (t.clocked.now < T → Held ip T t.clocked.limiter) := by
  refine hr.invariant (P := fun t => Accounted ip t ∧
    (t.clocked.now < T → Held ip T t.clocked.limiter)) ⟨ha, fun _ => h⟩ ?_
  intro t a u ⟨hat, ht⟩ hg hs
  have := clock_step hg hs
  exact ⟨accounted_step hat hg hs, fun hT => lock_step hat hg hs hT (ht (by omega))⟩

/-- **The attempt bound, where admissions are accounted for.** In a run in which every login
that `Allowed` admits finds fewer than five failures of the running window and logins in
flight together, none succeeds and the record of the address is not evicted: the failures of
the running window and the verifications not yet recorded are at most five together; at most
five verifications are performed while the first window runs; and once five failures of a
window are recorded, `Allowed` refuses every login of the address for 15 minutes. -/
theorem attempts_bounded (hr : Reaches (step verifyPassword ip) (Bounded ip) start s) :
    running (s.clocked.limiter.get ip) s.clocked.now + s.unrecorded ≤ 5 ∧
    (s.opened = 0 ∨ s.opened = 1 ∧
        (s.clocked.limiter.get ip).opensWindow s.clocked.now = false → s.verified ≤ 5) ∧
    (∀ i now order t, Bounded ip s (.fail i now order) →
      step verifyPassword ip s (.fail i now order) = some t →
      running (t.clocked.limiter.get ip) t.clocked.now = 5 →
      ∀ u, Reaches (step verifyPassword ip) (Bounded ip) t u →
      ∀ order' now', u.clocked.now ≤ now' → now' < now + 15 * minute →
        (u.clocked.limiter.allowed ip order' now').1.1 = false) := by
  have ha := accounted hr
  have hle := unrecorded_le_inFlight s
  have htotal := ha.total
  refine ⟨by omega, ?_, ?_⟩
  · intro hfirst
    rcases hfirst with h0 | ⟨h1, hopen⟩
    · have := (ha.unopened h0).2
      omega
    · have := ha.first h1 hopen
      simp only [running, hopen] at htotal
      simp at htotal
      omega
  · intro i now order t hg hs hfive u hu order' now' hle' hlt
    have hat := accounted_step ha hg hs
    simp only [step] at hs
    split at hs
    · rename_i hx
      obtain ⟨c, hc, rfl⟩ := Option.map_eq_some_iff.mp hs
      obtain ⟨hau, hheld⟩ := lock_along hat hu ((ha.record hx hg hc).2 hfive)
      rw [(hheld (by omega)).refuses hau.inv.card hlt]
    · cases hs

end

/-- `Bounded`, computed; a map that is not full evicts nothing. -/
def boundedCheck (ip : String) (s : State) : Act → Bool
  | .arrive now order => !(s.clocked.limiter.allowed ip order now).1.1 ||
      decide (running (s.clocked.limiter.get ip) now + s.inFlight < 5)
  | .fail .. | .other _ => decide (s.clocked.limiter.keys.card < maxLoginLimiterKeys)
  | .succeed .. => false
  | .verify .. | .second .. => true

theorem bounded_of_check {ip : String} (s : State) (a : Act) (h : boundedCheck ip s a = true) :
    Bounded ip s a := by
  cases a with
  | arrive now order =>
    intro hyes
    simpa [boundedCheck, hyes] using h
  | verify | second => trivial
  | fail => exact evictionSpared_of_card (of_decide_eq_true h)
  | succeed => cases h
  | other => exact evictionSpared_of_card (of_decide_eq_true h)

/-- The `i`-th login of the address fails on its password. -/
def wrongPassword (i : Nat) : Act :=
  .verify i (some ⟨"admin", "guess", ""⟩) ⟨"hash", "admin", false⟩

def oneAddress (act : Nat → List String → Act) : Act := act 1 ["203.0.113.7"]

/-- Five logins one after the other, but for the last record. -/
def sequentialLogins : List Act :=
  (List.range 4).flatMap (fun i => [oneAddress .arrive, wrongPassword i, oneAddress (.fail i)]) ++
    [oneAddress .arrive, wrongPassword 4]

/-- Four failures recorded and a fifth login verified: with its failure the address is locked
and stays refused for 15 minutes. -/
theorem sequential_bounded : ∃ s t,
    run (step (fun _ _ => some false) "203.0.113.7") start sequentialLogins = some s ∧
    step (fun _ _ => some false) "203.0.113.7" s (oneAddress (.fail 4)) = some t ∧
    running (s.clocked.limiter.get "203.0.113.7") s.clocked.now + s.unrecorded ≤ 5 ∧
    s.verified ≤ 5 ∧
    (t.clocked.limiter.allowed "203.0.113.7" [] (15 * minute)).1.1 = false := by
  have hrun : (runIf (step (fun _ _ => some false) "203.0.113.7") (boundedCheck "203.0.113.7")
      start sequentialLogins).map (fun s => (s.opened, s.clocked.limiter.keys.card,
        (s.clocked.limiter.get "203.0.113.7").opensWindow s.clocked.now)) =
      some (1, 1, false) := by decide +kernel
  have hfail : ((runIf (step (fun _ _ => some false) "203.0.113.7") (boundedCheck "203.0.113.7")
      start sequentialLogins).bind
        (step (fun _ _ => some false) "203.0.113.7" · (oneAddress (.fail 4)))).map (fun t =>
          (running (t.clocked.limiter.get "203.0.113.7") t.clocked.now, t.clocked.now)) =
      some (5, 1) := by decide +kernel
  obtain ⟨s, hs, hsv⟩ := Option.map_eq_some_iff.mp hrun
  rw [hs] at hfail
  obtain ⟨t, ht, htv⟩ := Option.map_eq_some_iff.mp hfail
  simp only [Prod.mk.injEq] at hsv htv
  have hg : Bounded "203.0.113.7" s (oneAddress (.fail 4)) :=
    evictionSpared_of_card (by rw [hsv.2.1]; decide)
  have h := attempts_bounded (reaches_of_runIf bounded_of_check hs)
  refine ⟨s, t, run_of_runIf hs, ht, h.1, h.2.1 (Or.inr ⟨hsv.1, hsv.2.2⟩), ?_⟩
  exact h.2.2 4 1 ["203.0.113.7"] t hg ht htv.1 t .refl _ _ (by rw [htv.2]; decide) (by decide)

/-- Six logins are admitted and verified before the first failure is recorded. -/
def concurrentLogins : List Act :=
  List.replicate 6 (oneAddress .arrive) ++ (List.range 6).map wrongPassword

/-- Six verifications, none successful, for an address that `Allowed` still admits. -/
theorem six_verified : ∃ s,
    run (step (fun _ _ => some false) "203.0.113.7") start concurrentLogins = some s ∧
    s.verified = 6 ∧ s.logins = List.replicate 6 (.verified .failed) ∧
    (s.clocked.limiter.allowed "203.0.113.7" ["203.0.113.7"] s.clocked.now).1.1 = true := by
  have hrun : (run (step (fun _ _ => some false) "203.0.113.7") start concurrentLogins).map
      (fun s => (s.verified, s.logins,
        (s.clocked.limiter.allowed "203.0.113.7" ["203.0.113.7"] s.clocked.now).1.1)) =
      some (6, List.replicate 6 (.verified .failed), true) := by decide +kernel
  obtain ⟨s, hs, hv⟩ := Option.map_eq_some_iff.mp hrun
  simp only [Prod.mk.injEq] at hv
  exact ⟨s, hs, hv⟩

end LukePanel.Server.LoginAttempts
