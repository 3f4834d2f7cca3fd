import LukePanel.Auth.Ratelimit

/-! # When a lock of the login limiter is kept, and when one is reached

Runs of timed `Allowed`, `Fail` and `Success` calls on any keys. A lock of `key` is lost in
one way: a failure of `key` recorded while the lock runs but more than 15 minutes after the
window began starts a new record (`fail_keeps_lock_iff`). A lock is missed in two ways: the failures
do not share a window, or the record of `key` is the one that pruning evicts
(`newcomer_evicted`). Where no step does any of these both halves of the limiter's promise hold
along every run. -/
namespace LukePanel.Auth.Ratelimit
open LukePanel.Library.Machine

/-! ## The invariant of the records -/

structure Attempt.Good (a : Attempt) (now : Nat) : Prop where
  window : a.windowStart ≤ now
  lock : a.lockedUntil ≤ now + 15 * minute
  counted : a.lockedUntil ≠ 0 → 5 ≤ a.count

theorem Attempt.Good.mono {a : Attempt} {now now' : Nat} (h : a.Good now) (hle : now ≤ now') :
    a.Good now' :=
  ⟨h.window.trans hle, by have := h.lock; omega, h.counted⟩

theorem Attempt.good_zero (now : Nat) : Attempt.Good ⟨0, 0, 0⟩ now :=
  ⟨Nat.zero_le _, Nat.zero_le _, fun h => absurd rfl h⟩

theorem Attempt.good_afterFail {a : Attempt} {now : Nat} (h : a.Good now) :
    (a.afterFail now).Good now := by
  cases ho : a.opensWindow now with
  | true =>
    rw [Attempt.afterFail_opens ho]
    exact ⟨le_refl _, Nat.zero_le _, fun h => absurd rfl h⟩
  | false =>
    rw [Attempt.afterFail_inside ho]
    refine ⟨h.window, ?_, ?_⟩
    · simp only
      split
      · exact le_refl _
      · exact h.lock
    · simp only
      split
      · intro _; assumption
      · intro hl; have := h.counted hl; omega

/-- A failure leaves a record of a window that has begun. -/
theorem Attempt.afterFail_started (a : Attempt) {now : Nat} (h : 0 < now) :
    0 < (a.afterFail now).windowStart ∧ 1 ≤ (a.afterFail now).count := by
  cases ho : a.opensWindow now with
  | true => rw [Attempt.afterFail_opens ho]; exact ⟨h, le_refl _⟩
  | false =>
    rw [Attempt.afterFail_inside ho]
    exact ⟨Nat.pos_of_ne_zero (Attempt.opensWindow_eq_false ho).1, Nat.le_add_left _ _⟩

structure Inv (s : Clocked) : Prop where
  clock : 0 < s.now
  card : s.limiter.keys.card ≤ maxLoginLimiterKeys
  good : ∀ key ∈ s.limiter.keys, (s.limiter.record key).Good s.now

theorem inv_start : Inv start :=
  ⟨Nat.one_pos, Nat.zero_le _, fun key h => absurd h (Finset.notMem_empty key)⟩

theorem Inv.good_get {s : Clocked} (h : Inv s) (key : String) : (s.limiter.get key).Good s.now := by
  by_cases hk : key ∈ s.limiter.keys
  · rw [LoginLimiter.get_of_mem hk]; exact h.good key hk
  · rw [LoginLimiter.get_of_not_mem hk]; exact Attempt.good_zero _

namespace LoginLimiter

variable {l : LoginLimiter} {key : String} {order : List String} {now : Nat}

theorem allowed_snd : (l.allowed key order now).2 = l.pruneLocked order now := by
  simp only [allowed]; split <;> rfl

theorem allowed_fst : (l.allowed key order now).1 =
    if now < ((l.pruneLocked order now).get key).lockedUntil then
      (false, ((l.pruneLocked order now).get key).lockedUntil - now)
    else (true, 0) := by
  simp only [allowed]; split <;> rfl

end LoginLimiter

theorem inv_step {s t : Clocked} {c : Call} (h : Inv s) (hs : step s c = some t) : Inv t := by
  obtain ⟨hle, hn, hv, hl, ht⟩ := step_some hs
  have hv' : ∀ key ∈ s.limiter.keys, key ∈ c.order := fun key hk =>
    hv key (Finset.mem_insert_of_mem hk)
  unfold apply at hl
  split at hl
  · rw [LoginLimiter.allowed_snd] at hl
    refine ⟨by have := h.clock; omega, hl ▸ LoginLimiter.pruneLocked_card hn hv', ?_⟩
    intro key hk
    rw [hl] at hk
    rw [hl, LoginLimiter.pruneLocked_record, ht]
    exact (h.good key (LoginLimiter.mem_of_mem_prune hk)).mono hle
  · rename_i j hop
    rw [hop] at hv
    refine ⟨by have := h.clock; omega, hl ▸ LoginLimiter.pruneLocked_card hn hv, ?_⟩
    intro key hk
    rw [hl] at hk
    have hk := LoginLimiter.mem_of_mem_prune hk
    rw [hl, LoginLimiter.fail, LoginLimiter.pruneLocked_record, ht]
    by_cases hkj : key = j
    · subst hkj
      rw [LoginLimiter.put_record_self]
      exact Attempt.good_afterFail ((h.good_get key).mono hle)
    · rw [LoginLimiter.put_record_ne _ hkj]
      exact (h.good key ((Finset.mem_insert.mp hk).resolve_left hkj)).mono hle
  · refine ⟨by have := h.clock; omega, ?_, ?_⟩
    · rw [hl]; exact (Finset.card_le_card (Finset.erase_subset _ _)).trans h.card
    · intro key hk
      rw [hl] at hk
      rw [hl, ht]
      exact (h.good key (Finset.mem_of_mem_erase hk)).mono hle

/-! ## What a lock and a count rest on -/

/-- The lock of `key` is not reset: no failure of `key` is recorded while the lock runs and
the window it belongs to is over. -/
def LockSpared (key : String) (s : Clocked) (c : Call) : Prop :=
  c.op = .fail key → c.time < (s.limiter.get key).lockedUntil →
    (s.limiter.get key).opensWindow c.time = false

/-- The record of `key` is not evicted: a failure that leaves more live records than the
limit finds one that was seen before that of `key`. -/
def EvictionSpared (key : String) (s : Clocked) (c : Call) : Prop :=
  ∀ j, c.op = .fail j →
    let l := (s.limiter.put j ((s.limiter.get j).afterFail c.time)).dropStale c.time
    maxLoginLimiterKeys < l.keys.card → ∃ i ∈ l.keys, (l.record i).seen < (l.record key).seen

/-- `key` is locked at least until `T`. -/
def Held (key : String) (T : Nat) (l : LoginLimiter) : Prop :=
  key ∈ l.keys ∧ T ≤ (l.record key).lockedUntil

/-- The record of `key`, if there is one, counts at least `n` failures. -/
def Tracked (key : String) (n : Nat) (l : LoginLimiter) : Prop :=
  key ∈ l.keys → n ≤ (l.record key).count

theorem Held.refuses {key : String} {T now : Nat} {l : LoginLimiter} {order : List String}
    (h : Held key T l) (hc : l.keys.card ≤ maxLoginLimiterKeys) (hT : now < T) :
    (l.allowed key order now).1 =
      (false, (l.record key).lockedUntil - now) := by
  have hm : key ∈ (l.pruneLocked order now).keys := LoginLimiter.mem_prune_of_card h.1
    (Attempt.not_stale_of_locked (by have := h.2; omega))
    ((LoginLimiter.dropStale_card_le ..).trans hc)
  rw [LoginLimiter.allowed_fst, LoginLimiter.get_of_mem hm, LoginLimiter.pruneLocked_record]
  exact if_pos (by have := h.2; omega)

/-- A refusal names the end of a lock that the limiter then holds. -/
theorem held_of_refused {key : String} {now d : Nat} {l : LoginLimiter} {order : List String}
    (h : (l.allowed key order now).1 = (false, d)) : Held key (now + d) (l.pruneLocked order now) := by
  rw [LoginLimiter.allowed_fst] at h
  split at h
  · rename_i hlt
    have hm : key ∈ (l.pruneLocked order now).keys := by
      by_contra hm
      rw [LoginLimiter.get_of_not_mem hm] at hlt
      exact absurd hlt (Nat.not_lt_zero _)
    rw [LoginLimiter.get_of_mem hm] at h hlt
    have hd := (Prod.mk.injEq ..).mp h
    exact ⟨hm, by omega⟩
  · cases (Prod.mk.injEq ..).mp h |>.1

/-- A failure of another key evicts no record that is locked beyond the present: the record
it adds is itself older. -/
theorem mem_fail_of_held {key j : String} {T now : Nat} {l : LoginLimiter} {order : List String}
    (h : Held key T l) (hc : l.keys.card ≤ maxLoginLimiterKeys) (hT : now < T) (hj : j ≠ key)
    (hn : order.Nodup) (hv : ∀ i ∈ insert j l.keys, i ∈ order) :
    key ∈ (l.fail j order now).keys := by
  have hrec := LoginLimiter.put_record_ne (l := l) ((l.get j).afterFail now) hj.symm
  have hseen : now < (l.record key).seen := by
    have := h.2
    unfold Attempt.seen
    split <;> omega
  refine LoginLimiter.mem_prune_of_older hn hv (Finset.mem_insert_of_mem h.1) ?_ ?_ ?_
  · rw [hrec]; exact Attempt.not_stale_of_locked (by have := h.2; omega)
  · exact (LoginLimiter.dropStale_card_le ..).trans ((Finset.card_insert_le _ _).trans (by omega))
  · intro hlt
    -- more records than the limit: `j` was not tracked, so its new record is unlocked
    have hnew : j ∉ l.keys := by
      intro hm
      have hle := LoginLimiter.dropStale_card_le (l.put j ((l.get j).afterFail now)) now
      rw [LoginLimiter.put_keys, Finset.insert_eq_of_mem hm] at hle
      omega
    have hfail : (l.get j).afterFail now = ⟨1, now, 0⟩ := by
      rw [LoginLimiter.get_of_not_mem hnew]; exact Attempt.afterFail_opens rfl
    refine ⟨j, LoginLimiter.mem_dropStale.mpr ⟨Finset.mem_insert_self _ _, ?_⟩, ?_⟩
    · rw [LoginLimiter.put_record_self, hfail]
      exact Attempt.not_stale_of_window (Nat.le_add_right _ _)
    · rw [LoginLimiter.put_record_self, hrec, hfail]
      simpa [Attempt.seen] using hseen

theorem held_step {key : String} {T : Nat} {s t : Clocked} {c : Call} (hi : Inv s)
    (hg : LockSpared key s c) (hq : c.op ≠ .success key) (hs : step s c = some t)
    (hT : t.now < T) (h : Held key T s.limiter) : Held key T t.limiter := by
  obtain ⟨hle, hn, hv, hl, ht⟩ := step_some hs
  unfold apply at hl
  split at hl
  · rw [hl, LoginLimiter.allowed_snd]
    refine ⟨?_, by rw [LoginLimiter.pruneLocked_record]; exact h.2⟩
    exact LoginLimiter.mem_prune_of_card h.1 (Attempt.not_stale_of_locked (by have := h.2; omega))
      ((LoginLimiter.dropStale_card_le ..).trans hi.card)
  · rename_i j hop
    rw [hop] at hv
    by_cases hj : j = key
    · subst hj
      have hopen := hg hop
      rw [LoginLimiter.get_of_mem h.1] at hopen
      have hlock := hi.good j h.1
      have hrec : (s.limiter.get j).afterFail c.time =
          ⟨(s.limiter.record j).count + 1, (s.limiter.record j).windowStart,
            c.time + 15 * minute⟩ := by
        rw [LoginLimiter.get_of_mem h.1,
          Attempt.afterFail_inside (hopen (by have := h.2; omega))]
        have := hlock.counted (by have := h.2; omega)
        rw [if_pos (by omega)]
      have hlong : T ≤ c.time + 15 * minute := by
        have := h.2; have := hlock.lock; omega
      rw [hl]
      refine ⟨?_, ?_⟩
      · refine LoginLimiter.mem_prune_of_card (Finset.mem_insert_self _ _) ?_ ?_
        · rw [LoginLimiter.put_record_self, hrec]
          exact Attempt.not_stale_of_locked (Nat.le_add_right _ _)
        · refine (LoginLimiter.dropStale_card_le ..).trans ?_
          rw [LoginLimiter.put_keys, Finset.insert_eq_of_mem h.1]
          exact hi.card
      · rw [LoginLimiter.fail, LoginLimiter.pruneLocked_record, LoginLimiter.put_record_self, hrec]
        exact hlong
    · rw [hl]
      refine ⟨mem_fail_of_held h hi.card (by omega) hj hn hv, ?_⟩
      rw [LoginLimiter.fail, LoginLimiter.pruneLocked_record,
        LoginLimiter.put_record_ne _ (Ne.symm hj)]
      exact h.2
  · rename_i j hop
    rw [hl]
    exact ⟨Finset.mem_erase.mpr ⟨fun he => hq (he ▸ hop), h.1⟩, h.2⟩

/-! ## Counting to five -/

/-- `key`'s record survives the pruning of a failure that spares it. -/
theorem mem_fail_of_spared {key j : String} {s : Clocked} {c : Call} (hi : Inv s)
    (hop : c.op = .fail j) (hg : EvictionSpared key s c) (hn : c.order.Nodup)
    (hv : ∀ i ∈ insert j s.limiter.keys, i ∈ c.order)
    (hm : key ∈ insert j s.limiter.keys)
    (hs : ((s.limiter.put j ((s.limiter.get j).afterFail c.time)).record key).stale c.time = false) :
    key ∈ (s.limiter.fail j c.order c.time).keys := by
  refine LoginLimiter.mem_prune_of_older hn hv hm hs ?_ (hg j hop)
  exact (LoginLimiter.dropStale_card_le ..).trans
    ((Finset.card_insert_le _ _).trans (by have := hi.card; omega))

/-- A record just written is not stale. -/
theorem Attempt.afterFail_not_stale (a : Attempt) (now : Nat) : (a.afterFail now).stale now = false := by
  cases ho : a.opensWindow now with
  | true => rw [Attempt.afterFail_opens ho]; exact Attempt.not_stale_of_window (Nat.le_add_right _ _)
  | false =>
    rw [Attempt.afterFail_inside ho]
    have := (Attempt.opensWindow_eq_false ho).2
    exact Attempt.not_stale_of_window (by simp only; omega)

theorem tracked_step {key : String} {n : Nat} {s t : Clocked} {c : Call} (hf : c.op ≠ .fail key)
    (hs : step s c = some t) (h : Tracked key n s.limiter) : Tracked key n t.limiter := by
  obtain ⟨hle, hn, hv, hl, ht⟩ := step_some hs
  intro hm
  unfold apply at hl
  split at hl
  · rw [hl, LoginLimiter.allowed_snd] at hm ⊢
    rw [LoginLimiter.pruneLocked_record]
    exact h (LoginLimiter.mem_of_mem_prune hm)
  · rename_i j hop
    have hj : key ≠ j := fun he => hf (he ▸ hop)
    rw [hl] at hm ⊢
    rw [LoginLimiter.fail, LoginLimiter.pruneLocked_record, LoginLimiter.put_record_ne _ hj]
    exact h ((Finset.mem_insert.mp (LoginLimiter.mem_of_mem_prune hm)).resolve_left hj)
  · rename_i j hop
    rw [hl] at hm ⊢
    exact h (Finset.mem_of_mem_erase hm)

/-- The failure leaves the record that it makes. -/
theorem record_fail {key : String} {s t : Clocked} {c : Call} (hf : c.op = .fail key)
    (hs : step s c = some t) : t.limiter.record key = (s.limiter.get key).afterFail c.time := by
  rw [(step_some hs).2.2.2.1, apply, hf]
  simp only [LoginLimiter.fail, LoginLimiter.pruneLocked_record, LoginLimiter.put_record_self]

theorem tracked_fail {key : String} {n : Nat} {s t : Clocked} {c : Call} (hi : Inv s)
    (hg : EvictionSpared key s c) (hf : c.op = .fail key) (hs : step s c = some t)
    (hopen : (s.limiter.get key).opensWindow c.time = false) (h : Tracked key n s.limiter) :
    Tracked key (n + 1) t.limiter ∧
      (5 ≤ n + 1 → Held key (c.time + 15 * minute) t.limiter) := by
  obtain ⟨hle, hn, hv, hl, ht⟩ := step_some hs
  rw [hf] at hv
  -- a window that is open is the window of a record
  have hm : key ∈ s.limiter.keys := by
    by_contra hm
    rw [LoginLimiter.get_of_not_mem hm] at hopen
    cases hopen
  have hrec := (record_fail hf hs).trans (Attempt.afterFail_inside hopen)
  rw [LoginLimiter.get_of_mem hm] at hrec
  have hcount := h hm
  refine ⟨fun _ => by rw [hrec]; exact Nat.succ_le_succ hcount, fun h5 => ⟨?_, ?_⟩⟩
  · rw [hl, apply, hf]
    refine mem_fail_of_spared hi hf hg hn hv (Finset.mem_insert_self _ _) ?_
    rw [LoginLimiter.put_record_self]
    exact Attempt.afterFail_not_stale _ _
  · rw [hrec]
    simp only
    rw [if_pos (by omega)]

/-- `n` failures of `key` without a success between them, the last one at `L`: every failure but
the first finds the window of the record still open, and the pruning after it spares the record.
Calls of any kind on other keys and checks of `key` may come between and after them. -/
inductive FailStreak (key : String) : Nat → Nat → Clocked → Clocked → Prop
  | first {s t : Clocked} {c : Call} : c.op = .fail key → step s c = some t →
      FailStreak key 1 c.time s t
  | other {s t u : Clocked} {c : Call} {n L : Nat} : FailStreak key n L s t →
      c.op ≠ .fail key → c.op ≠ .success key → step t c = some u → FailStreak key n L s u
  | next {s t u : Clocked} {c : Call} {n L : Nat} : FailStreak key n L s t →
      c.op = .fail key → (t.limiter.get key).opensWindow c.time = false →
      EvictionSpared key t c → step t c = some u → FailStreak key (n + 1) c.time s u

/-- Along a streak the failures are counted, and from the fifth on the key is locked for 15 minutes
after the last one. -/
theorem FailStreak.tracked {key : String} {n L : Nat} {s t : Clocked} (hi : Inv s)
    (h : FailStreak key n L s t) : Inv t ∧ Tracked key n t.limiter ∧
      (5 ≤ n → t.now < L + 15 * minute → Held key (L + 15 * minute) t.limiter) := by
  induction h with
  | first hf hs =>
    refine ⟨inv_step hi hs, fun _ => ?_, fun h5 => absurd h5 (by omega)⟩
    rw [record_fail hf hs]
    exact (Attempt.afterFail_started _ (Nat.lt_of_lt_of_le hi.clock (step_some hs).1)).2
  | other _ hf hq hs ih =>
    obtain ⟨hit, ht, hheld⟩ := ih hi
    obtain ⟨hle, -, -, -, hnow⟩ := step_some hs
    exact ⟨inv_step hit hs, tracked_step hf hs ht, fun h5 hT =>
      held_step hit (fun hop => absurd hop hf) hq hs hT (hheld h5 (by omega))⟩
  | next _ hf hopen hg hs ih =>
    obtain ⟨hit, ht, -⟩ := ih hi
    obtain ⟨htr, hheld⟩ := tracked_fail hit hg hf hs hopen ht
    exact ⟨inv_step hit hs, htr, fun h5 _ => hheld h5⟩

/-! ## Both halves of the promise -/

theorem held_along {key : String} {T : Nat} {s t : Clocked} (hi : Inv s)
    (h0 : s.now < T → Held key T s.limiter)
    (hr : Reaches step (fun s c => LockSpared key s c ∧ c.op ≠ .success key) s t) :
    t.now < T → Held key T t.limiter := by
  refine hr.invariant_under (I := Inv) (P := fun t => t.now < T → Held key T t.limiter) hi h0
    (fun _ _ _ hi _ hs => inv_step hi hs) ?_
  intro t c u hit ht hg hs hT
  have := step_some hs
  exact held_step hit hg.1 hg.2 hs hT (ht (by omega))

/-- **A lock is kept and is reached.** Once `Allowed` has refused `key` for another `d`, it refuses
it at every call before that time is over, unless `Success key` is called, as long as no step
resets the lock; and after five failures of `key` in one window with no success between them,
`Allowed` refuses it for 15 minutes, unless pruning evicts the record. -/
theorem lock_kept_and_reached (key : String) {s : Clocked} (hr : Reaches step Free start s) :
    (∀ c t d, c.op = .allowed key → step s c = some t →
      (s.limiter.allowed key c.order c.time).1 = (false, d) →
      ∀ u, Reaches step (fun s c => LockSpared key s c ∧ c.op ≠ .success key) t u →
      ∀ order now, u.now ≤ now → now < c.time + d →
        (u.limiter.allowed key order now).1.1 = false) ∧
    (∀ n L t, 5 ≤ n → FailStreak key n L s t →
      ∀ order now, t.now ≤ now → now < L + 15 * minute →
        (t.limiter.allowed key order now).1.1 = false) := by
  have hi : Inv s := hr.invariant inv_start fun _ _ _ hi _ hs => inv_step hi hs
  constructor
  · intro c t d hop hs hd u hu order now hle hlt
    have hit := inv_step hi hs
    have hheld : Held key (c.time + d) t.limiter := by
      rw [(step_some hs).2.2.2.1, apply, hop]
      simp only
      rw [LoginLimiter.allowed_snd]
      exact held_of_refused hd
    have hiu : Inv u := hu.invariant hit fun _ _ _ hi _ hs => inv_step hi hs
    rw [(held_along hit (fun _ => hheld) hu (by omega)).refuses hiu.card hlt]
  · intro n L t hn hstreak order now hle hlt
    obtain ⟨hit, -, hheld⟩ := hstreak.tracked hi
    rw [(hheld hn (by omega)).refuses hit.card hlt]

/-- A call on one address, the only key of its limiter. -/
def addressCall (op : String → Op) (time : Nat) : Call := ⟨op "203.0.113.7", time, ["203.0.113.7"]⟩

/-- One failure, and four more 14 minutes later. -/
def fiveFailures : List Call :=
  addressCall .fail 1 :: List.replicate 4 (addressCall .fail (1 + 14 * minute))

/-- A map that is not full evicts nothing. -/
theorem evictionSpared_of_card {key : String} {s : Clocked} {c : Call}
    (h : s.limiter.keys.card < maxLoginLimiterKeys) : EvictionSpared key s c := by
  intro j _ l hlt
  have hle : l.keys.card ≤ s.limiter.keys.card + 1 :=
    (LoginLimiter.dropStale_card_le ..).trans (Finset.card_insert_le _ _)
  omega

/-- The five failures lock the address until minute 29; refused at minute 14, it is still
refused at minute 28 after a check at minute 20. -/
theorem address_stays_locked : ∃ s t u,
    run step start fiveFailures = some s ∧
    step s (addressCall .allowed (1 + 14 * minute)) = some t ∧
    step t (addressCall .allowed (1 + 20 * minute)) = some u ∧
    (u.limiter.allowed "203.0.113.7" [] (1 + 28 * minute)).1.1 = false ∧
    (s.limiter.allowed "203.0.113.7" [] (1 + 28 * minute)).1.1 = false := by
  refine ⟨_, _, _, rfl, rfl, rfl, ?_, ?_⟩
  · have hrun : run step start fiveFailures = some _ := rfl
    refine (lock_kept_and_reached "203.0.113.7" (reaches_of_run hrun)).1
      (addressCall .allowed (1 + 14 * minute)) _ (15 * minute) rfl rfl (by decide) _
      (.tail (a := addressCall .allowed (1 + 20 * minute)) .refl
        ⟨fun h => (nomatch h), fun h => nomatch h⟩ rfl)
      _ _ (by decide) (by decide)
  · have h1 : FailStreak "203.0.113.7" 1 1 start _ :=
      .first (c := addressCall .fail 1) rfl rfl
    have h2 := h1.next (c := addressCall .fail (1 + 14 * minute)) rfl (by decide)
      (evictionSpared_of_card (by decide)) (step_enabled (by decide) (by decide) (by decide))
    have h3 := h2.next (c := addressCall .fail (1 + 14 * minute)) rfl (by decide)
      (evictionSpared_of_card (by decide)) (step_enabled (by decide) (by decide) (by decide))
    have h4 := h3.next (c := addressCall .fail (1 + 14 * minute)) rfl (by decide)
      (evictionSpared_of_card (by decide)) (step_enabled (by decide) (by decide) (by decide))
    have h5 := h4.next (c := addressCall .fail (1 + 14 * minute)) rfl (by decide)
      (evictionSpared_of_card (by decide)) (step_enabled (by decide) (by decide) (by decide))
    exact (lock_kept_and_reached "203.0.113.7" .refl).2 5 _ _ (le_refl 5) h5 _ _
      (by decide) (by decide)

/-! ## The steps that break it -/

/-- Recording a failure of a locked key keeps it locked exactly when the window of its
record is still open. -/
theorem fail_keeps_lock_iff {key : String} {s t : Clocked} {c : Call} {order : List String}
    (hi : Inv s) (hf : c.op = .fail key) (hs : step s c = some t) (hm : key ∈ s.limiter.keys)
    (hlock : c.time < (s.limiter.record key).lockedUntil) :
    (t.limiter.allowed key order c.time).1.1 = false ↔
      (s.limiter.get key).opensWindow c.time = false := by
  have hnow := (step_some hs).2.2.2.2
  constructor
  · intro hrefused
    by_contra hopen
    rw [Bool.not_eq_false] at hopen
    have hrec : t.limiter.record key = ⟨1, c.time, 0⟩ := by
      rw [(step_some hs).2.2.2.1, apply, hf]
      simp only [LoginLimiter.fail, LoginLimiter.pruneLocked_record, LoginLimiter.put_record_self]
      exact Attempt.afterFail_opens hopen
    rw [LoginLimiter.allowed_fst, if_neg] at hrefused
    · cases hrefused
    · simp only [LoginLimiter.get, LoginLimiter.pruneLocked_record, hrec]
      split <;> exact Nat.not_lt_zero _
  · intro hopen
    have hheld := held_step (T := (s.limiter.record key).lockedUntil) hi (fun _ _ => hopen)
      (by rw [hf]; nofun) hs (by omega) ⟨hm, le_refl _⟩
    rw [hheld.refuses (inv_step hi hs).card hlock]

/-- When every tracked key is locked and the map is full, the record of a new key is evicted
by the failure that creates it: its failures never add up. -/
theorem newcomer_evicted {key : String} {s t : Clocked} {c : Call} (hf : c.op = .fail key)
    (hs : step s c = some t) (hnew : key ∉ s.limiter.keys)
    (hfull : s.limiter.keys.card = maxLoginLimiterKeys)
    (hlocked : ∀ i ∈ s.limiter.keys, c.time < (s.limiter.record i).lockedUntil) :
    key ∉ t.limiter.keys := by
  obtain ⟨hle, hn, hv, hl, ht⟩ := step_some hs
  rw [hf] at hv
  have hfail : (s.limiter.get key).afterFail c.time = ⟨1, c.time, 0⟩ := by
    rw [LoginLimiter.get_of_not_mem hnew]; exact Attempt.afterFail_opens rfl
  have hput : t.limiter = (s.limiter.put key ⟨1, c.time, 0⟩).pruneLocked c.order c.time := by
    rw [hl, apply, hf]; simp only [LoginLimiter.fail, hfail]
  have hother : ∀ i ∈ s.limiter.keys,
      (s.limiter.put key ⟨1, c.time, 0⟩).record i = s.limiter.record i := fun i hi =>
    LoginLimiter.put_record_ne _ fun he => hnew (he ▸ hi)
  -- nothing is stale, so the candidates are all old keys and the new one
  have hlive : ((s.limiter.put key ⟨1, c.time, 0⟩).dropStale c.time).keys =
      insert key s.limiter.keys := by
    refine Finset.filter_true_of_mem fun i hi => ?_
    rcases Finset.mem_insert.mp hi with rfl | hi
    · rw [LoginLimiter.put_record_self]; exact Attempt.not_stale_of_window (Nat.le_add_right _ _)
    · rw [hother i hi]; exact Attempt.not_stale_of_locked (hlocked i hi).le
  have hcard : (insert key s.limiter.keys).card = maxLoginLimiterKeys + 1 := by
    rw [Finset.card_insert_of_notMem hnew, hfull]
  obtain ⟨_, hset, hlen⟩ := LoginLimiter.sorted_perm
    (l := (s.limiter.put key ⟨1, c.time, 0⟩).dropStale c.time) hn fun i hi => hv i (hlive ▸ hi)
  have hsort := LoginLimiter.sorted_pairwise
    ((s.limiter.put key ⟨1, c.time, 0⟩).dropStale c.time) c.order
  rw [hput]
  unfold LoginLimiter.pruneLocked
  rw [hlive] at hset hlen
  simp only [hlive, hcard, Nat.not_succ_le_self, if_false]
  generalize ((s.limiter.put key ⟨1, c.time, 0⟩).dropStale c.time).sorted c.order = items
    at hset hlen hsort
  rw [show items.length - maxLoginLimiterKeys = 1 by omega]
  have hkey : key ∈ items := List.mem_toFinset.mp (hset ▸ Finset.mem_insert_self _ _)
  intro hk
  cases items with
  | nil => simp at hkey
  | cons first rest =>
    -- the head was seen no later than the new key, and every old key is seen in the future
    have hne : key ≠ first := by simpa using (Finset.mem_sdiff.mp hk).2
    have hfirst : first ∈ s.limiter.keys := by
      have : first ∈ insert key s.limiter.keys := hset ▸ List.mem_toFinset.mpr List.mem_cons_self
      exact (Finset.mem_insert.mp this).resolve_left hne.symm
    have hold := (List.pairwise_cons.mp hsort).1 key ((List.mem_cons.mp hkey).resolve_left hne)
    have hlock := hlocked first hfirst
    simp only [LoginLimiter.dropStale_record, hother first hfirst,
      LoginLimiter.put_record_self] at hold
    simp only [Attempt.seen] at hold
    split at hold <;> simp at hold <;> omega

/-! ## Runs that drop a lock and that miss one -/

/-- Locked for 15 minutes at minute 14; a failure recorded at minute 16, more than 15 minutes
after the window began, resets the record; at minute 17 the address is allowed again. And after one
failure at the start, two at minute 14 and three at minute 16 the address is not locked, though
the last five come within two minutes: only the last three are in the window. -/
theorem lock_dropped_by_late_failure :
    (∃ s t,
      run step start (fiveFailures ++ [addressCall .allowed (1 + 14 * minute)]) = some s ∧
      (s.limiter.allowed "203.0.113.7" ["203.0.113.7"] (1 + 14 * minute)).1 =
        (false, 15 * minute) ∧
      run step s [addressCall .fail (1 + 16 * minute)] = some t ∧
      1 + 17 * minute < 1 + 14 * minute + 15 * minute ∧
      (t.limiter.allowed "203.0.113.7" ["203.0.113.7"] (1 + 17 * minute)).1.1 = true) ∧
    ∃ s, run step start (addressCall .fail 1 ::
        (List.replicate 2 (addressCall .fail (1 + 14 * minute)) ++
          List.replicate 3 (addressCall .fail (1 + 16 * minute)))) = some s ∧
      (s.limiter.allowed "203.0.113.7" ["203.0.113.7"] (1 + 16 * minute)).1.1 = true :=
  ⟨⟨_, _, rfl, by decide, rfl, by decide, by decide⟩, _, rfl, by decide⟩

end LukePanel.Auth.Ratelimit
