import Mathlib.Data.Finset.Card
import Mathlib.Data.Finset.Dedup
import LukePanel.Library.Machine

/-! # The login limiter

`LoginLimiter` of `internal/auth/ratelimit.go`: one record per key, a failure window of 15
minutes, a lock of 15 minutes after the fifth failure, and a pruning that drops stale
records and, past 4096 keys, the ones seen longest ago. Times are nanoseconds; `0` is Go's
zero time, so a running clock is positive. -/
namespace LukePanel.Auth.Ratelimit
open LukePanel.Library.Machine

def minute : Nat := 60 * 1000000000

def maxLoginLimiterKeys : Nat := 4096

structure Attempt where
  count : Nat
  windowStart : Nat
  lockedUntil : Nat
  deriving DecidableEq, Repr

/-- The map `attempts`: its keys, and the record of each key. Reading an absent key gives
Go's zero record (`get`). -/
structure LoginLimiter where
  keys : Finset String
  record : String → Attempt

def newLoginLimiter : LoginLimiter := ⟨∅, fun _ => ⟨0, 0, 0⟩⟩

namespace LoginLimiter

def get (l : LoginLimiter) (key : String) : Attempt :=
  if key ∈ l.keys then l.record key else ⟨0, 0, 0⟩

def put (l : LoginLimiter) (key : String) (a : Attempt) : LoginLimiter :=
  ⟨insert key l.keys, Function.update l.record key a⟩

end LoginLimiter

/-- The first loop of `pruneLocked` deletes these records. -/
def Attempt.stale (item : Attempt) (now : Nat) : Bool :=
  item.lockedUntil < now && item.windowStart != 0 && 30 * minute < now - item.windowStart

def Attempt.seen (item : Attempt) : Nat :=
  if item.windowStart < item.lockedUntil then item.lockedUntil else item.windowStart

namespace LoginLimiter

def dropStale (l : LoginLimiter) (now : Nat) : LoginLimiter :=
  { l with keys := l.keys.filter fun key => (l.record key).stale now = false }

/-- The candidates in the order the sort leaves them. `order` is the order in which `range`
visits the map; every order of records with the same `seen` comes from some visit. -/
def sorted (l : LoginLimiter) (order : List String) : List String :=
  (order.filter (· ∈ l.keys)).mergeSort fun i j =>
    decide ((l.record i).seen ≤ (l.record j).seen)

def pruneLocked (l : LoginLimiter) (order : List String) (now : Nat) : LoginLimiter :=
  let live := l.dropStale now
  if live.keys.card ≤ maxLoginLimiterKeys then live
  else
    let items := live.sorted order
    { live with
      keys := live.keys \ (items.take (items.length - maxLoginLimiterKeys)).toFinset }

/-- The answer and its retry delay, and the limiter after the call. -/
def allowed (l : LoginLimiter) (key : String) (order : List String) (now : Nat) :
    (Bool × Nat) × LoginLimiter :=
  let l := l.pruneLocked order now
  let a := l.get key
  if now < a.lockedUntil then ((false, a.lockedUntil - now), l) else ((true, 0), l)

end LoginLimiter

/-- `Fail` starts a new window when there is none or the old one is over. -/
def Attempt.opensWindow (a : Attempt) (now : Nat) : Bool :=
  a.windowStart == 0 || 15 * minute < now - a.windowStart

def Attempt.afterFail (a : Attempt) (now : Nat) : Attempt :=
  let a := if a.opensWindow now then ⟨0, now, 0⟩ else a
  let a := { a with count := a.count + 1 }
  if 5 ≤ a.count then { a with lockedUntil := now + 15 * minute } else a

namespace LoginLimiter

def fail (l : LoginLimiter) (key : String) (order : List String) (now : Nat) : LoginLimiter :=
  (l.put key ((l.get key).afterFail now)).pruneLocked order now

def success (l : LoginLimiter) (key : String) : LoginLimiter :=
  { l with keys := l.keys.erase key }

end LoginLimiter

/-! ## Timed calls -/

inductive Op where
  | allowed (key : String)
  | fail (key : String)
  | success (key : String)
  deriving DecidableEq, Repr

def Op.key : Op → String
  | .allowed key | .fail key | .success key => key

structure Call where
  op : Op
  time : Nat
  order : List String

structure Clocked where
  limiter : LoginLimiter
  now : Nat

def start : Clocked := ⟨newLoginLimiter, 1⟩

def apply (l : LoginLimiter) (c : Call) : LoginLimiter :=
  match c.op with
  | .allowed key => (l.allowed key c.order c.time).2
  | .fail key => l.fail key c.order c.time
  | .success key => l.success key

/-- Calls come at nondecreasing times, and a visit of the map meets every key once. -/
def step (s : Clocked) (c : Call) : Option Clocked :=
  if s.now ≤ c.time ∧ c.order.Nodup ∧ ∀ key ∈ insert c.op.key s.limiter.keys, key ∈ c.order then
    some ⟨apply s.limiter c, c.time⟩
  else none

theorem step_some {s t : Clocked} {c : Call} (h : step s c = some t) :
    s.now ≤ c.time ∧ c.order.Nodup ∧ (∀ key ∈ insert c.op.key s.limiter.keys, key ∈ c.order) ∧
      t.limiter = apply s.limiter c ∧ t.now = c.time := by
  unfold step at h
  split at h
  · rename_i hc
    cases h
    exact ⟨hc.1, hc.2.1, hc.2.2, rfl, rfl⟩
  · cases h

theorem step_enabled {s : Clocked} {c : Call} (hle : s.now ≤ c.time) (hn : c.order.Nodup)
    (hv : ∀ key ∈ insert c.op.key s.limiter.keys, key ∈ c.order) :
    step s c = some ⟨apply s.limiter c, c.time⟩ :=
  if_pos ⟨hle, hn, hv⟩

/-! ## What pruning and failing do -/

namespace LoginLimiter

variable {l : LoginLimiter} {key : String} {order : List String} {now : Nat}

theorem get_of_mem (h : key ∈ l.keys) : l.get key = l.record key := if_pos h

theorem get_of_not_mem (h : key ∉ l.keys) : l.get key = ⟨0, 0, 0⟩ := if_neg h

@[simp] theorem put_keys (a : Attempt) : (l.put key a).keys = insert key l.keys := rfl

@[simp] theorem put_record_self (a : Attempt) : (l.put key a).record key = a :=
  Function.update_self ..

theorem put_record_ne {other : String} (a : Attempt) (h : other ≠ key) :
    (l.put key a).record other = l.record other := Function.update_of_ne h ..

@[simp] theorem dropStale_record : (l.dropStale now).record = l.record := rfl

@[simp] theorem mem_dropStale :
    key ∈ (l.dropStale now).keys ↔ key ∈ l.keys ∧ (l.record key).stale now = false := by
  simp [dropStale]

theorem dropStale_card_le (l : LoginLimiter) (now : Nat) :
    (l.dropStale now).keys.card ≤ l.keys.card :=
  Finset.card_le_card (Finset.filter_subset _ _)

@[simp] theorem pruneLocked_record : (l.pruneLocked order now).record = l.record := by
  unfold pruneLocked
  simp only
  split <;> rfl

theorem pruneLocked_subset : (l.pruneLocked order now).keys ⊆ (l.dropStale now).keys := by
  unfold pruneLocked
  simp only
  split
  · exact fun _ h => h
  · exact Finset.sdiff_subset

theorem mem_of_mem_prune (h : key ∈ (l.pruneLocked order now).keys) : key ∈ l.keys :=
  (mem_dropStale.mp (pruneLocked_subset h)).1

/-- The candidates are the tracked keys, each once. -/
theorem sorted_perm (hn : order.Nodup) (hv : ∀ key ∈ l.keys, key ∈ order) :
    (l.sorted order).Nodup ∧ (l.sorted order).toFinset = l.keys ∧
      (l.sorted order).length = l.keys.card := by
  have hp : (l.sorted order).Perm (order.filter (· ∈ l.keys)) := List.mergeSort_perm ..
  have hd : (l.sorted order).Nodup := hp.nodup_iff.mpr (hn.filter _)
  have hm : (l.sorted order).toFinset = l.keys := by
    ext key
    rw [List.mem_toFinset, hp.mem_iff, List.mem_filter]
    simp only [decide_eq_true_eq]
    exact ⟨fun h => h.2, fun h => ⟨hv key h, h⟩⟩
  refine ⟨hd, hm, ?_⟩
  rw [← hm, List.toFinset_card_of_nodup hd]

/-- The candidates stand in the order in which they were last seen. -/
theorem sorted_pairwise (l : LoginLimiter) (order : List String) :
    (l.sorted order).Pairwise fun i j => (l.record i).seen ≤ (l.record j).seen := by
  let le := fun i j => decide ((l.record i).seen ≤ (l.record j).seen)
  have htrans : ∀ a b c, le a b = true → le b c = true → le a c = true := fun a b c hab hbc => by
    simp only [le, decide_eq_true_eq] at *; omega
  have htotal : ∀ a b, (le a b || le b a) = true := fun a b => by
    simp only [le, Bool.or_eq_true, decide_eq_true_eq]; omega
  exact (List.pairwise_mergeSort htrans htotal (order.filter (· ∈ l.keys))).imp fun hij => by
    simpa [le] using hij

/-- Pruning bounds the number of records. -/
theorem pruneLocked_card (hn : order.Nodup) (hv : ∀ key ∈ l.keys, key ∈ order) :
    (l.pruneLocked order now).keys.card ≤ maxLoginLimiterKeys := by
  unfold pruneLocked
  simp only
  split
  · assumption
  · obtain ⟨hd, hm, hl⟩ := sorted_perm (l := l.dropStale now) hn
      fun key hk => hv key (mem_dropStale.mp hk).1
    generalize (l.dropStale now).sorted order = items at hd hm hl ⊢
    have hsub : (items.take (items.length - maxLoginLimiterKeys)).toFinset ⊆
        (l.dropStale now).keys := by
      intro key hk
      rw [← hm, List.mem_toFinset]
      exact List.mem_of_mem_take (List.mem_toFinset.mp hk)
    simp only
    rw [Finset.card_sdiff_of_subset hsub,
      List.toFinset_card_of_nodup (hd.sublist (List.take_sublist _ _)), List.length_take, hl]
    omega

/-- A live record survives a pruning that evicts nothing. -/
theorem mem_prune_of_card (hm : key ∈ l.keys) (hs : (l.record key).stale now = false)
    (hc : (l.dropStale now).keys.card ≤ maxLoginLimiterKeys) :
    key ∈ (l.pruneLocked order now).keys := by
  unfold pruneLocked
  simp only [hc, if_true]
  exact mem_dropStale.mpr ⟨hm, hs⟩

/-- A live record survives a pruning that evicts one record when an older one is there. -/
theorem mem_prune_of_older (hn : order.Nodup) (hv : ∀ key ∈ l.keys, key ∈ order)
    (hm : key ∈ l.keys) (hs : (l.record key).stale now = false)
    (hc : (l.dropStale now).keys.card ≤ maxLoginLimiterKeys + 1)
    (hold : maxLoginLimiterKeys < (l.dropStale now).keys.card →
      ∃ i ∈ (l.dropStale now).keys, (l.record i).seen < (l.record key).seen) :
    key ∈ (l.pruneLocked order now).keys := by
  by_cases hle : (l.dropStale now).keys.card ≤ maxLoginLimiterKeys
  · exact mem_prune_of_card hm hs hle
  · obtain ⟨i, hi, hlt⟩ := hold (by omega)
    obtain ⟨hd, hset, hl⟩ := sorted_perm (l := l.dropStale now) hn
      fun key hk => hv key (mem_dropStale.mp hk).1
    have hsort := sorted_pairwise (l.dropStale now) order
    unfold pruneLocked
    simp only [hle, if_false]
    generalize (l.dropStale now).sorted order = items at hd hset hl hsort ⊢
    refine Finset.mem_sdiff.mpr ⟨mem_dropStale.mpr ⟨hm, hs⟩, ?_⟩
    rw [show items.length - maxLoginLimiterKeys = 1 by omega, List.mem_toFinset]
    rw [← hset, List.mem_toFinset] at hi
    -- only the head is evicted, and every other candidate was seen no earlier
    cases items with
    | nil => simp at hi
    | cons first rest =>
      intro hk
      simp only [List.take_succ_cons, List.take_zero, List.mem_singleton] at hk
      subst hk
      rcases List.mem_cons.mp hi with rfl | hi
      · exact absurd hlt (lt_irrefl _)
      · have := (List.pairwise_cons.mp hsort).1 i hi
        simp only [dropStale_record] at this
        omega

end LoginLimiter

/-- A failure that opens a window leaves one failure and no lock. -/
theorem Attempt.afterFail_opens {a : Attempt} {now : Nat} (h : a.opensWindow now = true) :
    a.afterFail now = ⟨1, now, 0⟩ := by
  simp [Attempt.afterFail, h]

/-- A failure inside the window counts up, and locks from the fifth on. -/
theorem Attempt.afterFail_inside {a : Attempt} {now : Nat} (h : a.opensWindow now = false) :
    a.afterFail now = ⟨a.count + 1, a.windowStart,
      if 5 ≤ a.count + 1 then now + 15 * minute else a.lockedUntil⟩ := by
  simp only [Attempt.afterFail, h, Bool.false_eq_true, if_false]
  split <;> simp [*]

theorem Attempt.not_stale_of_locked {a : Attempt} {now : Nat} (h : now ≤ a.lockedUntil) :
    a.stale now = false := by
  simp only [Attempt.stale, Bool.and_eq_false_iff, decide_eq_false_iff_not]
  exact Or.inl (Or.inl (by omega))

theorem Attempt.not_stale_of_window {a : Attempt} {now : Nat}
    (h : now ≤ a.windowStart + 30 * minute) : a.stale now = false := by
  simp only [Attempt.stale, Bool.and_eq_false_iff, decide_eq_false_iff_not]
  exact Or.inr (by omega)

theorem Attempt.opensWindow_false {a : Attempt} {now : Nat} (h0 : 0 < a.windowStart)
    (h : now ≤ a.windowStart + 15 * minute) : a.opensWindow now = false := by
  simp only [Attempt.opensWindow, Bool.or_eq_false_iff, decide_eq_false_iff_not,
    beq_eq_false_iff_ne]
  omega

theorem Attempt.opensWindow_eq_false {a : Attempt} {now : Nat} (h : a.opensWindow now = false) :
    a.windowStart ≠ 0 ∧ now ≤ a.windowStart + 15 * minute := by
  simp only [Attempt.opensWindow, Bool.or_eq_false_iff, decide_eq_false_iff_not,
    beq_eq_false_iff_ne] at h
  omega

end LukePanel.Auth.Ratelimit
