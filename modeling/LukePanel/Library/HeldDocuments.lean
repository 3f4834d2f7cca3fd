import LukePanel.Library.LockedStore

/-! # What every copy of a document has

The document in memory and the copies that requests have taken of it or made of it. What no
request takes away from a document all of them have, and every document that is saved. -/
namespace LukePanel.Library.LockedStore

variable {σ ρ κ : Type*} {w : Writers σ ρ κ} {s t : State σ ρ κ} {P : σ → Prop} {K : κ → Prop}
  {R : ρ → Prop}

def Phase.All (P : σ → Prop) (K : κ → Prop) : Phase σ ρ κ → Prop
  | .idle => True
  | .holding _ updated | .written _ updated => P updated
  | .copied k copy => K k ∧ P copy
  | .stored _ updated => P updated

structure State.All (P : σ → Prop) (K : κ → Prop) (s : State σ ρ κ) : Prop where
  memory : P s.memory
  thread : ∀ i, (s.thread i).All P K

theorem State.All.mono {P' : σ → Prop} (hs : s.All P K) (h : ∀ doc, P doc → P' doc) : s.All P' K := by
  refine ⟨h _ hs.memory, fun i => ?_⟩
  have hphase := hs.thread i
  cases hi : s.thread i <;> rw [hi] at hphase
  case idle => trivial
  case copied => exact ⟨hphase.1, h _ hphase.2⟩
  all_goals exact h _ hphase

theorem all_start {init : σ} (h : P init) : (start init : State σ ρ κ).All P K := ⟨h, fun _ => trivial⟩

/-- An action that saves a document. -/
def Act.saves : Act ρ κ → Bool
  | .write _ ok => ok
  | .store _ => true
  | _ => false

/-- A request that takes the lock has the property. -/
def Act.Entering (R : ρ → Prop) : Act ρ κ → Prop
  | .enter _ r => R r
  | _ => True

/-- The copies of a thread that moves, when memory is as it was. -/
theorem State.All.move {i : Nat} {p : Phase σ ρ κ} {s' : State σ ρ κ} (hs : s.All P K)
    (hmemory : P s'.memory) (hthread : s'.thread = s.thread) (hp : p.All P K) :
    (s'.move i p).All P K := by
  refine ⟨hmemory, fun j => ?_⟩
  by_cases hj : j = i
  · rw [hj, State.move_self]
    exact hp
  · rw [State.move_ne s' p hj, hthread]
    exact hs.thread j

/-- **What requests leave in a document stays in all of them.** The file is the one before unless
the action saves, and then it has it too. -/
theorem all_step (hlocked : ∀ r doc updated, R r → P doc → w.locked r doc = some updated → P updated)
    (hunlocked : ∀ k doc, K k → P doc → P (w.unlocked k doc)) {a : Act ρ κ} (henter : a.Entering R)
    (hcopy : ∀ i k, a = .copy i k → K k) (h : step w s a = some t) (hs : s.All P K) :
    t.All P K ∧ (a.saves = true → P t.file) ∧ (a.saves = false → t.file = s.file) := by
  cases did_of_step h with
  | refused _ _ => exact ⟨hs, nofun, fun _ => rfl⟩
  | entered _ _ hupdated =>
    exact ⟨hs.move hs.memory rfl (hlocked _ _ _ henter hs.memory hupdated), nofun, fun _ => rfl⟩
  | @wrote i _ _ hphase =>
    have hupdated := hs.thread i
    rw [hphase] at hupdated
    exact ⟨hs.move hs.memory rfl hupdated, fun _ => hupdated, nofun⟩
  | failed _ => exact ⟨hs.move hs.memory rfl trivial, nofun, fun _ => rfl⟩
  | @published i _ _ hphase =>
    have hupdated := hs.thread i
    rw [hphase] at hupdated
    exact ⟨hs.move hupdated rfl trivial, nofun, fun _ => rfl⟩
  | copied _ _ => exact ⟨hs.move hs.memory rfl ⟨hcopy _ _ rfl, hs.memory⟩, nofun, fun _ => rfl⟩
  | abandoned _ => exact ⟨hs.move hs.memory rfl trivial, nofun, fun _ => rfl⟩
  | @stored i _ _ hphase =>
    have hcopied := hs.thread i
    rw [hphase] at hcopied
    have hmade := hunlocked _ _ hcopied.1 hcopied.2
    exact ⟨hs.move hs.memory rfl hmade, fun _ => hmade, nofun⟩
  | @installed i _ _ _ hphase =>
    have hupdated := hs.thread i
    rw [hphase] at hupdated
    exact ⟨hs.move hupdated rfl trivial, nofun, fun _ => rfl⟩

/-- No step looks at the file: what it does is the same whatever the file is. -/
theorem step_file (w : Writers σ ρ κ) (s : State σ ρ κ) (doc : σ) (a : Act ρ κ) :
    step w { s with file := doc } a =
      (step w s a).map fun t => if a.saves = true then t else { t with file := doc } := by
  cases a with
  | write i ok =>
    cases ok
    all_goals
      simp only [step]
      split <;> rfl
  | _ =>
    simp only [step, Act.saves, if_true, Bool.false_eq_true, if_false]
    repeat' split
    all_goals rfl

end LukePanel.Library.LockedStore
