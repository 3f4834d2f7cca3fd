import Mathlib.Logic.Relation
import Mathlib.Order.WellFounded

/-! # Histories of commits

Commits named by their content: a name determines its parents, and no commit is among its own
ancestors. A fast-forward moves a branch from a commit to one it is an ancestor of. -/
namespace LukePanel.Library.CommitHistory

structure History (κ : Type*) where
  parents : κ → List κ
  acyclic : WellFounded fun p c => p ∈ parents c

variable {κ : Type*} {hist : History κ} {a b c h x : κ}

def History.Parent (hist : History κ) (p c : κ) : Prop := p ∈ hist.parents c

/-- `a` is `c` or is reached from it through parents. -/
def History.Ancestor (hist : History κ) (a c : κ) : Prop := Relation.ReflTransGen hist.Parent a c

theorem ancestor_refl (c : κ) : hist.Ancestor c c := .refl

theorem ancestor_trans (hab : hist.Ancestor a b) (hbc : hist.Ancestor b c) : hist.Ancestor a c :=
  Relation.ReflTransGen.trans hab hbc

theorem ancestor_antisymm (hab : hist.Ancestor a b) (hba : hist.Ancestor b a) : a = b := by
  rcases Relation.reflTransGen_iff_eq_or_transGen.mp hab with heq | hlt
  · exact heq.symm
  · have hloop : Relation.TransGen hist.Parent a a := hlt.trans_left hba
    exact absurd hloop (hist.acyclic.transGen.irrefl.irrefl a)

/-- The ancestors of a commit with one parent are itself and those of the parent. -/
theorem ancestor_of_only_parent (hp : hist.parents c = [h]) (hx : hist.Ancestor x c) :
    x = c ∨ hist.Ancestor x h := by
  rcases Relation.ReflTransGen.cases_tail hx with heq | ⟨y, hxy, hyc⟩
  · exact Or.inl heq.symm
  · have hy : y = h := by
      rw [History.Parent, hp] at hyc
      exact List.mem_singleton.mp hyc
    exact Or.inr (hy ▸ hxy)

/-- Nothing lies strictly between a commit and its only parent. -/
theorem eq_or_eq_of_only_parent (hp : hist.parents c = [h]) (hhx : hist.Ancestor h x)
    (hxc : hist.Ancestor x c) : x = h ∨ x = c := by
  rcases ancestor_of_only_parent hp hxc with heq | hxh
  · exact Or.inr heq
  · exact Or.inl (ancestor_antisymm hxh hhx)

/-! ## Chains of moves -/

/-- The branch got from `a` to `b` by moves of the list. -/
def Moved (moves : List (κ × κ)) : κ → κ → Prop :=
  Relation.ReflTransGen fun x y => (x, y) ∈ moves

theorem Moved.mono {moves moves' : List (κ × κ)} (hsub : ∀ m ∈ moves, m ∈ moves')
    (h : Moved moves a b) : Moved moves' a b :=
  Relation.ReflTransGen.mono (fun _ _ hm => hsub _ hm) a b h

theorem Moved.ancestor {moves : List (κ × κ)} (hff : ∀ m ∈ moves, hist.Ancestor m.1 m.2)
    (h : Moved moves a b) : hist.Ancestor a b := by
  induction h with
  | refl => exact ancestor_refl a
  | tail _ hm ih => exact ancestor_trans ih (hff _ hm)

/-- A branch that got by fast-forwards from a commit to a child of it alone made the move from
the one to the other. -/
theorem Moved.mem_of_only_parent {moves : List (κ × κ)}
    (hff : ∀ m ∈ moves, hist.Ancestor m.1 m.2) (hp : hist.parents c = [h]) (hm : Moved moves h c) :
    h = c ∨ (h, c) ∈ moves := by
  suffices hgen : ∀ y, Moved moves h y → y = c → h = c ∨ (h, c) ∈ moves from hgen c hm rfl
  intro y hy
  induction hy with
  | refl => exact fun heq => Or.inl heq
  | tail hhx hxy ih =>
    rintro rfl
    rcases eq_or_eq_of_only_parent hp (Moved.ancestor hff hhx) (hff _ hxy) with rfl | heq
    · exact Or.inr hxy
    · exact ih heq

end LukePanel.Library.CommitHistory
