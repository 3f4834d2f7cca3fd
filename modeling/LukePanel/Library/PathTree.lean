import Mathlib.Data.List.Basic
import Mathlib.Data.List.Pairwise

/-! # Trees of paths

A directory tree given by its leaves, none of which lies above or below another. Putting a leaf
at a path takes away whatever lies above or below it, as replacing an entry of a directory does.
Putting files into a tree is laying them over it exactly when none of them lies strictly above
or below a leaf. -/
namespace LukePanel.Library.PathTree

variable {α β : Type*}

/-- One of the paths is the other or lies above it. -/
def Meets (p q : List α) : Prop := p <+: q ∨ q <+: p

instance [DecidableEq α] (p q : List α) : Decidable (Meets p q) :=
  inferInstanceAs (Decidable (_ ∨ _))

theorem Meets.refl (p : List α) : Meets p p := Or.inl (List.prefix_refl p)

theorem Meets.symm {p q : List α} (h : Meets p q) : Meets q p := Or.symm h

/-- Paths that meet have what lies above them meet. -/
theorem Meets.above {a b p q : List α} (h : Meets p q) (ha : a <+: p) (hb : b <+: q) :
    Meets a b := by
  rcases h with h | h
  · exact List.prefix_or_prefix_of_prefix (ha.trans h) hb
  · exact (List.prefix_or_prefix_of_prefix (hb.trans h) ha).symm

/-- No path of the list lies above, below or at another. -/
def Apart (es : List (List α × β)) : Prop := es.Pairwise fun a b => ¬ Meets a.1 b.1

theorem Apart.perm {es fs : List (List α × β)} (h : Apart es) (hp : es.Perm fs) : Apart fs :=
  (hp.pairwise_iff fun hab hba => hab hba.symm).mp h

theorem Apart.filter {es : List (List α × β)} (h : Apart es) (f : List α × β → Bool) :
    Apart (es.filter f) := h.sublist List.filter_sublist

/-- Entries that meet are the same entry. -/
theorem Apart.eq {es : List (List α × β)} (h : Apart es) {a b : List α × β} (ha : a ∈ es)
    (hb : b ∈ es) (hm : Meets a.1 b.1) : a = b := by
  by_contra hne
  have hsymm : Std.Symm fun a b : List α × β => ¬ Meets a.1 b.1 := ⟨fun _ _ hab hba => hab hba.symm⟩
  exact h.forall ha hb hne hm

structure Tree (α β : Type*) where
  leaves : List (List α × β)
  apart : Apart leaves
  deriving DecidableEq

namespace Tree

variable [DecidableEq α]

def get (t : Tree α β) (p : List α) : Option β := t.leaves.lookup p

/-- The tree of the leaves that pass a test. -/
def filter (t : Tree α β) (test : β → Bool) : Tree α β where
  leaves := t.leaves.filter fun leaf => test leaf.2
  apart := t.apart.filter _

def put (t : Tree α β) (e : List α × β) : Tree α β where
  leaves := e :: t.leaves.filter fun leaf => ¬ Meets leaf.1 e.1
  apart := by
    refine List.pairwise_cons.mpr ⟨fun leaf hleaf hm => ?_, t.apart.filter _⟩
    have hfree := of_decide_eq_true (List.mem_filter.mp hleaf).2
    exact hfree hm.symm

def putAll (t : Tree α β) (es : List (List α × β)) : Tree α β := es.foldl put t

theorem get_eq_some {t : Tree α β} {p : List α} {v : β} : t.get p = some v ↔ (p, v) ∈ t.leaves := by
  constructor
  · intro h
    obtain ⟨l₁, l₂, hl, _⟩ := List.lookup_eq_some_iff.mp h
    rw [hl]
    exact List.mem_append_right _ List.mem_cons_self
  · intro h
    cases hg : t.get p with
    | none =>
      have := List.lookup_eq_none_iff.mp hg (p, v) h
      simp at this
    | some w =>
      obtain ⟨l₁, l₂, hl, _⟩ := List.lookup_eq_some_iff.mp hg
      have hw : (p, w) ∈ t.leaves := by
        rw [hl]
        exact List.mem_append_right _ List.mem_cons_self
      have := t.apart.eq hw h (Meets.refl p)
      rw [(Prod.mk.inj this).2]

theorem get_filter {t : Tree α β} {test : β → Bool} {p : List α} {v : β} :
    (t.filter test).get p = some v ↔ t.get p = some v ∧ test v = true := by
  rw [get_eq_some, get_eq_some]
  exact List.mem_filter

theorem mem_put {t : Tree α β} {e leaf : List α × β} :
    leaf ∈ (t.put e).leaves ↔ leaf = e ∨ leaf ∈ t.leaves ∧ ¬ Meets leaf.1 e.1 := by
  simp [put]

/-- What is not put was there. -/
theorem of_mem_putAll {es : List (List α × β)} {t : Tree α β} {leaf : List α × β}
    (h : leaf ∈ (t.putAll es).leaves) : leaf ∈ es ∨ leaf ∈ t.leaves := by
  induction es generalizing t with
  | nil => exact .inr h
  | cons e rest ih =>
    have hput : t.putAll (e :: rest) = (t.put e).putAll rest := rfl
    rw [hput] at h
    rcases ih h with hrest | hleaf
    · exact .inl (List.mem_cons_of_mem _ hrest)
    · rcases mem_put.mp hleaf with rfl | ⟨hleaf, -⟩
      · exact .inl List.mem_cons_self
      · exact .inr hleaf

/-- Entries apart from each other are all put; a leaf of the tree stays if it meets none. -/
theorem mem_putAll {es : List (List α × β)} (hes : Apart es) {t : Tree α β} {leaf : List α × β} :
    leaf ∈ (t.putAll es).leaves ↔
      leaf ∈ es ∨ leaf ∈ t.leaves ∧ ∀ e ∈ es, ¬ Meets leaf.1 e.1 := by
  induction es generalizing t with
  | nil => simp [putAll]
  | cons e rest ih =>
    obtain ⟨hhead, hrest⟩ := List.pairwise_cons.mp hes
    have hput : (t.putAll (e :: rest)) = (t.put e).putAll rest := rfl
    rw [hput, ih hrest, mem_put]
    constructor
    · rintro (hmem | ⟨rfl | ⟨hmem, hne⟩, hfree⟩)
      · exact Or.inl (List.mem_cons_of_mem _ hmem)
      · exact Or.inl List.mem_cons_self
      · refine Or.inr ⟨hmem, fun e' he' => ?_⟩
        rcases List.mem_cons.mp he' with rfl | he'
        · exact hne
        · exact hfree e' he'
    · rintro (hmem | ⟨hmem, hfree⟩)
      · rcases List.mem_cons.mp hmem with rfl | hmem
        · exact Or.inr ⟨Or.inl rfl, hhead⟩
        · exact Or.inl hmem
      · exact Or.inr ⟨Or.inr ⟨hmem, hfree e List.mem_cons_self⟩,
          fun e' he' => hfree e' (List.mem_cons_of_mem _ he')⟩

/-- `t` is `base` with the files laid over it: each file is at its path, and every other path is
what it was. -/
def Overlays (t base : Tree α β) (files : List (List α × β)) : Prop :=
  (∀ f ∈ files, t.get f.1 = some f.2) ∧
  ∀ p, (∀ f ∈ files, f.1 ≠ p) → t.get p = base.get p

/-- Putting the files that are not yet there is laying them all over the tree, if and only if no
file lies strictly above or below a leaf. -/
theorem overlays_putAll_iff [DecidableEq β] {base : Tree α β} {files es : List (List α × β)}
    (hfiles : Apart files) (hes : es.Perm (files.filter fun f => base.get f.1 ≠ some f.2)) :
    Overlays (base.putAll es) base files ↔
      ∀ f ∈ files, ∀ leaf ∈ base.leaves, Meets f.1 leaf.1 → f.1 = leaf.1 := by
  have hapart : Apart es := (hfiles.filter _).perm hes.symm
  have hmem : ∀ e, e ∈ es ↔ e ∈ files ∧ base.get e.1 ≠ some e.2 := by
    intro e
    rw [hes.mem_iff, List.mem_filter, decide_eq_true_iff]
  constructor
  · rintro ⟨_, hrest⟩ f hf leaf hleaf hm
    by_contra hne
    -- the leaf is no file and stays below or above `f`, which is put
    have hother : ∀ g ∈ files, g.1 ≠ leaf.1 := by
      intro g hg hsame
      have := hfiles.eq hf hg (hsame ▸ hm)
      exact hne (this ▸ hsame)
    have hput : f ∈ es := by
      refine (hmem f).mpr ⟨hf, fun hget => ?_⟩
      have := base.apart.eq (get_eq_some.mp hget) hleaf hm
      exact hne (congrArg Prod.fst this)
    have hkept : leaf ∈ (base.putAll es).leaves := by
      have hbase : base.get leaf.1 = some leaf.2 := get_eq_some.mpr hleaf
      exact get_eq_some.mp ((hrest leaf.1 hother).trans hbase)
    rcases (mem_putAll hapart).mp hkept with hin | ⟨_, hfree⟩
    · exact hother leaf ((hmem leaf).mp hin).1 rfl
    · exact hfree f hput hm.symm
  · intro hfree
    constructor
    · intro f hf
      refine get_eq_some.mpr ((mem_putAll hapart).mpr ?_)
      by_cases hget : base.get f.1 = some f.2
      · refine Or.inr ⟨get_eq_some.mp hget, fun e he hm => ?_⟩
        obtain ⟨hefile, hchanged⟩ := (hmem e).mp he
        have hfe := hfiles.eq hf hefile hm
        exact hchanged (hfe ▸ hget)
      · exact Or.inl ((hmem f).mpr ⟨hf, hget⟩)
    · intro p hp
      refine Option.ext fun v => ?_
      rw [get_eq_some, get_eq_some, mem_putAll hapart]
      constructor
      · rintro (hin | ⟨hold, _⟩)
        · exact absurd rfl (hp _ ((hmem _).mp hin).1)
        · exact hold
      · intro hold
        refine Or.inr ⟨hold, fun e he hm => ?_⟩
        have hefile := ((hmem e).mp he).1
        exact hp e hefile (hfree e hefile _ hold hm.symm)

end Tree

end LukePanel.Library.PathTree
