import LukePanel.Library.PathTree
import Mathlib.Data.List.Nodup

/-! # File trees

A tree of named entries whose leaves carry a value. Its listing names every node once, a
directory before what is in it; looking a path up finds what the listing says of it. -/
namespace LukePanel.Library.FileTree
open LukePanel.Library.PathTree

inductive Node (α β : Type) where
  | leaf (value : β)
  | dir (entries : List (α × Node α β))

variable {α β : Type}

/-! ## The listing of a tree -/

mutual

/-- Every path of the tree, with the value of a leaf. -/
def Node.list : Node α β → List (List α × Option β)
  | .leaf value => [([], some value)]
  | .dir entries => ([], none) :: listEntries entries

def listEntries : List (α × Node α β) → List (List α × Option β)
  | [] => []
  | (name, node) :: rest =>
    (node.list.map fun e => (name :: e.1, e.2)) ++ listEntries rest

end

mutual

/-- No directory has two entries of one name. -/
def Node.Distinct : Node α β → Prop
  | .leaf _ => True
  | .dir entries => (entries.map Prod.fst).Nodup ∧ DistinctEntries entries

def DistinctEntries : List (α × Node α β) → Prop
  | [] => True
  | (_, node) :: rest => node.Distinct ∧ DistinctEntries rest

end

theorem mem_listEntries_cons {name : α} {node : Node α β} {rest : List (α × Node α β)}
    {path : List α} {k : Option β} :
    (path, k) ∈ listEntries ((name, node) :: rest) ↔
      (∃ below, path = name :: below ∧ (below, k) ∈ node.list) ∨
        (path, k) ∈ listEntries rest := by
  rw [listEntries, List.mem_append, List.mem_map]
  refine or_congr ⟨?_, ?_⟩ Iff.rfl
  · rintro ⟨e, he, heq⟩
    obtain ⟨rfl, rfl⟩ := Prod.mk.inj heq
    exact ⟨e.1, rfl, he⟩
  · rintro ⟨below, rfl, hmem⟩
    exact ⟨(below, k), hmem, rfl⟩

/-- The paths of the entries start with the name of one of them. -/
theorem head_of_mem_listEntries {entries : List (α × Node α β)} {path : List α} {k : Option β}
    (h : (path, k) ∈ listEntries entries) :
    ∃ name below, path = name :: below ∧ name ∈ entries.map Prod.fst := by
  induction entries with
  | nil => cases h
  | cons entry rest ih =>
    obtain ⟨name, node⟩ := entry
    rw [List.map_cons]
    rcases mem_listEntries_cons.mp h with ⟨below, rfl, _⟩ | hrest
    · exact ⟨name, below, rfl, List.mem_cons_self⟩
    · obtain ⟨other, below, heq, hmem⟩ := ih hrest
      exact ⟨other, below, heq, List.mem_cons_of_mem _ hmem⟩

/-- No leaf's path is, or lies above, another path of the list. -/
def Compatible (es : List (List α × Option β)) : Prop :=
  es.Pairwise fun a b =>
    (a.2.isSome = true → ¬ a.1 <+: b.1) ∧ (b.2.isSome = true → ¬ b.1 <+: a.1)

/-- Putting the list below a name keeps it compatible. -/
theorem Compatible.below {es : List (List α × Option β)} (h : Compatible es) (above : List α) :
    Compatible (es.map fun e => (above ++ e.1, e.2)) := by
  refine List.pairwise_map.mpr (h.imp fun hab => ⟨fun ha hpre => ?_, fun hb hpre => ?_⟩)
  · exact hab.1 ha ((List.prefix_append_right_inj above).mp hpre)
  · exact hab.2 hb ((List.prefix_append_right_inj above).mp hpre)

/-- Two compatible lists with nothing of one above anything of the other. -/
theorem Compatible.append {es fs : List (List α × Option β)} (hes : Compatible es)
    (hfs : Compatible fs)
    (hapart : ∀ e ∈ es, ∀ f ∈ fs, ¬ Meets e.1 f.1) : Compatible (es ++ fs) :=
  List.pairwise_append.mpr ⟨hes, hfs, fun e he f hf =>
    ⟨fun _ hpre => hapart e he f hf (Or.inl hpre), fun _ hpre => hapart e he f hf (Or.inr hpre)⟩⟩

mutual

theorem Node.compatible_list {node : Node α β} (h : node.Distinct) : Compatible node.list := by
  cases node with
  | leaf value =>
    rw [Node.list]
    exact List.pairwise_singleton _ _
  | dir entries =>
    rw [Node.Distinct] at h
    rw [Node.list]
    refine List.pairwise_cons.mpr ⟨fun e he => ⟨fun hdir => ?_, fun _ hpre => ?_⟩,
      compatible_listEntries h.1 h.2⟩
    · cases hdir
    · obtain ⟨name, below, heq, _⟩ := head_of_mem_listEntries he
      rw [heq] at hpre
      cases List.prefix_nil.mp hpre

theorem compatible_listEntries {entries : List (α × Node α β)}
    (hnames : (entries.map Prod.fst).Nodup) (h : DistinctEntries entries) :
    Compatible (listEntries entries) := by
  cases entries with
  | nil => exact List.Pairwise.nil
  | cons entry rest =>
    obtain ⟨name, node⟩ := entry
    rw [DistinctEntries] at h
    rw [List.map_cons, List.nodup_cons] at hnames
    rw [listEntries]
    refine ((Node.compatible_list h.1).below [name]).append
      (compatible_listEntries hnames.2 h.2) fun e he f hf => ?_
    obtain ⟨e', _, rfl⟩ := List.mem_map.mp he
    obtain ⟨other, below, heq, hother⟩ := head_of_mem_listEntries hf
    have hne : name ≠ other := by
      rintro rfl
      exact hnames.1 hother
    rw [heq]
    rintro (hpre | hpre)
    · exact hne (List.cons_prefix_cons.mp hpre).1
    · exact hne (List.cons_prefix_cons.mp hpre).1.symm

end

/-! ## Looking a path up -/

variable [DecidableEq α]

mutual

/-- What is at a path. -/
def Node.get : Node α β → List α → Option (Option β)
  | .leaf value, [] => some (some value)
  | .leaf _, _ :: _ => none
  | .dir _, [] => some none
  | .dir entries, name :: path => getEntries entries name path

def getEntries : List (α × Node α β) → α → List α → Option (Option β)
  | [], _, _ => none
  | (other, node) :: rest, name, path =>
    if name = other then node.get path else getEntries rest name path

end

mutual

/-- The listing says of a path what is found there. -/
theorem Node.mem_list {node : Node α β} (h : node.Distinct) {path : List α} {k : Option β} :
    (path, k) ∈ node.list ↔ node.get path = some k := by
  cases node with
  | leaf value =>
    cases path with
    | nil => simp [Node.list, Node.get, eq_comm]
    | cons name path => simp [Node.list, Node.get]
  | dir entries =>
    rw [Node.Distinct] at h
    cases path with
    | nil =>
      have hnot : ([], k) ∉ listEntries entries := by
        intro hmem
        obtain ⟨_, _, heq, _⟩ := head_of_mem_listEntries hmem
        cases heq
      rw [Node.list, List.mem_cons, Node.get]
      simp [hnot, eq_comm]
    | cons name path =>
      rw [Node.list, List.mem_cons, Node.get, ← mem_listEntries h.1 h.2]
      simp

theorem mem_listEntries {entries : List (α × Node α β)} (hnames : (entries.map Prod.fst).Nodup)
    (h : DistinctEntries entries) {name : α} {path : List α} {k : Option β} :
    (name :: path, k) ∈ listEntries entries ↔ getEntries entries name path = some k := by
  cases entries with
  | nil => simp [listEntries, getEntries]
  | cons entry rest =>
    obtain ⟨other, node⟩ := entry
    rw [DistinctEntries] at h
    rw [List.map_cons, List.nodup_cons] at hnames
    have hnode : (path, k) ∈ node.list ↔ node.get path = some k := Node.mem_list h.1
    have hrest : (name :: path, k) ∈ listEntries rest ↔ getEntries rest name path = some k :=
      mem_listEntries hnames.2 h.2
    rw [mem_listEntries_cons, getEntries]
    by_cases heq : name = other
    · subst heq
      rw [if_pos rfl, ← hnode]
      constructor
      · rintro (⟨below, hbelow, hmem⟩ | hmem)
        · cases hbelow
          exact hmem
        · obtain ⟨_, _, hhead, hin⟩ := head_of_mem_listEntries hmem
          cases hhead
          exact absurd hin hnames.1
      · exact fun hmem => Or.inl ⟨path, rfl, hmem⟩
    · rw [if_neg heq, ← hrest]
      constructor
      · rintro (⟨below, hbelow, _⟩ | hmem)
        · cases hbelow
          exact absurd rfl heq
        · exact hmem
      · exact Or.inr

end

mutual

/-- What lies above a path that is found is a directory. -/
theorem Node.get_above {node : Node α β} {path below : List α} {k : Option β}
    (h : node.get (path ++ below) = some k) (hbelow : below ≠ []) :
    node.get path = some none := by
  cases node with
  | leaf value =>
    cases hpath : path ++ below with
    | nil => exact absurd (List.append_eq_nil_iff.mp hpath).2 hbelow
    | cons name rest =>
      rw [hpath, Node.get] at h
      cases h
  | dir entries =>
    cases path with
    | nil => rw [Node.get]
    | cons name path =>
      rw [List.cons_append, Node.get] at h
      rw [Node.get]
      exact getEntries_above h hbelow

theorem getEntries_above {entries : List (α × Node α β)} {name : α} {path below : List α}
    {k : Option β} (h : getEntries entries name (path ++ below) = some k) (hbelow : below ≠ []) :
    getEntries entries name path = some none := by
  cases entries with
  | nil =>
    rw [getEntries] at h
    cases h
  | cons entry rest =>
    obtain ⟨other, node⟩ := entry
    rw [getEntries] at h ⊢
    by_cases heq : name = other
    · rw [if_pos heq] at h ⊢
      exact Node.get_above h hbelow
    · rw [if_neg heq] at h ⊢
      exact getEntries_above h hbelow

end

end LukePanel.Library.FileTree
