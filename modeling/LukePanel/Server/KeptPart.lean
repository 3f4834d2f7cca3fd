import LukePanel.Server.PanelArchive

/-! # The part of a root that is written

The walk of `writeBackupPath` ends at the first file over the limit for one file. What it has
written by then is the whole of a smaller tree. -/
namespace LukePanel.Server.KeptPart
open LukePanel.Library.FileTree LukePanel.Library.SlashPath
open LukePanel.Library.GoStrings (join)
open LukePanel.Server.PanelBackup LukePanel.Server.PanelArchive

mutual

/-- A tree without its first file over the limit and what comes behind it, if anything is left, and
whether there is such a file. -/
def kept : Tree → Option Tree × Bool
  | .leaf (.file content) =>
    if maxPanelBackupBytes < content.size then (none, true)
    else (some (.leaf (.file content)), false)
  | .leaf (.link target) => (some (.leaf (.link target)), false)
  | .leaf .special => (some (.leaf .special), false)
  | .dir entries => (some (.dir (keptEntries entries).1), (keptEntries entries).2)

def keptEntries : List (String × Tree) → List (String × Tree) × Bool
  | [] => ([], false)
  | (name, tree) :: rest =>
    match kept tree with
    | (none, _) => ([], true)
    | (some part, true) => ([(name, part)], true)
    | (some part, false) => ((name, part) :: (keptEntries rest).1, (keptEntries rest).2)

end

/-- Only a file over the limit leaves nothing. -/
theorem ended_of_kept_none {tree : Tree} (h : (kept tree).1 = none) : (kept tree).2 = true := by
  cases tree with
  | leaf leaf =>
    cases leaf with
    | file content =>
      rw [kept] at h ⊢
      split at h
      · rw [if_pos ‹_›]
      · cases h
    | link target => cases h
    | special => cases h
  | dir entries =>
    rw [kept] at h
    cases h

/-- What is left of a directory's entries, by the first of them. -/
theorem keptEntries_cons (name : String) (tree : Tree) (rest : List (String × Tree)) :
    (kept tree = (none, true) ∧ keptEntries ((name, tree) :: rest) = ([], true)) ∨
    (∃ part, kept tree = (some part, true) ∧
      keptEntries ((name, tree) :: rest) = ([(name, part)], true)) ∨
    ∃ part, kept tree = (some part, false) ∧ keptEntries ((name, tree) :: rest) =
      ((name, part) :: (keptEntries rest).1, (keptEntries rest).2) := by
  have hnone := @ended_of_kept_none tree
  rw [keptEntries]
  generalize kept tree = left at hnone
  obtain ⟨left, ended⟩ := left
  cases left with
  | none =>
    obtain rfl : ended = true := hnone rfl
    exact .inl ⟨rfl, rfl⟩
  | some part =>
    cases ended with
    | true => exact .inr (.inl ⟨part, rfl, rfl⟩)
    | false => exact .inr (.inr ⟨part, rfl, rfl⟩)

/-! ## The walks of both trees -/

/-- One walk writes what the other has written until it ended. -/
structure Alike (source : String) (archive rel : List String) (tree : Tree) : Prop where
  ended : (kept tree).2 = (walk source archive rel tree).2.isSome
  nothing : (kept tree).1 = none → (walk source archive rel tree).1 = []
  part : ∀ part, (kept tree).1 = some part →
    walk source archive rel part = ((walk source archive rel tree).1, none)

mutual

theorem walk_kept (source : String) (archive rel : List String) (tree : Tree) :
    Alike source archive rel tree := by
  cases tree with
  | leaf leaf =>
    cases leaf with
    | file content =>
      by_cases hover : maxPanelBackupBytes < content.size
      · constructor <;> simp [kept, walk, hover]
      · constructor <;> simp [kept, walk, hover]
    | link target => constructor <;> simp [kept, walk]
    | special => constructor <;> simp [kept, walk]
  | dir entries =>
    obtain ⟨hended, hpart⟩ := walkEntries_kept source archive rel entries
    constructor
    · rw [kept, walk, hended]
    · intro hnone
      rw [kept] at hnone
      cases hnone
    · intro part hsome
      rw [kept] at hsome
      obtain rfl := Option.some.inj hsome
      rw [walk, walk, hpart]

theorem walkEntries_kept (source : String) (archive rel : List String)
    (entries : List (String × Tree)) :
    (keptEntries entries).2 = (walkEntries source archive rel entries).2.isSome ∧
      walkEntries source archive rel (keptEntries entries).1 =
        ((walkEntries source archive rel entries).1, none) := by
  cases entries with
  | nil => exact ⟨rfl, rfl⟩
  | cons entry rest =>
    obtain ⟨name, tree⟩ := entry
    obtain ⟨hended, hnothing, hpart⟩ := walk_kept source archive (rel ++ [name]) tree
    obtain ⟨hrest, hmore⟩ := walkEntries_kept source archive rel rest
    rw [walkEntries]
    generalize walk source archive (rel ++ [name]) tree = result at hended hnothing hpart
    obtain ⟨written, err⟩ := result
    rcases keptEntries_cons name tree rest with ⟨hkept, heq⟩ | ⟨part, hkept, heq⟩ | ⟨part, hkept, heq⟩
    · rw [hkept] at hended hnothing
      obtain ⟨e, rfl⟩ := Option.isSome_iff_exists.mp hended.symm
      obtain rfl : written = [] := hnothing rfl
      rw [heq]
      exact ⟨rfl, rfl⟩
    · rw [hkept] at hended hpart
      obtain ⟨e, rfl⟩ := Option.isSome_iff_exists.mp hended.symm
      rw [heq, walkEntries, hpart part rfl, walkEntries]
      exact ⟨rfl, Prod.ext (List.append_nil _) rfl⟩
    · rw [hkept] at hended hpart
      obtain rfl : err = none := Option.isSome_eq_false_iff.mp hended.symm |> Option.isNone_iff_eq_none.mp
      rw [heq, walkEntries, hpart part rfl, hmore]
      exact ⟨hrest, rfl⟩

end

mutual

/-- Without a file over the limit everything is left. -/
theorem kept_whole {tree : Tree} (h : (kept tree).2 = false) : (kept tree).1 = some tree := by
  cases tree with
  | leaf leaf =>
    cases leaf with
    | file content =>
      rw [kept] at h ⊢
      split at h
      · cases h
      · rw [if_neg ‹_›]
    | link target => rfl
    | special => rfl
  | dir entries =>
    rw [kept] at h ⊢
    rw [keptEntries_whole h]

theorem keptEntries_whole {entries : List (String × Tree)} (h : (keptEntries entries).2 = false) :
    (keptEntries entries).1 = entries := by
  cases entries with
  | nil => rfl
  | cons entry rest =>
    obtain ⟨name, tree⟩ := entry
    rcases keptEntries_cons name tree rest with ⟨-, heq⟩ | ⟨part, -, heq⟩ | ⟨part, hkept, heq⟩
    · rw [heq] at h
      cases h
    · rw [heq] at h
      cases h
    · rw [heq] at h ⊢
      have htree : (kept tree).1 = some tree := kept_whole (by rw [hkept])
      rw [hkept] at htree
      rw [Option.some.inj htree, keptEntries_whole h]

end

/-! ## The smaller tree -/

mutual

theorem list_kept {tree part : Tree} (h : (kept tree).1 = some part) :
    part.list.Sublist tree.list := by
  cases tree with
  | leaf leaf =>
    cases leaf with
    | file content =>
      rw [kept] at h
      split at h
      · cases h
      · rw [← Option.some.inj h]
    | link target => rw [← Option.some.inj h]
    | special => rw [← Option.some.inj h]
  | dir entries =>
    rw [kept] at h
    rw [← Option.some.inj h, Node.list, Node.list]
    exact (listEntries_kept entries).cons_cons _

theorem listEntries_kept (entries : List (String × Tree)) :
    (listEntries (keptEntries entries).1).Sublist (listEntries entries) := by
  cases entries with
  | nil => exact List.Sublist.refl _
  | cons entry rest =>
    obtain ⟨name, tree⟩ := entry
    rw [listEntries]
    rcases keptEntries_cons name tree rest with ⟨-, heq⟩ | ⟨part, hkept, heq⟩ | ⟨part, hkept, heq⟩
    · rw [heq]
      exact List.nil_sublist _
    · rw [heq, listEntries]
      exact ((list_kept (by rw [hkept])).map _).append (List.nil_sublist _)
    · rw [heq, listEntries]
      exact ((list_kept (by rw [hkept])).map _).append (listEntries_kept rest)

end

theorem names_kept (entries : List (String × Tree)) :
    ((keptEntries entries).1.map Prod.fst).Sublist (entries.map Prod.fst) := by
  induction entries with
  | nil => exact List.Sublist.refl _
  | cons entry rest ih =>
    obtain ⟨name, tree⟩ := entry
    rcases keptEntries_cons name tree rest with ⟨-, heq⟩ | ⟨part, -, heq⟩ | ⟨part, -, heq⟩
    · rw [heq]
      exact List.nil_sublist _
    · rw [heq]
      exact (List.nil_sublist _).cons_cons _
    · rw [heq]
      exact ih.cons_cons _

mutual

theorem distinct_kept {tree part : Tree} (hdistinct : tree.Distinct)
    (h : (kept tree).1 = some part) : part.Distinct := by
  cases tree with
  | leaf leaf =>
    cases leaf with
    | file content =>
      rw [kept] at h
      split at h
      · cases h
      · rwa [← Option.some.inj h]
    | link target => rwa [← Option.some.inj h]
    | special => rwa [← Option.some.inj h]
  | dir entries =>
    rw [kept] at h
    rw [Node.Distinct] at hdistinct
    rw [← Option.some.inj h, Node.Distinct]
    exact ⟨hdistinct.1.sublist (names_kept entries), distinctEntries_kept hdistinct.2⟩

theorem distinctEntries_kept {entries : List (String × Tree)} (hdistinct : DistinctEntries entries) :
    DistinctEntries (keptEntries entries).1 := by
  cases entries with
  | nil => exact trivial
  | cons entry rest =>
    obtain ⟨name, tree⟩ := entry
    rw [DistinctEntries] at hdistinct
    rcases keptEntries_cons name tree rest with ⟨-, heq⟩ | ⟨part, hkept, heq⟩ | ⟨part, hkept, heq⟩
    · rw [heq]
      exact trivial
    · rw [heq]
      exact ⟨distinct_kept hdistinct.1 (by rw [hkept]), trivial⟩
    · rw [heq]
      exact ⟨distinct_kept hdistinct.1 (by rw [hkept]), distinctEntries_kept hdistinct.2⟩

end

/-! ## The panel that is written whole -/

/-- A panel with what is left of its roots. -/
def keptPanel (s : PanelData) : PanelData where
  configPath := s.configPath
  dataDir := s.dataDir
  config := s.config
  root item := (s.root item).bind fun tree => (kept tree).1
  distinct item part h := by
    obtain ⟨tree, htree, hpart⟩ := Option.bind_eq_some_iff.mp h
    exact distinct_kept (s.distinct item tree htree) hpart
  named item part h e he := by
    obtain ⟨tree, htree, hpart⟩ := Option.bind_eq_some_iff.mp h
    exact s.named item tree htree e ((list_kept hpart).subset he)

variable {s : PanelData} {item : String}

theorem keptPanel_root {tree : Tree} (htree : s.root item = some tree) :
    (keptPanel s).root item = (kept tree).1 := by
  change (s.root item).bind _ = _
  rw [htree, Option.bind_some]

theorem keptPanel_regular (h : s.Regular) : (keptPanel s).Regular := by
  intro item hitem part hpart path leaf hmem
  obtain ⟨tree, htree, hkept⟩ := Option.bind_eq_some_iff.mp hpart
  exact h item hitem tree htree path leaf ((list_kept hkept).subset hmem)

theorem keptPanel_none (h : s.root item = none) : (keptPanel s).root item = none := by
  change (s.root item).bind _ = none
  rw [h, Option.bind_none]

/-- The walks write the same of it, and end without an error. -/
theorem writeRoot_keptPanel (s : PanelData) (item : String) :
    (writeRoot (keptPanel s) item).1 = (writeRoot s item).1 ∧ Whole (keptPanel s) item := by
  have hwhole : (keptPanel s).root item = none → Whole (keptPanel s) item := fun hnone _ hpart => by
    rw [hnone] at hpart
    cases hpart
  cases htree : s.root item with
  | none =>
    have hnone := keptPanel_none htree
    exact ⟨by rw [writeRoot_none hnone, writeRoot_none htree], hwhole hnone⟩
  | some tree =>
    obtain ⟨-, hnothing, hpart⟩ := walk_kept (join '/' [s.dataDir, item]) ["data", item] [] tree
    rw [← writeRoot_some htree] at hnothing hpart
    have hroot := keptPanel_root htree
    cases hkept : (kept tree).1 with
    | none =>
      rw [hkept] at hroot
      exact ⟨by rw [writeRoot_none hroot, hnothing hkept], hwhole hroot⟩
    | some part =>
      rw [hkept] at hroot
      have hwritten : writeRoot (keptPanel s) item = ((writeRoot s item).1, none) :=
        (writeRoot_some hroot).trans (hpart part hkept)
      refine ⟨by rw [hwritten], fun _ _ => ?_⟩
      rw [hwritten]

end LukePanel.Server.KeptPart
