import LukePanel.Files.BackupFiles
import LukePanel.Library.ShortestPrefix

/-! # Which versions are pruned -/
namespace LukePanel.Files.PruneOldest
open LukePanel.Library.ShortestPrefix LukePanel.Library.FileSystem LukePanel.Library.Syscalls
open LukePanel.Files.Versions (Naming Candidate)
open LukePanel.Files.BackupFiles

/-- Both limits hold. -/
def Fits (maxBytes maxFiles : ℕ) (files : List Candidate) : Prop :=
  files.length ≤ maxFiles ∧ (files.map Candidate.size).sum ≤ maxBytes

instance (maxBytes maxFiles : ℕ) : DecidablePred (Fits maxBytes maxFiles) := fun _ =>
  inferInstanceAs (Decidable (_ ∧ _))

/-- The entries of the directory that could be looked at, the oldest first. -/
structure OldestFirst (a : PruneAnswers) (dir : Path) (d : Disk) (entries : List Candidate) :
    Prop where
  perm : entries.Perm (candidates a dir d.versions)
  sorted : entries.Pairwise fun x y => x.time ≤ y.time

variable {n : Naming} {a : PruneAnswers} {dir : Path} {maxBytes maxFiles : ℕ} {d : Disk}
  {new : Stored}

theorem removeOldest_eq_taken {fails : Path → Bool} {files : List Candidate}
    (hfails : ∀ file ∈ files, fails file.path = false) :
    removeOldest fails maxBytes maxFiles files (files.map Candidate.size).sum =
      taken (Fits maxBytes maxFiles) files := by
  induction files with
  | nil => rfl
  | cons file rest ih =>
    rw [List.forall_mem_cons] at hfails
    have hover :
        (maxFiles < rest.length + 1 ∨ maxBytes < ((file :: rest).map Candidate.size).sum) ↔
          ¬ Fits maxBytes maxFiles (file :: rest) := by
      rw [Fits, not_and_or, Nat.not_le, Nat.not_le, List.length_cons]
    have hrest : ((file :: rest).map Candidate.size).sum - file.size =
        (rest.map Candidate.size).sum := by
      rw [List.map_cons, List.sum_cons, Nat.add_sub_cancel_left]
    rw [removeOldest, taken, hrest, ih hfails.2, hfails.1, if_neg Bool.false_ne_true]
    by_cases hfits : Fits maxBytes maxFiles (file :: rest)
    · rw [if_pos hfits, if_neg (mt hover.mp (not_not.mpr hfits))]
    · rw [if_neg hfits, if_pos (hover.mpr hfits)]

/-- The newest file comes last. -/
theorem newest_last {entries : List Candidate} (hentries : OldestFirst a dir d entries)
    (hnewest : ∀ v ∈ d.versions, v ≠ new → v.time < new.time) (hseen : candidate dir new ∈ entries) :
    ∃ older, entries = older ++ [candidate dir new] ∧ candidate dir new ∉ older := by
  obtain ⟨older, newer, rfl⟩ := List.append_of_mem hseen
  have hnodup := hentries.perm.nodup_iff.mpr (nodup_candidates a dir d)
  have hsorted := hentries.sorted
  rw [List.nodup_append] at hnodup
  rw [List.pairwise_append] at hsorted
  have hnewer : newer = [] := by
    refine List.eq_nil_iff_forall_not_mem.mpr fun file hfile => ?_
    have hcandidate : file ∈ candidates a dir d.versions :=
      hentries.perm.mem_iff.mp (List.mem_append_right _ (List.mem_cons_of_mem _ hfile))
    obtain ⟨v, hv, rfl⟩ := List.mem_map.mp hcandidate
    have hne : v ≠ new := by
      rintro rfl
      exact (List.nodup_cons.mp hnodup.2.1).1 hfile
    have hle : new.time ≤ v.time := (List.pairwise_cons.mp hsorted.2.1).1 _ hfile
    exact absurd (hnewest v (List.mem_of_mem_filter hv) hne) (not_lt.mpr hle)
  rw [hnewer]
  exact ⟨older, rfl, fun hold => hnodup.2.2 _ hold _ List.mem_cons_self rfl⟩

/-- The files that are removed are the shortest run of oldest ones after which both limits hold, and
the newest one is not among them. -/
theorem prunes_shortest (hlisted : a.readDir = none)
    (hremove : ∀ v ∈ d.versions, a.remove (dir ++ [v.name]) = false) (hmem : new ∈ d.versions)
    (hnewest : ∀ v ∈ d.versions, v ≠ new → v.time < new.time)
    (hbytes : new.content.length ≤ maxBytes) (hfiles : 1 ≤ maxFiles) :
    ∃ entries k, OldestFirst a dir d entries ∧ Shortest (Fits maxBytes maxFiles) entries k ∧
      (pruneDirectory n a dir maxBytes maxFiles d).versions =
        d.versions.filter (fun v => candidate dir v ∉ entries.take k) ∧
      new ∈ (pruneDirectory n a dir maxBytes maxFiles d).versions := by
  have hentries : OldestFirst a dir d (n.byAge (candidates a dir d.versions)) :=
    ⟨n.byAge_perm _, n.byAge_sorted _⟩
  generalize hsorted : n.byAge (candidates a dir d.versions) = entries at hentries
  have hfails : ∀ file ∈ entries, a.remove file.path = false := by
    intro file hfile
    obtain ⟨v, hv, rfl⟩ := List.mem_map.mp (hentries.perm.mem_iff.mp hfile)
    exact hremove v (List.mem_of_mem_filter hv)
  have hsum := (hentries.perm.map Candidate.size).sum_nat
  have hnil : Fits maxBytes maxFiles [] := ⟨Nat.zero_le _, Nat.zero_le _⟩
  obtain ⟨k, htaken, hk⟩ := taken_shortest hnil entries
  have hversions : (pruneDirectory n a dir maxBytes maxFiles d).versions =
      d.versions.filter (fun v => candidate dir v ∉ entries.take k) := by
    rw [pruneDirectory, hlisted]
    dsimp only
    rw [hsorted, ← hsum, removeOldest_eq_taken hfails, htaken, Disk.keeping]
  refine ⟨entries, k, hentries, hk, hversions, ?_⟩
  rw [hversions, List.mem_filter, decide_eq_true_iff]
  refine ⟨hmem, fun htake => ?_⟩
  obtain ⟨older, rfl, hnot⟩ := newest_last hentries hnewest (List.mem_of_mem_take htake)
  exact hk.last_stays ⟨hfiles, by simpa [candidate] using hbytes⟩ hnot htake

/-- Three versions, of which the first is too much. -/
def three : Disk where
  versions := [⟨"a.bak", [1, 2, 3], 1⟩, ⟨"b.bak", [4], 2⟩, ⟨"c.bak", [5, 6], 3⟩]
  distinct := by decide
  file := ⟨[], ⟨0, false, false, false⟩, 0, 0⟩
  temps := 0

def answering : PruneAnswers := ⟨none, fun _ => false, fun _ => false⟩

theorem three_pruned : ∃ entries k, OldestFirst answering [] three entries ∧
    Shortest (Fits 3 2) entries k ∧
      (pruneDirectory (Naming.single []) answering [] 3 2 three).versions =
        three.versions.filter (fun v => candidate [] v ∉ entries.take k) ∧
      ⟨"c.bak", [5, 6], 3⟩ ∈ (pruneDirectory (Naming.single []) answering [] 3 2 three).versions :=
  prunes_shortest rfl (by decide) (by decide) (by decide) (by decide) (by decide)

example : (pruneDirectory (Naming.single []) answering [] 3 2 three).versions.map (·.name) =
    ["b.bak", "c.bak"] := by decide +kernel

end LukePanel.Files.PruneOldest
