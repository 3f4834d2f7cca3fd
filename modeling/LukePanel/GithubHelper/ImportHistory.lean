import LukePanel.GithubHelper.Importer

/-! # The branch under imports and pushes

Runs of `Commit` calls interleaved with the pushes of other clients, every ref update a
fast-forward. -/
namespace LukePanel.GithubHelper.ImportHistory
open LukePanel.GithubHelper.Archive LukePanel.GithubHelper.Importer LukePanel.Library.CommitHistory
open LukePanel.Library.Machine LukePanel.Library.PathTree

variable {κ : Type} {sha1 : List UInt8 → String} {git : Git κ} {s t : State κ} {a : Act κ}

/-- The plan of a `Commit` that has found the branch at the head of its preview. -/
def checkedPlan : Phase κ → Option (ImportPlanState κ)
  | .uploading state .. | .treed state .. | .committed state _ => some state
  | _ => none

/-- The plan and the commit of a `Commit` that has created it. -/
def createdCommit : Phase κ → Option (ImportPlanState κ × κ)
  | .committed state c | .succeeded state c => some (state, c)
  | _ => none

def pairs (moves : List (Move κ)) : List (κ × κ) := moves.map fun m => (m.old, m.new)

/-- Call `i` has moved the branch from `old` to `new`, or has found it at `new`, where another
client or call had moved it from `old`. -/
def MovedBy (moves : List (Move κ)) (i : Nat) (old new : κ) : Prop :=
  ⟨some i, old, new⟩ ∈ moves ∨
    ⟨some i, new, new⟩ ∈ moves ∧ ∃ j ≠ some i, ⟨j, old, new⟩ ∈ moves

structure Inv (git : Git κ) (s : State κ) : Prop where
  forward : ∀ m ∈ s.moves, git.Ancestor m.old m.new
  reached : ∀ m ∈ s.moves, git.Ancestor m.new s.head
  checked : ∀ i state, checkedPlan (s.thread i) = some state →
    Moved (pairs s.moves) state.plan.headSHA s.head
  created : ∀ i state c, createdCommit (s.thread i) = some (state, c) →
    git.parents c = [state.plan.headSHA]
  succeeded : ∀ i state c, s.thread i = .succeeded state c →
    MovedBy s.moves i state.plan.headSHA c
  own : ∀ m ∈ s.moves, ∀ i, m.thread = some i → ∃ state c, s.thread i = .succeeded state c

theorem inv_start (head : κ) : Inv git (start head) where
  forward := fun _ h => absurd h List.not_mem_nil
  reached := fun _ h => absurd h List.not_mem_nil
  checked := nofun
  created := nofun
  succeeded := nofun
  own := fun _ h => absurd h List.not_mem_nil

theorem movedBy_mono {moves moves' : List (Move κ)} (hsub : ∀ m ∈ moves, m ∈ moves') {i : Nat}
    {old new : κ} (h : MovedBy moves i old new) : MovedBy moves' i old new := by
  rcases h with h | ⟨h, j, hj, hm⟩
  · exact Or.inl (hsub _ h)
  · exact Or.inr ⟨hsub _ h, j, hj, hsub _ hm⟩

namespace Inv

/-- A thread that made no move goes on. -/
theorem move {i : Nat} {p : Phase κ} (h : Inv git s)
    (hold : ∀ state c, s.thread i ≠ .succeeded state c)
    (hchecked : ∀ state, checkedPlan p = some state →
      Moved (pairs s.moves) state.plan.headSHA s.head)
    (hcreated : ∀ state c, createdCommit p = some (state, c) →
      git.parents c = [state.plan.headSHA])
    (hnew : ∀ state c, p ≠ .succeeded state c) : Inv git (s.move i p) := by
  refine { h with checked := ?_, created := ?_, succeeded := ?_, own := ?_ }
  · intro j state hj
    by_cases hji : j = i
    · subst hji
      rw [State.move_self] at hj
      exact hchecked state hj
    · rw [State.move_ne s p hji] at hj
      exact h.checked j state hj
  · intro j state c hj
    by_cases hji : j = i
    · subst hji
      rw [State.move_self] at hj
      exact hcreated state c hj
    · rw [State.move_ne s p hji] at hj
      exact h.created j state c hj
  · intro j state c hj
    by_cases hji : j = i
    · subst hji
      rw [State.move_self] at hj
      exact absurd hj (hnew state c)
    · rw [State.move_ne s p hji] at hj
      exact h.succeeded j state c hj
  · intro m hm j hj
    obtain ⟨state, c, hs⟩ := h.own m hm j hj
    have hji : j ≠ i := by
      rintro rfl
      exact hold state c hs
    exact ⟨state, c, (State.move_ne s p hji).trans hs⟩

theorem go {i : Nat} {p : Phase κ} (h : Inv git s) (hg : Goes sha1 git s (s.thread i) p) :
    Inv git (s.move i p) := by
  generalize hq : s.thread i = q at hg
  cases hg with
  | failed hopen => exact h.move (fun state c hs => hopen state c (hq.symm.trans hs)) nofun nofun nofun
  | fetched _ | admitted _ => exact h.move (by simp [hq]) nofun nofun nofun
  | checked hhead =>
    refine h.move (by simp [hq]) ?_ nofun nofun
    intro state hstate
    cases hstate
    exact hhead ▸ .refl
  | uploaded _ | treed =>
    refine h.move (by simp [hq]) ?_ nofun nofun
    intro state hstate
    cases hstate
    exact h.checked i _ (by rw [hq]; rfl)
  | created =>
    refine h.move (by simp [hq]) ?_ ?_ nofun
    · intro state hstate
      cases hstate
      exact h.checked i _ (by rw [hq]; rfl)
    · intro state c hcommit
      cases hcommit
      exact git.parents_create ..

/-- The head moves on to a commit it is an ancestor of. -/
theorem advance (h : Inv git s) {c : κ} {j : Option Nat} (hff : git.Ancestor s.head c) :
    (∀ m ∈ (⟨j, s.head, c⟩ :: s.moves : List (Move κ)), git.Ancestor m.old m.new ∧
      git.Ancestor m.new c) ∧
    ∀ i state, checkedPlan (s.thread i) = some state →
      Moved (pairs (⟨j, s.head, c⟩ :: s.moves)) state.plan.headSHA c := by
  refine ⟨fun m hm => ?_, fun i state hi => ?_⟩
  · rcases List.mem_cons.mp hm with rfl | hm
    · exact ⟨hff, ancestor_refl c⟩
    · exact ⟨h.forward m hm, ancestor_trans (h.reached m hm) hff⟩
  · have hbefore : Moved (pairs (⟨j, s.head, c⟩ :: s.moves)) state.plan.headSHA s.head :=
      (h.checked i state hi).mono fun m hm => List.mem_cons_of_mem _ hm
    exact hbefore.tail List.mem_cons_self

theorem push (h : Inv git s) {c : κ} (hff : git.Ancestor s.head c) :
    Inv git { s with head := c, moves := ⟨none, s.head, c⟩ :: s.moves } := by
  obtain ⟨hmoves, hchecked⟩ := h.advance (j := none) hff
  refine { h with forward := ?_, reached := ?_, checked := hchecked, succeeded := ?_, own := ?_ }
  · exact fun m hm => (hmoves m hm).1
  · exact fun m hm => (hmoves m hm).2
  · exact fun i state c hs => movedBy_mono (fun _ => List.mem_cons_of_mem _) (h.succeeded i state c hs)
  · intro m hm i hi
    rcases List.mem_cons.mp hm with rfl | hm
    · cases hi
    · exact h.own m hm i hi

/-- A ref update finds the branch at the head of the preview or at the commit itself. -/
theorem moved_by_update (h : Inv git s) {i : Nat} {state : ImportPlanState κ} {c : κ}
    (hphase : s.thread i = .committed state c) (hff : git.Ancestor s.head c) :
    MovedBy (⟨some i, s.head, c⟩ :: s.moves) i state.plan.headSHA c := by
  have hparent := h.created i state c (by rw [hphase]; rfl)
  have hmoved := h.checked i state (by rw [hphase]; rfl)
  have hforward : ∀ m ∈ pairs s.moves, git.Ancestor m.1 m.2 := by
    intro m hm
    obtain ⟨m', hm', rfl⟩ := List.mem_map.mp hm
    exact h.forward m' hm'
  have hhead : git.Ancestor state.plan.headSHA s.head := hmoved.ancestor hforward
  rcases eq_or_eq_of_only_parent hparent hhead hff with heq | heq
  · exact Or.inl (heq ▸ List.mem_cons_self)
  · rcases (heq ▸ hmoved).mem_of_only_parent hforward hparent with hsame | hmem
    · exact Or.inl (by rw [hsame, ← heq]; exact List.mem_cons_self)
    · obtain ⟨m, hm, hpair⟩ := List.mem_map.mp hmem
      obtain ⟨hold, hnew⟩ := Prod.mk.inj hpair
      refine Or.inr ⟨heq ▸ List.mem_cons_self, m.thread, fun hi => ?_, ?_⟩
      · obtain ⟨_, _, hs⟩ := h.own m hm i hi
        rw [hphase] at hs
        cases hs
      · rw [← hold, ← hnew]
        exact List.mem_cons_of_mem _ hm

theorem update (h : Inv git s) {i : Nat} {state : ImportPlanState κ} {c : κ}
    {plans : List (ImportPlanState κ)} (hphase : s.thread i = .committed state c)
    (hff : git.Ancestor s.head c) :
    Inv git ({ s with head := c, plans, moves := ⟨some i, s.head, c⟩ :: s.moves }.move i
      (.succeeded state c)) := by
  obtain ⟨hmoves, hchecked⟩ := h.advance (j := some i) hff
  have hby := h.moved_by_update hphase hff
  refine ⟨fun m hm => (hmoves m hm).1, fun m hm => (hmoves m hm).2, ?_, ?_, ?_, ?_⟩
  · intro j state' hj
    by_cases hji : j = i
    · subst hji
      rw [State.move_self] at hj
      cases hj
    · rw [State.move_ne _ _ hji] at hj
      exact hchecked j state' hj
  · intro j state' c' hj
    by_cases hji : j = i
    · subst hji
      rw [State.move_self] at hj
      cases hj
      exact h.created j state c (by rw [hphase]; rfl)
    · rw [State.move_ne _ _ hji] at hj
      exact h.created j state' c' hj
  · intro j state' c' hj
    by_cases hji : j = i
    · subst hji
      rw [State.move_self] at hj
      cases hj
      exact hby
    · rw [State.move_ne _ _ hji] at hj
      exact movedBy_mono (fun _ => List.mem_cons_of_mem _) (h.succeeded j state' c' hj)
  · intro m hm j hj
    by_cases hji : j = i
    · subst hji
      exact ⟨state, c, State.move_self ..⟩
    · rw [State.move_ne _ _ hji]
      rcases List.mem_cons.mp hm with rfl | hm
      · exact absurd (Option.some.inj hj).symm hji
      · exact h.own m hm j hj

end Inv

theorem inv_step [DecidableEq κ] (hi : Inv git s) (hg : NonForced git s a)
    (h : step sha1 git s a = some t) : Inv git t := by
  cases did_of_step h with
  | went hgoes => exact hi.go hgoes
  | pushed => exact hi.push hg
  | stored hphase =>
    refine Inv.move (s := { s with plans := _ }) { hi with } ?_ nofun nofun nofun
    intro state c hs
    rw [hphase] at hs
    cases hs
  | updated hphase => exact hi.update hphase (hg _ _ hphase)
  | forgot => exact { hi with }

theorem head_step [DecidableEq κ] (hg : NonForced git s a) (h : step sha1 git s a = some t) :
    git.Ancestor s.head t.head := by
  cases did_of_step h with
  | pushed => exact hg
  | updated hphase => exact hg _ _ hphase
  | _ => exact ancestor_refl s.head

/-- **A successful import has moved the branch from the head of its preview.** In every run of
`Commit` calls and pushes in which the branch is only fast-forwarded: the commit of a call that
succeeded has the head of the preview as its only parent, and the call moved the branch from
exactly that head to it, unless it found the branch at this very commit, moved there from exactly
that head by another call or push; every commit the branch has ever been at is an ancestor of its
head; and a call that moved the branch has succeeded, so that a failed one left it where it was. -/
theorem commit_moves_from_preview [DecidableEq κ] {head : κ}
    (h : Reaches (step sha1 git) (NonForced git) (start head) s) :
    (∀ i state c, s.thread i = .succeeded state c →
      git.parents c = [state.plan.headSHA] ∧ MovedBy s.moves i state.plan.headSHA c) ∧
    (git.Ancestor head s.head ∧
      ∀ m ∈ s.moves, git.Ancestor m.old s.head ∧ git.Ancestor m.new s.head) ∧
    ∀ i err, s.thread i = .failed err → ∀ m ∈ s.moves, m.thread ≠ some i := by
  have hi : Inv git s := h.invariant (inv_start head) fun _ _ _ hi hg hs => inv_step hi hg hs
  have hhead : git.Ancestor head s.head :=
    h.invariant (ancestor_refl head) fun _ _ _ ha hg hs => ancestor_trans ha (head_step hg hs)
  refine ⟨?_, ⟨hhead, ?_⟩, ?_⟩
  · intro i state c hs
    exact ⟨hi.created i state c (by rw [hs]; rfl), hi.succeeded i state c hs⟩
  · intro m hm
    exact ⟨ancestor_trans (hi.forward m hm) (hi.reached m hm), hi.reached m hm⟩
  · intro i err hfailed m hm hby
    obtain ⟨state, c, hs⟩ := hi.own m hm i hby
    rw [hfailed] at hs
    cases hs

/-! ## Two calls on one preview -/

/-- Linear histories: a commit is the list of what was committed, last first. -/
abbrev Linear := List (RepoTree × String × Nat)

def linear : Git Linear where
  parents
    | [] => []
    | _ :: before => [before]
  acyclic := by
    refine Subrelation.wf (r := fun p c => p.length < c.length) ?_ (measure List.length).wf
    intro p c hp
    cases c with
    | nil => cases hp
    | cons _ before =>
      rw [List.mem_singleton.mp hp]
      exact Nat.lt_succ_self _
  tree
    | [] => ⟨[], .nil⟩
    | (t, _) :: _ => t
  create t p message stamp := (t, message, stamp) :: p
  tree_create _ _ _ _ := rfl
  parents_create _ _ _ _ := rfl

def isChildOf (parent : Linear) : Linear → Bool
  | [] => false
  | _ :: before => before == parent

theorem ancestor_of_isChildOf {p c : Linear} (h : isChildOf p c = true) : linear.Ancestor p c := by
  cases c with
  | nil => cases h
  | cons _ before =>
    have heq : before = p := by simpa [isChildOf] using h
    exact .single (List.mem_singleton.mpr heq.symm)

def forwardCheck (s : State Linear) : Act Linear → Bool
  | .push c => isChildOf s.head c
  | .updateBranch i true =>
    match s.thread i with
    | .committed _ c => c == s.head || isChildOf s.head c
    | _ => true
  | _ => true

theorem nonForced_of_check (s : State Linear) (a : Act Linear) (h : forwardCheck s a = true) :
    NonForced linear s a := by
  cases a with
  | push c => exact ancestor_of_isChildOf h
  | updateBranch i ok =>
    cases ok with
    | false => trivial
    | true =>
      intro state c hphase
      simp only [forwardCheck, hphase, Bool.or_eq_true, beq_iff_eq] at h
      rcases h with heq | hchild
      · exact heq ▸ ancestor_refl c
      · exact ancestor_of_isChildOf hchild
  | _ => trivial

def readme : ZipFile := ⟨"README.md", false, false, 420, 2, some [72, 105]⟩

/-- A preview of one new file, and two calls on it with the same message in the same second. -/
def twice : List (Act Linear) :=
  [.prepare 0 100 (some [readme]), .store 0 "plan" "session" 0,
    .commit 1 "session" "plan" "import" "token" 1, .commit 2 "session" "plan" "import" "token" 1,
    .check 1 true, .check 2 true, .createBlob 1 true, .createBlob 2 true, .createTree 1 true,
    .createTree 2 true, .createCommit 1 true 7, .createCommit 2 true 7, .updateBranch 1 true,
    .updateBranch 2 true]

/-- The plan and the commit of the call `i`, if it has succeeded. -/
def outcome (s : State κ) (i : Nat) : Option (ImportPlanState κ × κ) :=
  match s.thread i with
  | .succeeded state c => some (state, c)
  | _ => none

theorem succeeded_of_outcome {i : Nat} {state : ImportPlanState κ} {c : κ}
    (h : outcome s i = some (state, c)) : s.thread i = .succeeded state c := by
  unfold outcome at h
  split at h
  · rename_i hphase
    cases h
    exact hphase
  · cases h

theorem twin_call_succeeds_without_move : ∃ s,
    run (step (fun _ => "") linear) (start []) twice = some s ∧
    Reaches (step (fun _ => "") linear) (NonForced linear) (start []) s ∧
    ∃ state c, s.thread 2 = .succeeded state c ∧
      ∀ m ∈ s.moves, ¬ (m.thread = some 2 ∧ m.old = state.plan.headSHA) := by
  have hrun : (runIf (step (fun _ => "") linear) forwardCheck (start []) twice).map (fun s =>
      (outcome s 2).any fun r =>
        s.moves.all fun m => m.thread != some 2 || m.old != r.1.plan.headSHA) = some true := by
    decide +kernel
  obtain ⟨s, hs, hwithout⟩ := Option.map_eq_some_iff.mp hrun
  obtain ⟨⟨state, c⟩, houtcome, hmoves⟩ := (Option.any_eq_true _ _).mp hwithout
  refine ⟨s, run_of_runIf hs, reaches_of_runIf nonForced_of_check hs, state, c,
    succeeded_of_outcome houtcome, fun m hm hmove => ?_⟩
  have := List.all_eq_true.mp hmoves m hm
  simp [hmove.1, hmove.2] at this

/-- The first of the two calls has moved the branch itself, the second has found it moved. -/
theorem twin_calls_move_once : ∃ s,
    run (step (fun _ => "") linear) (start []) twice = some s ∧
    s.moves.map Move.thread = [some 2, some 1] ∧
    ∀ i state c, s.thread i = .succeeded state c →
      linear.parents c = [state.plan.headSHA] ∧ MovedBy s.moves i state.plan.headSHA c := by
  have hrun : (runIf (step (fun _ => "") linear) forwardCheck (start []) twice).map
      (fun s => s.moves.map Move.thread) = some [some 2, some 1] := by decide +kernel
  obtain ⟨s, hs, hmoves⟩ := Option.map_eq_some_iff.mp hrun
  exact ⟨s, run_of_runIf hs, hmoves,
    (commit_moves_from_preview (reaches_of_runIf nonForced_of_check hs)).1⟩

end LukePanel.GithubHelper.ImportHistory
