import LukePanel.Library.Machine
import Mathlib.Data.List.Nodup
import Mathlib.Data.List.Perm.Subperm
import Mathlib.Data.List.Sort
import Mathlib.Logic.Relation

/-! # Background jobs

`JobManager` of `internal/agent/jobs.go`. Each `Start` leaves a goroutine that sets its job running,
calls the function and sets the result; every access to the map is made under the lock. -/
namespace LukePanel.Agent.Jobs
open LukePanel.Library.Machine

def maxBackgroundJobs : ℕ := 40

inductive Status where
  | queued
  | running
  | success
  | failed
deriving DecidableEq, Repr

/-- Times are nanoseconds, 0 for the zero time. -/
structure BackgroundJob where
  id : String
  kind : String
  target : String
  status : Status
  createdAt : ℕ
  startedAt : ℕ
  finishedAt : ℕ
  result : String
  error : String
deriving DecidableEq, Repr

/-- What `pruneLocked` passes over. -/
def BackgroundJob.active (job : BackgroundJob) : Bool :=
  job.status = .running || job.status = .queued

/-- `sort.Slice` by `CreatedAt` of the map's values, which come in any order. -/
structure OldestFirst where
  sort : List BackgroundJob → List BackgroundJob
  perm : ∀ jobs, (sort jobs).Perm jobs
  sorted : ∀ jobs, (sort jobs).Pairwise fun a b => a.createdAt ≤ b.createdAt

/-- The ids that the loop deletes while `remove` is positive. -/
def deleted : ℕ → List BackgroundJob → List String
  | 0, _ => []
  | _, [] => []
  | remove + 1, job :: rest =>
    if job.active then deleted (remove + 1) rest else job.id :: deleted remove rest

def pruneLocked (order : OldestFirst) (jobs : List BackgroundJob) : List BackgroundJob :=
  if jobs.length < maxBackgroundJobs then jobs
  else
    let items := order.sort jobs
    let ids := deleted (items.length - maxBackgroundJobs + 1) items
    jobs.filter fun job => job.id ∉ ids

def update (id : String) (fn : BackgroundJob → BackgroundJob) (jobs : List BackgroundJob) :
    List BackgroundJob :=
  jobs.map fun job => if job.id = id then fn job else job

/-- Where the goroutine of a job is. -/
inductive Phase where
  | started
  | called
deriving DecidableEq, Repr

/-- The map, the goroutines that have not ended, and the ids that were given out. -/
structure State where
  jobs : List BackgroundJob
  routines : List (String × Phase)
  issued : List String

def State.init : State := ⟨[], [], []⟩

/-- When the function of a job has returned, `raw` is its result and `err` the text of its error. -/
inductive Action where
  | start (id kind target : String) (now : ℕ)
  | begin (id : String) (now : ℕ)
  | finish (id : String) (now : ℕ) (raw : String) (err : Option String)
  /-- `Get` or `List` -/
  | query

def setRunning (now : ℕ) (job : BackgroundJob) : BackgroundJob :=
  { job with status := .running, startedAt := now }

def setFinished (now : ℕ) (raw : String) (err : Option String) (job : BackgroundJob) :
    BackgroundJob :=
  match err with
  | some err => { job with finishedAt := now, result := raw, status := .failed, error := err }
  | none => { job with finishedAt := now, result := raw, status := .success }

variable (order : OldestFirst)

/-- The ids that are given out differ. -/
def step (s : State) : Action → Option State
  | .start id kind target now =>
    if id ∈ s.issued then none
    else
      some ⟨⟨id, kind, target, .queued, now, 0, 0, "", ""⟩ :: pruneLocked order s.jobs,
        (id, .started) :: s.routines, id :: s.issued⟩
  | .begin id now =>
    if (id, .started) ∈ s.routines then
      some { s with
        jobs := update id (setRunning now) s.jobs
        routines := (id, .called) :: s.routines.filter (·.1 ≠ id) }
    else none
  | .finish id now raw err =>
    if (id, .called) ∈ s.routines then
      some { s with
        jobs := update id (setFinished now raw err) s.jobs
        routines := s.routines.filter (·.1 ≠ id) }
    else none
  | .query => some s

/-! ## Pruning -/

variable {order} {jobs : List BackgroundJob} {job : BackgroundJob}

theorem deleted_eq (remove : ℕ) (items : List BackgroundJob) :
    deleted remove items = ((items.filter fun job => !job.active).map (·.id)).take remove := by
  induction items generalizing remove with
  | nil => cases remove <;> rfl
  | cons job rest ih =>
    cases remove with
    | zero => rw [deleted, List.take_zero]
    | succ remove =>
      rw [deleted]
      cases hactive : job.active with
      | true => rw [if_pos rfl, ih, List.filter_cons_of_neg (by simp [hactive])]
      | false =>
        rw [if_neg Bool.false_ne_true, ih, List.filter_cons_of_pos (by simp [hactive]), List.map_cons,
          List.take_succ_cons]

theorem pruneLocked_sublist : (pruneLocked order jobs).Sublist jobs := by
  unfold pruneLocked
  split
  · exact List.Sublist.refl _
  · exact List.filter_sublist

/-- Only finished jobs are deleted. -/
theorem mem_pruneLocked (hids : (jobs.map (·.id)).Nodup) (hjob : job ∈ jobs)
    (hactive : job.active = true) : job ∈ pruneLocked order jobs := by
  unfold pruneLocked
  split
  · exact hjob
  · refine List.mem_filter.mpr ⟨hjob, decide_eq_true fun hmem => ?_⟩
    rw [deleted_eq] at hmem
    obtain ⟨other, hother, hid⟩ := List.mem_map.mp (List.mem_of_mem_take hmem)
    obtain ⟨hmem, hfinished⟩ := List.mem_filter.mp hother
    have hsame := List.inj_on_of_nodup_map hids ((order.perm jobs).mem_iff.mp hmem) hjob hid
    rw [hsame, hactive] at hfinished
    cases hfinished

/-- A prune makes room, or leaves no job that is finished. -/
theorem pruneLocked_bounded (hids : (jobs.map (·.id)).Nodup) :
    (pruneLocked order jobs).length < maxBackgroundJobs ∨
      ∀ job ∈ pruneLocked order jobs, job.active = true := by
  unfold pruneLocked
  split
  · rename_i hroom
    exact Or.inl hroom
  · rename_i hfull
    have hperm := order.perm jobs
    have hlength := hperm.length_eq
    dsimp only
    rw [deleted_eq, hlength]
    generalize hfinished : ((order.sort jobs).filter fun job => !job.active).map (·.id) = finished
    generalize hremove : jobs.length - maxBackgroundJobs + 1 = remove
    have hsublist : finished.Sublist ((order.sort jobs).map (·.id)) :=
      hfinished ▸ List.filter_sublist.map _
    by_cases hmany : remove ≤ finished.length
    · -- As many are deleted as have to be.
      refine Or.inl ?_
      have hnodup : (finished.take remove).Nodup :=
        ((hperm.map _).nodup_iff.mpr hids).sublist ((List.take_sublist _ _).trans hsublist)
      have hsubset : finished.take remove ⊆
          (jobs.filter fun job => job.id ∈ finished.take remove).map (·.id) := by
        intro id hid
        obtain ⟨job, hjob, rfl⟩ := List.mem_map.mp
          ((hperm.map _).mem_iff.mp (hsublist.subset (List.mem_of_mem_take hid)))
        exact List.mem_map_of_mem (List.mem_filter.mpr ⟨hjob, decide_eq_true hid⟩)
      have hle := (List.subperm_of_subset hnodup hsubset).length_le
      have hsum := List.length_eq_length_filter_add (l := jobs)
        fun job => decide (job.id ∈ finished.take remove)
      rw [List.length_map, List.length_take] at hle
      simp only [← decide_not] at hsum
      omega
    · -- All that are finished are deleted.
      refine Or.inr fun job hjob => ?_
      obtain ⟨hmem, hkept⟩ := List.mem_filter.mp hjob
      rw [List.take_of_length_le (Nat.le_of_lt (Nat.not_le.mp hmany)), decide_eq_true_iff] at hkept
      by_contra hactive
      refine hkept (hfinished ▸ List.mem_map_of_mem ?_)
      exact List.mem_filter.mpr ⟨hperm.mem_iff.mpr hmem, by simpa using hactive⟩

/-! ## What holds in every state -/

/-- A job is queued while its goroutine has not set it running, and running until that has set its
result. -/
structure Consistent (s : State) : Prop where
  ids : (s.jobs.map (·.id)).Nodup
  routines : (s.routines.map (·.1)).Nodup
  issued : ∀ job ∈ s.jobs, job.id ∈ s.issued
  owned : ∀ routine ∈ s.routines, routine.1 ∈ s.issued
  queued : ∀ job ∈ s.jobs, (job.status = .queued ↔ (job.id, .started) ∈ s.routines)
  running : ∀ job ∈ s.jobs, (job.status = .running ↔ (job.id, .called) ∈ s.routines)

theorem consistent_init : Consistent .init :=
  ⟨List.nodup_nil, List.nodup_nil, nofun, nofun, nofun, nofun⟩

variable {s t : State} {a : Action}

theorem setRunning_id (now : ℕ) (job : BackgroundJob) : (setRunning now job).id = job.id := rfl

theorem setFinished_id (now : ℕ) (raw : String) (err : Option String) (job : BackgroundJob) :
    (setFinished now raw err job).id = job.id := by
  cases err <;> rfl

theorem status_setFinished (now : ℕ) (raw : String) (err : Option String) (job : BackgroundJob) :
    (setFinished now raw err job).status = .success ∨
      (setFinished now raw err job).status = .failed := by
  cases err with
  | none => exact Or.inl rfl
  | some err => exact Or.inr rfl

theorem map_id_update {id : String} {fn : BackgroundJob → BackgroundJob}
    (hfn : ∀ job, (fn job).id = job.id) : (update id fn jobs).map (·.id) = jobs.map (·.id) := by
  rw [update, List.map_map]
  refine List.map_congr_left fun job _ => ?_
  change (if job.id = id then fn job else job).id = job.id
  split
  · exact hfn job
  · rfl

/-- A job in the map is the one that was there, or what it has become. -/
theorem mem_update {id : String} {fn : BackgroundJob → BackgroundJob} :
    job ∈ update id fn jobs ↔
      ∃ old ∈ jobs, (old.id = id ∧ job = fn old) ∨ (old.id ≠ id ∧ job = old) := by
  rw [update, List.mem_map]
  refine exists_congr fun old => and_congr_right fun _ => ?_
  by_cases hid : old.id = id
  · rw [if_pos hid]
    exact ⟨fun h => Or.inl ⟨hid, h.symm⟩, fun h => (h.resolve_right fun h => h.1 hid).2.symm⟩
  · rw [if_neg hid]
    exact ⟨fun h => Or.inr ⟨hid, h.symm⟩, fun h => (h.resolve_left fun h => hid h.1).2.symm⟩

/-- A goroutine takes its next step: the job gets a status that belongs to its new phase. -/
theorem consistent_update (hs : Consistent s) {id : String} {fn : BackgroundJob → BackgroundJob}
    (hfn : ∀ job, (fn job).id = job.id) {next : List (String × Phase)}
    (hnext : next = [] ∨ next = [(id, .called)]) {phase : Phase} (hphase : (id, phase) ∈ s.routines)
    (hqueued : ∀ job, (fn job).status ≠ .queued)
    (hrunning : ∀ job, (fn job).status = .running ↔ next = [(id, .called)]) :
    Consistent { s with
      jobs := update id fn s.jobs
      routines := next ++ s.routines.filter (·.1 ≠ id) } := by
  have hother : ∀ {other : String} (phase : Phase), other ≠ id →
      ((other, phase) ∈ next ++ s.routines.filter (·.1 ≠ id) ↔ (other, phase) ∈ s.routines) := by
    intro other phase hne
    rcases hnext with rfl | rfl <;> simp [hne]
  have hself : ∀ phase : Phase,
      (id, phase) ∈ next ++ s.routines.filter (·.1 ≠ id) ↔ (id, phase) ∈ next := by
    intro phase
    simp
  constructor
  · exact (map_id_update hfn).symm ▸ hs.ids
  · have hrest : ((s.routines.filter (·.1 ≠ id)).map (·.1)).Nodup :=
      hs.routines.sublist (List.filter_sublist.map _)
    rcases hnext with rfl | rfl
    · exact hrest
    · refine List.nodup_cons.mpr ⟨fun hmem => ?_, hrest⟩
      obtain ⟨routine, hroutine, hid⟩ := List.mem_map.mp hmem
      exact of_decide_eq_true (List.mem_filter.mp hroutine).2 hid
  · intro job hjob
    obtain ⟨old, hold, ⟨-, rfl⟩ | ⟨-, rfl⟩⟩ := mem_update.mp hjob
    · rw [hfn]
      exact hs.issued old hold
    · exact hs.issued job hold
  · intro routine hroutine
    rcases List.mem_append.mp hroutine with hnew | hold
    · rcases hnext with rfl | rfl
      · cases hnew
      · rw [List.mem_singleton.mp hnew]
        have howned := hs.owned _ hphase
        exact howned
    · exact hs.owned routine (List.mem_of_mem_filter hold)
  · intro job hjob
    obtain ⟨old, hold, ⟨rfl, rfl⟩ | ⟨hne, rfl⟩⟩ := mem_update.mp hjob
    · refine iff_of_false (hqueued old) ?_
      rw [hfn, hself]
      rcases hnext with rfl | rfl <;> simp
    · exact (hs.queued job hold).trans (hother .started hne).symm
  · intro job hjob
    obtain ⟨old, hold, ⟨rfl, rfl⟩ | ⟨hne, rfl⟩⟩ := mem_update.mp hjob
    · rw [hrunning, hfn, hself]
      rcases hnext with rfl | rfl <;> simp
    · exact (hs.running job hold).trans (hother .called hne).symm

theorem consistent_step (hs : Consistent s) (hstep : step order s a = some t) : Consistent t := by
  cases a with
  | start id kind target now =>
    rw [step] at hstep
    split at hstep
    · cases hstep
    · rename_i hfresh
      obtain rfl := Option.some.inj hstep
      have hsub := @pruneLocked_sublist order s.jobs
      have hnew : ∀ job ∈ pruneLocked order s.jobs, job.id ≠ id := fun job hjob hid =>
        hfresh (hid ▸ hs.issued job (hsub.subset hjob))
      have hroutine : ∀ phase, (id, phase) ∉ s.routines := fun phase h => hfresh (hs.owned _ h)
      constructor
      · refine List.nodup_cons.mpr ⟨fun hmem => ?_, hs.ids.sublist (hsub.map _)⟩
        obtain ⟨job, hjob, hid⟩ := List.mem_map.mp hmem
        exact hnew job hjob hid
      · refine List.nodup_cons.mpr ⟨fun hmem => ?_, hs.routines⟩
        obtain ⟨⟨_, phase⟩, hthere, rfl⟩ := List.mem_map.mp hmem
        exact hroutine phase hthere
      · refine List.forall_mem_cons.mpr ⟨List.mem_cons_self, fun job hjob => ?_⟩
        exact List.mem_cons_of_mem _ (hs.issued job (hsub.subset hjob))
      · exact List.forall_mem_cons.mpr ⟨List.mem_cons_self, fun routine hmem =>
          List.mem_cons_of_mem _ (hs.owned routine hmem)⟩
      · refine List.forall_mem_cons.mpr ⟨iff_of_true rfl List.mem_cons_self, fun job hjob => ?_⟩
        rw [hs.queued job (hsub.subset hjob)]
        simp [hnew job hjob]
      · refine List.forall_mem_cons.mpr ⟨iff_of_false nofun fun hmem => ?_, fun job hjob => ?_⟩
        · rcases List.mem_cons.mp hmem with hnow | hold
          · cases hnow
          · exact hroutine _ hold
        · rw [hs.running job (hsub.subset hjob)]
          simp
  | begin id now =>
    rw [step] at hstep
    split at hstep
    · rename_i hphase
      obtain rfl := Option.some.inj hstep
      exact consistent_update hs (setRunning_id now) (Or.inr rfl) hphase (fun _ => nofun)
        fun _ => iff_of_true rfl rfl
    · cases hstep
  | finish id now raw err =>
    rw [step] at hstep
    split at hstep
    · rename_i hphase
      obtain rfl := Option.some.inj hstep
      refine consistent_update hs (setFinished_id now raw err) (Or.inl rfl) hphase (fun job => ?_)
        fun job => iff_of_false ?_ (List.cons_ne_nil _ _).symm
      · rcases status_setFinished now raw err job with h | h <;> rw [h] <;> exact nofun
      · rcases status_setFinished now raw err job with h | h <;> rw [h] <;> exact nofun
    · cases hstep
  | query =>
    obtain rfl := Option.some.inj hstep
    exact hs

theorem consistent_of_reaches (h : Reaches (step order) Free .init s) : Consistent s :=
  h.invariant consistent_init fun _ _ _ hs _ hstep => consistent_step hs hstep

/-! ## What a step does to the jobs -/

/-- The ways of a status. -/
inductive Next : Status → Status → Prop
  | run : Next .queued .running
  | succeed : Next .running .success
  | fail : Next .running .failed

/-- Statuses move along their ways, new jobs are queued, no active job is lost, and a `Start` leaves
at most 40 jobs or active ones only. -/
structure Proper (s : State) (a : Action) (t : State) : Prop where
  moves : ∀ job ∈ s.jobs, ∀ job' ∈ t.jobs, job'.id = job.id →
    job'.status = job.status ∨ Next job.status job'.status
  fresh : ∀ job' ∈ t.jobs, (∀ job ∈ s.jobs, job.id ≠ job'.id) →
    job'.status = .queued ∧ job'.id ∉ s.issued
  kept : ∀ job ∈ s.jobs, job.active = true → ∃ job' ∈ t.jobs, job'.id = job.id
  bounded : ∀ id kind target now, a = .start id kind target now →
    t.jobs.length ≤ maxBackgroundJobs ∨ ∀ job ∈ t.jobs, job.active = true

theorem proper_start (hs : Consistent s) {id kind target : String} {now : ℕ}
    (hstep : step order s (.start id kind target now) = some t) :
    Proper s (.start id kind target now) t := by
  rw [step] at hstep
  split at hstep
  · cases hstep
  rename_i hfresh
  obtain rfl := Option.some.inj hstep
  have hsub := @pruneLocked_sublist order s.jobs
  constructor
  · intro job hjob job' hjob' hid
    rcases List.mem_cons.mp hjob' with rfl | hold
    · have hissued := hs.issued job hjob
      rw [← hid] at hissued
      exact absurd hissued hfresh
    · rw [List.inj_on_of_nodup_map hs.ids (hsub.subset hold) hjob hid]
      exact Or.inl rfl
  · intro job' hjob' hnew
    rcases List.mem_cons.mp hjob' with rfl | hold
    · exact ⟨rfl, hfresh⟩
    · exact absurd rfl (hnew job' (hsub.subset hold))
  · intro job hjob hactive
    exact ⟨job, List.mem_cons_of_mem _ (mem_pruneLocked hs.ids hjob hactive), rfl⟩
  · intro _ _ _ _ _
    rcases @pruneLocked_bounded order s.jobs hs.ids with hroom | hactive
    · exact Or.inl hroom
    · exact Or.inr (List.forall_mem_cons.mpr ⟨rfl, hactive⟩)

/-- A goroutine that sets the status of its job. -/
theorem proper_update (hs : Consistent s) {id : String} {fn : BackgroundJob → BackgroundJob}
    {routines : List (String × Phase)} (hfn : ∀ job, (fn job).id = job.id)
    (hnext : ∀ job ∈ s.jobs, job.id = id → Next job.status (fn job).status)
    (ha : ∀ id kind target now, a ≠ .start id kind target now) :
    Proper s a { s with jobs := update id fn s.jobs, routines := routines } where
  moves job hjob job' hjob' hid := by
    obtain ⟨old, hold, ⟨hself, rfl⟩ | ⟨-, rfl⟩⟩ := mem_update.mp hjob'
    · rw [hfn] at hid
      rw [List.inj_on_of_nodup_map hs.ids hold hjob hid] at hself ⊢
      exact Or.inr (hnext job hjob hself)
    · exact Or.inl (List.inj_on_of_nodup_map hs.ids hold hjob hid ▸ rfl)
  fresh job' hjob' hnew := by
    have hmem : job'.id ∈ s.jobs.map (·.id) := map_id_update hfn ▸ List.mem_map_of_mem hjob'
    obtain ⟨job, hjob, hid⟩ := List.mem_map.mp hmem
    exact absurd hid (hnew job hjob)
  kept job hjob _ := by
    have hmem : job.id ∈ (update id fn s.jobs).map (·.id) :=
      (map_id_update hfn).symm ▸ List.mem_map_of_mem hjob
    obtain ⟨job', hjob', hid⟩ := List.mem_map.mp hmem
    exact ⟨job', hjob', hid⟩
  bounded id kind target now heq := absurd heq (ha id kind target now)

theorem proper_step (hs : Consistent s) (hstep : step order s a = some t) : Proper s a t := by
  cases a with
  | start id kind target now => exact proper_start hs hstep
  | begin id now =>
    rw [step] at hstep
    split at hstep
    · rename_i hphase
      obtain rfl := Option.some.inj hstep
      refine proper_update hs (setRunning_id now) (fun job hjob hid => ?_) nofun
      rw [(hs.queued job hjob).mpr (hid ▸ hphase)]
      exact Next.run
    · cases hstep
  | finish id now raw err =>
    rw [step] at hstep
    split at hstep
    · rename_i hphase
      obtain rfl := Option.some.inj hstep
      refine proper_update hs (setFinished_id now raw err) (fun job hjob hid => ?_) nofun
      rw [(hs.running job hjob).mpr (hid ▸ hphase)]
      rcases status_setFinished now raw err job with h | h <;> rw [h]
      · exact Next.succeed
      · exact Next.fail
    · cases hstep
  | query =>
    obtain rfl := Option.some.inj hstep
    constructor
    · intro job hjob job' hjob' hid
      rw [List.inj_on_of_nodup_map hs.ids hjob' hjob hid]
      exact Or.inl rfl
    · exact fun job' hjob' hnew => absurd rfl (hnew job' hjob')
    · exact fun job hjob _ => ⟨job, hjob, rfl⟩
    · exact nofun

theorem issued_of_reaches (h : Reaches (step order) Free s t) : s.issued ⊆ t.issued := by
  induction h with
  | refl => exact List.Subset.refl _
  | @tail _ _ a _ _ hstep ih =>
    refine List.Subset.trans ih ?_
    cases a with
    | start id kind target now =>
      rw [step] at hstep
      split at hstep
      · cases hstep
      · obtain rfl := Option.some.inj hstep
        exact List.subset_cons_self ..
    | begin id now =>
      rw [step] at hstep
      split at hstep
      · obtain rfl := Option.some.inj hstep
        exact List.Subset.refl _
      · cases hstep
    | finish id now raw err =>
      rw [step] at hstep
      split at hstep
      · obtain rfl := Option.some.inj hstep
        exact List.Subset.refl _
      · cases hstep
    | query =>
      obtain rfl := Option.some.inj hstep
      exact List.Subset.refl _

/-- Over a whole run a job's status only moves along its ways. -/
theorem moves_along_run (hs : Reaches (step order) Free .init s)
    (h : Reaches (step order) Free s t) {job job' : BackgroundJob} (hjob : job ∈ s.jobs)
    (hjob' : job' ∈ t.jobs) (hid : job'.id = job.id) :
    Relation.ReflTransGen Next job.status job'.status := by
  induction h generalizing job' with
  | refl =>
    rw [List.inj_on_of_nodup_map (consistent_of_reaches hs).ids hjob' hjob hid]
  | @tail u _ _ hrun _ hstep ih =>
    have hproper := proper_step (consistent_of_reaches (hs.trans hrun)) hstep
    by_cases hthere : ∃ middle ∈ u.jobs, middle.id = job'.id
    · obtain ⟨middle, hmiddle, hsame⟩ := hthere
      have hbefore := ih hmiddle (hsame.trans hid)
      rcases hproper.moves middle hmiddle job' hjob' hsame.symm with heq | hnext
      · rwa [heq]
      · exact hbefore.tail hnext
    · -- An id that was given out is not given out again.
      have hnew := (hproper.fresh job' hjob' fun middle hmiddle hsame =>
        hthere ⟨middle, hmiddle, hsame⟩).2
      rw [hid] at hnew
      exact absurd (issued_of_reaches hrun ((consistent_of_reaches hs).issued job hjob)) hnew

/-- In every run, however the goroutines are interleaved, each step is proper and statuses move along
their ways. -/
theorem jobs_proper (s : State) (h : Reaches (step order) Free .init s) :
    (∀ a t, step order s a = some t → Proper s a t) ∧
      ∀ t, Reaches (step order) Free s t → ∀ job ∈ s.jobs, ∀ job' ∈ t.jobs, job'.id = job.id →
        Relation.ReflTransGen Next job.status job'.status :=
  ⟨fun _ _ hstep => proper_step (consistent_of_reaches h) hstep,
    fun _ hrun _ hjob _ hjob' hid => moves_along_run h hrun hjob hjob' hid⟩

/-- By insertion. -/
def oldestFirst : OldestFirst where
  sort jobs := jobs.insertionSort fun a b => a.createdAt ≤ b.createdAt
  perm jobs := List.perm_insertionSort _ jobs
  sorted jobs :=
    haveI : Std.Total fun a b : BackgroundJob => a.createdAt ≤ b.createdAt :=
      ⟨fun a b => Nat.le_total a.createdAt b.createdAt⟩
    haveI : IsTrans BackgroundJob fun a b => a.createdAt ≤ b.createdAt :=
      ⟨fun _ _ _ => Nat.le_trans⟩
    List.pairwise_insertionSort _ jobs

def jobName (i : ℕ) : String := String.ofList (List.replicate (i + 1) 'j')

/-- A job that is over, behind it one that runs, and as many as are kept that are started then. -/
def busyActions : List Action :=
  [.start (jobName 0) "backup" "" 0, .begin (jobName 0) 0, .finish (jobName 0) 0 "" none,
    .start (jobName 1) "backup" "" 1, .begin (jobName 1) 1] ++
  (List.range 39).map fun i => .start (jobName (i + 2)) "pull" "" (i + 2)

/-- The job that is over is pruned. -/
theorem busy_proper : ∃ s, run (step oldestFirst) .init busyActions = some s ∧
    s.jobs.length = 40 ∧ (∀ job ∈ s.jobs, job.id ≠ jobName 0) ∧
    (∀ a t, step oldestFirst s a = some t → Proper s a t) ∧
    ∀ t, Reaches (step oldestFirst) Free s t → ∀ job ∈ s.jobs, ∀ job' ∈ t.jobs,
      job'.id = job.id → Relation.ReflTransGen Next job.status job'.status := by
  have hrun : (run (step oldestFirst) .init busyActions).map (fun s =>
      (s.jobs.length, s.jobs.all fun job => decide (job.id ≠ jobName 0))) = some (40, true) := by
    decide +kernel
  obtain ⟨s, hs, heq⟩ := Option.map_eq_some_iff.mp hrun
  obtain ⟨hlength, hpruned⟩ := Prod.mk.inj heq
  exact ⟨s, hs, hlength, fun job hjob => of_decide_eq_true (List.all_eq_true.mp hpruned job hjob),
    jobs_proper s (reaches_of_run hs)⟩

end LukePanel.Agent.Jobs
