import LukePanel.Library.HeldDocuments
import LukePanel.LoadOrCreate
import LukePanel.Server.ConfigHandlers

/-! # Processes that start on one configuration

The panel, its agent, the first installation and the scheduled backup are processes that call
`LoadOrCreateWithOptions` on the same file, under a lock that ends with its process. A panel then
saves what its requests make of the configuration, without that lock. Any process can be killed
at any moment. -/
namespace LukePanel.Startups
open LukePanel.Auth.Password LukePanel.Auth.Totp LukePanel.Library LukePanel.Library.Machine
open LukePanel.LoadOrCreate LukePanel.Server.ConfigHandlers

/-- The state of a panel at work. -/
abbrev Store := LockedStore.State Config Request Config

inductive Process where
  | idle
  /-- Waits for the lock. -/
  | waiting (options : InitOptions)
  /-- Has the lock. -/
  | entered (options : InitOptions)
  | saving (p : Prepared)
  /-- Has saved, or has nothing to save. -/
  | leaving (p : Prepared)
  /-- Has returned from the call. -/
  | returned (cfg : Config)
  /-- A panel; its file is the one of the state. -/
  | serving (store : Store)

/-- `results` is what the calls have returned. -/
structure State where
  file : File
  owner : Option Nat
  process : Nat → Process
  results : List (Config × String)

inductive Act where
  | start (i : Nat) (options : InitOptions)
  /-- A call that ends before it has the lock. -/
  | refuse (i : Nat)
  | lock (i : Nat)
  | read (i : Nat) (a : Answers)
  | save (i : Nat) (fails : Option String)
  | leave (i : Nat)
  | serve (i : Nat)
  | request (i : Nat) (act : LockedStore.Act Request Config)
  | kill (i : Nat)

def start (file : File) : State := ⟨file, none, fun _ => .idle, []⟩

namespace State

def move (s : State) (i : Nat) (p : Process) : State :=
  { s with process := Function.update s.process i p }

@[simp] theorem move_file (s : State) (i : Nat) (p : Process) : (s.move i p).file = s.file := rfl

@[simp] theorem move_owner (s : State) (i : Nat) (p : Process) : (s.move i p).owner = s.owner := rfl

@[simp] theorem move_results (s : State) (i : Nat) (p : Process) :
    (s.move i p).results = s.results := rfl

@[simp] theorem move_self (s : State) (i : Nat) (p : Process) : (s.move i p).process i = p :=
  Function.update_self ..

theorem move_ne (s : State) {i j : Nat} (p : Process) (h : j ≠ i) :
    (s.move i p).process j = s.process j := Function.update_of_ne h ..

/-- What holds of the other processes and of the one that moves. -/
theorem forall_move {Q : Process → Prop} {s s' : State} {i : Nat} {p : Process}
    (hs : ∀ j, j ≠ i → Q (s.process j)) (hprocess : s'.process = s.process) (hp : Q p) (j : Nat) :
    Q ((s'.move i p).process j) := by
  by_cases hj : j = i
  · rw [hj, move_self]
    exact hp
  · rw [move_ne s' p hj, hprocess]
    exact hs j hj

end State

/-- What a panel works on. -/
def onFile (store : Store) (cfg : Config) : Store := { store with file := cfg }

variable (classes : CharClasses) (argon2 : Argon2) (macs : Macs)

def step (s : State) : Act → Option State
  | .start i options =>
    match s.process i with
    | .idle => some (s.move i (.waiting options))
    | _ => none
  | .refuse i =>
    match s.process i with
    | .waiting _ => some (s.move i .idle)
    | _ => none
  | .lock i =>
    match s.owner, s.process i with
    | none, .waiting options => some ({ s with owner := some i }.move i (.entered options))
    | _, _ => none
  | .read i a =>
    match s.process i with
    | .entered options =>
      match prepare classes argon2 options a s.file with
      | .error _ => some ({ s with owner := none }.move i .idle)
      | .ok p => some (s.move i (if p.changed = true then .saving p else .leaving p))
    | _ => none
  | .save i fails =>
    match s.process i with
    | .saving p =>
      match LoadOrCreate.save p.cfg fails with
      | .error _ => some ({ s with owner := none }.move i .idle)
      | .ok file => some ({ s with file }.move i (.leaving p))
    | _ => none
  | .leave i =>
    match s.process i with
    | .leaving p => some ({ s with
        owner := none
        results := s.results ++ [(p.cfg, p.password)] }.move i (.returned p.cfg))
    | _ => none
  | .serve i =>
    match s.process i with
    | .returned cfg => some (s.move i (.serving (LockedStore.start cfg)))
    | _ => none
  | .request i act =>
    match s.process i, s.file with
    | .serving store, .holds cfg _ =>
      match LockedStore.step (panel macs) (onFile store cfg) act with
      | none => none
      | some store =>
        if act.saves = true then
          -- `Save` validates
          if store.file.validate = .ok () then
            some ({ s with file := .holds store.file false }.move i (.serving store))
          else none
        else some (s.move i (.serving store))
    | _, _ => none
  | .kill i => some ({ s with owner := if s.owner = some i then none else s.owner }.move i .idle)

/-- What an action found and what it did. -/
inductive Did (s : State) : Act → State → Prop
  | started {i : Nat} {options : InitOptions} : s.process i = .idle →
      Did s (.start i options) (s.move i (.waiting options))
  | refused {i : Nat} {options : InitOptions} : s.process i = .waiting options →
      Did s (.refuse i) (s.move i .idle)
  | locked {i : Nat} {options : InitOptions} : s.owner = none → s.process i = .waiting options →
      Did s (.lock i) ({ s with owner := some i }.move i (.entered options))
  | unprepared {i : Nat} {a : Answers} {options : InitOptions} : s.process i = .entered options →
      Did s (.read i a) ({ s with owner := none }.move i .idle)
  | prepared {i : Nat} {a : Answers} {options : InitOptions} {p : Prepared} :
      s.process i = .entered options → prepare classes argon2 options a s.file = .ok p →
      Did s (.read i a) (s.move i (if p.changed = true then .saving p else .leaving p))
  | unsaved {i : Nat} {fails : Option String} {p : Prepared} : s.process i = .saving p →
      Did s (.save i fails) ({ s with owner := none }.move i .idle)
  | saved {i : Nat} {fails : Option String} {p : Prepared} : s.process i = .saving p →
      p.cfg.validate = .ok () →
      Did s (.save i fails) ({ s with file := .holds p.cfg false }.move i (.leaving p))
  | left {i : Nat} {p : Prepared} : s.process i = .leaving p →
      Did s (.leave i) ({ s with
        owner := none
        results := s.results ++ [(p.cfg, p.password)] }.move i (.returned p.cfg))
  | served {i : Nat} {cfg : Config} : s.process i = .returned cfg →
      Did s (.serve i) (s.move i (.serving (LockedStore.start cfg)))
  | kept {i : Nat} {act : LockedStore.Act Request Config} {store store' : Store} {cfg : Config}
      {trustedDevices : Bool} : s.process i = .serving store → s.file = .holds cfg trustedDevices →
      LockedStore.step (panel macs) (onFile store cfg) act = some store' → act.saves = false →
      Did s (.request i act) (s.move i (.serving store'))
  | changed {i : Nat} {act : LockedStore.Act Request Config} {store store' : Store} {cfg : Config}
      {trustedDevices : Bool} : s.process i = .serving store → s.file = .holds cfg trustedDevices →
      LockedStore.step (panel macs) (onFile store cfg) act = some store' → act.saves = true →
      store'.file.validate = .ok () →
      Did s (.request i act) ({ s with file := .holds store'.file false }.move i (.serving store'))
  | killed {i : Nat} :
      Did s (.kill i) ({ s with owner := if s.owner = some i then none else s.owner }.move i .idle)

variable {classes argon2 macs} {s t : State} {a : Act}

theorem did_of_step (h : step classes argon2 macs s a = some t) : Did classes argon2 macs s a t := by
  cases a with
  | start i options =>
    simp only [step] at h
    split at h
    · cases h; exact .started ‹_›
    · cases h
  | refuse i =>
    simp only [step] at h
    split at h
    · cases h; exact .refused ‹_›
    · cases h
  | lock i =>
    simp only [step] at h
    split at h
    · cases h; exact .locked ‹_› ‹_›
    · cases h
  | read i a =>
    simp only [step] at h
    split at h
    · split at h <;> cases h
      · exact .unprepared ‹_›
      · exact .prepared ‹_› ‹_›
    · cases h
  | save i fails =>
    simp only [step] at h
    split at h
    · split at h <;> cases h
      · exact .unsaved ‹_›
      · rename_i hsave
        obtain ⟨hvalid, rfl⟩ := save_ok hsave
        exact .saved ‹_› hvalid
    · cases h
  | leave i =>
    simp only [step] at h
    split at h
    · cases h; exact .left ‹_›
    · cases h
  | serve i =>
    simp only [step] at h
    split at h
    · cases h; exact .served ‹_›
    · cases h
  | request i act =>
    simp only [step] at h
    split at h
    · split at h
      · cases h
      · split at h
        · split at h <;> cases h
          exact .changed ‹_› ‹_› ‹_› ‹_› ‹_›
        · cases h
          rename_i hsaves
          exact .kept ‹_› ‹_› ‹_› (Bool.eq_false_iff.mpr hsaves)
    · cases h
  | kill i => cases h; exact .killed

/-! ## A call on its own -/

/-- A step of a call that is left alone. -/
def Act.OfCall : Act → Prop
  | .start .. | .lock _ | .read .. | .save .. | .leave _ => True
  | _ => False

/-- With the lock free and no other step between its own, a call does what
`loadOrCreateWithOptions` says. -/
theorem reaches_call {guard : State → Act → Prop} (hguard : ∀ s a, a.OfCall → guard s a) {i : Nat}
    {options : InitOptions} {answers : Answers} {fails : Option String} {cfg : Config} {password : String}
    {file : File} (hidle : s.process i = .idle) (hfree : s.owner = none)
    (h : loadOrCreateWithOptions classes argon2 options none answers fails s.file =
      (.ok (cfg, password), file)) :
    Reaches (step classes argon2 macs) guard s ⟨file, none,
      Function.update s.process i (.returned cfg), s.results ++ [(cfg, password)]⟩ := by
  have hentered : Reaches (step classes argon2 macs) guard s
      ({ s with owner := some i }.move i (.entered options)) := by
    refine (Reaches.refl.tail (a := .start i options) (hguard _ (.start i options) trivial)
      (by rw [step, hidle])).tail (a := .lock i) (hguard _ (.lock i) trivial) ?_
    simp only [step, State.move_owner, hfree, State.move_self]
    simp only [State.move, Function.update_idem]
  unfold loadOrCreateWithOptions at h
  cases hp : prepare classes argon2 options answers s.file with
  | error err => rw [hp] at h; cases h
  | ok p =>
    simp only [hp] at h
    have hread := hentered.tail (a := .read i answers) (hguard _ (.read i answers) trivial)
      (show _ = some ({ s with owner := some i }.move i (if p.changed = true then .saving p else .leaving p)) by
        simp only [step, State.move_self, State.move_file, hp]
        simp only [State.move, Function.update_idem])
    have hleave {file : File} (hleaving : Reaches (step classes argon2 macs) guard s
        ({ s with file, owner := some i }.move i (.leaving p))) :
        Reaches (step classes argon2 macs) guard s ⟨file, none,
          Function.update s.process i (.returned p.cfg), s.results ++ [(p.cfg, p.password)]⟩ := by
      refine hleaving.tail (a := .leave i) (hguard _ (.leave i) trivial) ?_
      simp only [step, State.move_self, State.move_results]
      simp only [State.move, Function.update_idem]
    split at h
    · rename_i hchanged
      rw [if_pos hchanged] at hread
      cases hsave : LoadOrCreate.save p.cfg fails with
      | error err => rw [hsave] at h; cases h
      | ok saved =>
        rw [hsave] at h
        cases h
        refine hleave (hread.tail (a := .save i fails)
          (hguard _ (.save i fails) trivial) ?_)
        simp only [step, State.move_self, hsave]
        simp only [State.move, Function.update_idem]
    · rename_i hchanged
      rw [if_neg hchanged] at hread
      cases h
      exact hleave hread

/-! ## The lock -/

/-- In its call, with the lock. -/
def Process.Inside : Process → Prop
  | .entered _ | .saving _ | .leaving _ => True
  | _ => False

def Locked (s : State) : Prop := ∀ i, (s.process i).Inside → s.owner = some i

theorem Locked.alone (hs : Locked s) {i j : Nat} (hi : (s.process i).Inside) (hne : j ≠ i) :
    ¬(s.process j).Inside := fun hj => hne (Option.some.inj ((hs j hj).symm.trans (hs i hi)))

theorem locked_move {s' : State} {i : Nat} {p : Process} (hprocess : s'.process = s.process)
    (hp : p.Inside → s'.owner = some i)
    (hothers : ∀ j, j ≠ i → (s.process j).Inside → s'.owner = some j) : Locked (s'.move i p) := by
  intro j hj
  by_cases hji : j = i
  · subst hji
    rw [State.move_self] at hj
    exact hp hj
  · rw [State.move_ne s' p hji, hprocess] at hj
    exact hothers j hji hj

theorem locked_step (hs : Locked s) (h : Did classes argon2 macs s a t) : Locked t := by
  have hinside {i : Nat} {p : Process} (hphase : s.process i = p) (hp : p.Inside) : (s.process i).Inside :=
    hphase ▸ hp
  cases h with
  | started _ | refused _ | served _ | kept _ _ _ _ | changed _ _ _ _ _ =>
    exact locked_move rfl False.elim fun j _ => hs j
  | locked hfree _ =>
    exact locked_move rfl (fun _ => rfl) fun j _ hj => absurd (hs j hj) (by rw [hfree]; nofun)
  | unprepared hphase =>
    exact locked_move rfl False.elim fun j hne hj =>
      absurd hj (hs.alone (hinside hphase trivial) hne)
  | prepared hphase _ =>
    exact locked_move rfl (fun _ => hs _ (hinside hphase trivial)) fun j _ => hs j
  | unsaved hphase =>
    exact locked_move rfl False.elim fun j hne hj =>
      absurd hj (hs.alone (hinside hphase trivial) hne)
  | saved hphase _ => exact locked_move rfl (fun _ => hs _ (hinside hphase trivial)) fun j _ => hs j
  | left hphase =>
    exact locked_move rfl False.elim fun j hne hj =>
      absurd hj (hs.alone (hinside hphase trivial) hne)
  | @killed i =>
    refine locked_move rfl False.elim fun j hne hj => ?_
    have howner := hs j hj
    rw [if_neg fun hi => hne (Option.some.inj (howner.symm.trans hi)), howner]

/-! ## The identity of the installation -/

/-- Something has come of the file for the process. -/
def Process.Past : Process → Prop
  | .leaving _ | .returned _ | .serving _ => True
  | _ => False

/-- What all the configurations have that a process holds. -/
def Process.All (P K : Config → Prop) : Process → Prop
  | .saving p | .leaving p => P p.cfg
  | .returned cfg => P cfg
  | .serving store => store.All P K
  | _ => True

theorem Process.All.mono {P P' K : Config → Prop} {p : Process} (hp : p.All P K)
    (h : ∀ c, P c → P' c) : p.All P' K := by
  cases p with
  | saving | leaving | returned => exact h _ hp
  | serving => exact LockedStore.State.All.mono hp h
  | _ => trivial

/-- Outside of its call, with nothing to show for it. -/
theorem Process.all_of_not {P K : Config → Prop} {p : Process} (hinside : ¬p.Inside)
    (hpast : ¬p.Past) : p.All P K := by
  cases p with
  | saving | leaving => exact absurd trivial hinside
  | returned | serving => exact absurd trivial hpast
  | _ => trivial

def Process.IfSaving (Q : Prepared → Prop) : Process → Prop
  | .saving p => Q p
  | _ => True

def Process.IfLeaving (Q : Prepared → Prop) : Process → Prop
  | .leaving p => Q p
  | _ => True

/-- Its secrets have been made. -/
def Ripe (cfg : Config) : Prop := cfg.agentSocket ≠ "" ∧ cfg.agentSecret ≠ ""

theorem ripe_of_valid {cfg : Config} (h : cfg.validate = .ok ()) : Ripe cfg :=
  ⟨(required_of_valid h).1, (required_of_valid h).2.1⟩

structure Known (c : Config) (s : State) : Prop where
  process : ∀ i, (s.process i).All (Same c) fun _ => True
  results : ∀ e ∈ s.results, Same c e.1

theorem Known.of_same {c c' : Config} (hs : Known c s) (h : Same c c') : Known c' s :=
  ⟨fun i => (hs.process i).mono fun _ => h.symm.trans, fun e he => h.symm.trans (hs.results e he)⟩

structure Fresh (s : State) : Prop where
  results : s.results = []
  process : ∀ i, ¬(s.process i).Past

structure Inv (s : State) : Prop where
  known : ∀ {c trustedDevices}, s.file = .holds c trustedDevices → Ripe c → Known c s
  fresh : (∀ c trustedDevices, s.file = .holds c trustedDevices → ¬Ripe c) → Fresh s
  leaving : ∀ i, (s.process i).IfLeaving fun p => p.cfg.validate = .ok ()
  results : ∀ e ∈ s.results, e.1.validate = .ok ()

theorem Inv.ripe (hs : Inv s) {i : Nat} (hpast : (s.process i).Past) :
    ∃ c trustedDevices, s.file = .holds c trustedDevices ∧ Ripe c := by
  by_contra hnone
  exact (hs.fresh fun c trustedDevices hc hripe => hnone ⟨c, trustedDevices, hc, hripe⟩).process i hpast

theorem Inv.move (hs : Inv s) {s' : State} {i : Nat} {p : Process} (hfile : s'.file = s.file)
    (hresults : s'.results = s.results) (hprocess : s'.process = s.process)
    (hknown : ∀ c trustedDevices, s.file = .holds c trustedDevices → Ripe c →
      p.All (Same c) fun _ => True)
    (hpast : p.Past → ∃ c trustedDevices, s.file = .holds c trustedDevices ∧ Ripe c)
    (hleaving : p.IfLeaving fun q => q.cfg.validate = .ok ()) : Inv (s'.move i p) where
  known hc hripe := by
    rw [State.move_file, hfile] at hc
    have hsame := hs.known hc hripe
    refine ⟨State.forall_move (fun j _ => hsame.process j) hprocess (hknown _ _ hc hripe), ?_⟩
    rw [State.move_results, hresults]
    exact hsame.results
  fresh hnone := by
    rw [State.move_file, hfile] at hnone
    have hfresh := hs.fresh hnone
    refine ⟨by rw [State.move_results, hresults, hfresh.results],
      State.forall_move (Q := fun p => ¬p.Past) (fun j _ => hfresh.process j) hprocess fun hp => ?_⟩
    obtain ⟨c, trustedDevices, hc, hripe⟩ := hpast hp
    exact hnone c trustedDevices hc hripe
  leaving := State.forall_move (fun j _ => hs.leaving j) hprocess hleaving
  results := by
    rw [State.move_results, hresults]
    exact hs.results

/-- No request touches the identity. -/
theorem identity_untouched (e : Request ⊕ Config) : ∀ f ∈ identity, f ∉ touches e := by
  cases e with
  | inl r => cases r <;> simp only [touches] <;> decide
  | inr archive =>
    simp only [touches]
    decide

theorem same_of_apply {e : Request ⊕ Config} {c c' : Config} (h : (panel macs).apply c e = some c') :
    Same c c' := fun f hf => frame_apply h f (identity_untouched e f hf)

/-- The steps of a panel keep the identity. -/
theorem same_step {c : Config} {store store' : Store} {act : LockedStore.Act Request Config}
    (h : LockedStore.step (panel macs) store act = some store') (hs : store.All (Same c) fun _ => True) :
    store'.All (Same c) (fun _ => True) ∧ (act.saves = true → Same c store'.file) := by
  have hentering : act.Entering fun _ => True := by cases act <;> trivial
  obtain ⟨hall, hfile, _⟩ := LockedStore.all_step (w := panel macs)
    (fun r doc updated _ hdoc hr => hdoc.trans (same_of_apply (e := .inl r) hr))
    (fun k doc _ hdoc => hdoc.trans (same_of_apply (e := .inr k) rfl)) hentering
    (fun _ _ _ => trivial) h hs
  exact ⟨hall, hfile⟩

theorem inv_step (hlocked : Locked s) (hs : Inv s) (h : Did classes argon2 macs s a t) : Inv t := by
  cases h with
  | started _ | refused _ | locked _ _ | unprepared _ | unsaved _ | killed =>
    exact hs.move rfl rfl rfl (fun _ _ _ _ => trivial) False.elim trivial
  | @prepared i a options p hphase hp =>
    refine hs.move rfl rfl rfl (fun c trustedDevices hc hripe => ?_) (fun hpast => ?_) ?_
    · rw [hc] at hp
      have hsame := prepare_same hp hripe.1 hripe.2
      split <;> exact hsame
    · split at hpast
      · exact hpast.elim
      · rename_i hchanged
        obtain ⟨saved, hfile, _, hcurrent⟩ := prepare_unchanged hp (Bool.eq_false_iff.mpr hchanged)
        exact ⟨saved, _, hfile, ripe_of_valid hcurrent.valid⟩
    · split
      · trivial
      · rename_i hchanged
        obtain ⟨saved, _, hread, hcurrent⟩ := prepare_unchanged hp (Bool.eq_false_iff.mpr hchanged)
        rw [Process.IfLeaving, ← hread]
        exact hcurrent.valid
  | @saved i fails p hphase hvalid =>
    have hknown : Known p.cfg s ∨ Fresh s := by
      by_cases hripe : ∃ c trustedDevices, s.file = .holds c trustedDevices ∧ Ripe c
      · obtain ⟨c, trustedDevices, hc, hripe⟩ := hripe
        have hsame := hs.known hc hripe
        have hp := hsame.process i
        rw [hphase] at hp
        exact .inl (hsame.of_same hp)
      · exact .inr (hs.fresh fun c trustedDevices hc hr => hripe ⟨c, trustedDevices, hc, hr⟩)
    have hinside : (s.process i).Inside := by rw [hphase]; trivial
    constructor
    case known =>
      intro c trustedDevices hc _
      cases hc
      refine ⟨State.forall_move (s := s) (fun j hj => ?_) rfl (Same.refl _), fun e he => ?_⟩
      · rcases hknown with hknown | hfresh
        · exact hknown.process j
        · exact Process.all_of_not (hlocked.alone hinside hj) (hfresh.process j)
      · rcases hknown with hknown | hfresh
        · exact hknown.results e he
        · rw [State.move_results, hfresh.results] at he
          cases he
    case fresh => exact fun hnone => absurd (ripe_of_valid hvalid) (hnone _ _ rfl)
    case leaving => exact State.forall_move (s := s) (fun j _ => hs.leaving j) rfl hvalid
    case results => exact hs.results
  | @left i p hphase =>
    obtain ⟨c, trustedDevices, hc, hripe⟩ := hs.ripe (i := i) (by rw [hphase]; trivial)
    have hsame := hs.known hc hripe
    have hp := hsame.process i
    rw [hphase] at hp
    constructor
    case known =>
      intro c' trustedDevices' hc' _
      cases hc.symm.trans hc'
      refine ⟨State.forall_move (s := s) (fun j _ => hsame.process j) rfl hp, fun e he => ?_⟩
      rcases List.mem_append.mp he with he | he
      · exact hsame.results e he
      · rw [List.mem_singleton.mp he]
        exact hp
    case fresh => exact fun hnone => absurd hripe (hnone _ _ hc)
    case leaving => exact State.forall_move (s := s) (fun j _ => hs.leaving j) rfl trivial
    case results =>
      intro e he
      rcases List.mem_append.mp he with he | he
      · exact hs.results e he
      · rw [List.mem_singleton.mp he]
        have hleaving := hs.leaving i
        rw [hphase] at hleaving
        exact hleaving
  | @served i cfg hphase =>
    refine hs.move rfl rfl rfl (fun c trustedDevices hc hripe => ?_)
      (fun _ => hs.ripe (i := i) (by rw [hphase]; trivial)) trivial
    have hp := (hs.known hc hripe).process i
    rw [hphase] at hp
    exact LockedStore.all_start hp
  | @kept i act store store' cfg trustedDevices hphase hfile hstep _ =>
    refine hs.move rfl rfl rfl (fun c trustedDevices hc hripe => ?_)
      (fun _ => hs.ripe (i := i) (by rw [hphase]; trivial)) trivial
    have hp := (hs.known hc hripe).process i
    rw [hphase] at hp
    exact (same_step hstep ⟨hp.memory, hp.thread⟩).1
  | @changed i act store store' cfg trustedDevices hphase hfile hstep hsaves hvalid =>
    obtain ⟨c, trustedDevices', hc, hripe⟩ := hs.ripe (i := i) (by rw [hphase]; trivial)
    have hsame := hs.known hc hripe
    have hp := hsame.process i
    rw [hphase] at hp
    obtain ⟨hall, hnew⟩ := same_step hstep ⟨hp.memory, hp.thread⟩
    have hknown := hsame.of_same (hnew hsaves)
    constructor
    case known =>
      intro c' trustedDevices' hc' _
      cases hc'
      exact ⟨State.forall_move (s := s) (fun j _ => hknown.process j) rfl
        (hall.mono fun _ => (hnew hsaves).symm.trans), hknown.results⟩
    case fresh => exact fun hnone => absurd (ripe_of_valid hvalid) (hnone _ _ rfl)
    case leaving => exact State.forall_move (s := s) (fun j _ => hs.leaving j) rfl trivial
    case results => exact hs.results

theorem inv_start (file : File) : Locked (start file) ∧ Inv (start file) := by
  refine ⟨fun _ => False.elim, ⟨fun _ _ => ?_, fun _ => ?_, fun _ => trivial, nofun⟩⟩
  · exact ⟨fun _ => trivial, nofun⟩
  · exact ⟨rfl, fun _ => id⟩

theorem inv_of_reaches {file : File} {guard : State → Act → Prop}
    (h : Reaches (step classes argon2 macs) guard (start file) s) : Locked s ∧ Inv s :=
  h.invariant (P := fun s => Locked s ∧ Inv s) (inv_start file) fun _ _ _ hs _ hstep =>
    ⟨locked_step hs.1 (did_of_step hstep), inv_step hs.1 hs.2 (did_of_step hstep)⟩

/-! ## The first password -/

variable {pbkdf2 : HashFunction → List UInt8 → List UInt8 → Nat → Nat → List UInt8}

/-- A password that is returned is the one of the configuration. -/
def Opens (argon2 : Argon2) (pbkdf2 : HashFunction → List UInt8 → List UInt8 → Nat → Nat → List UInt8)
    (cfg : Config) (password : String) : Prop :=
  password ≠ "" → verifyPassword argon2 pbkdf2 password cfg.passwordHash = .ok true

structure Passwords (argon2 : Argon2)
    (pbkdf2 : HashFunction → List UInt8 → List UInt8 → Nat → Nat → List UInt8) (s : State) : Prop where
  saving : ∀ i, (s.process i).IfSaving fun p =>
    Opens argon2 pbkdf2 p.cfg p.password ∧ (p.password ≠ "" → s.file = .missing)
  leaving : ∀ i, (s.process i).IfLeaving fun p =>
    Opens argon2 pbkdf2 p.cfg p.password ∧ (p.password ≠ "" → ∀ e ∈ s.results, e.2 = "")
  results : ∀ e ∈ s.results, Opens argon2 pbkdf2 e.1 e.2
  single : (s.results.filter (·.2 ≠ "")).length ≤ 1

theorem Process.ifSaving_of_not {Q : Prepared → Prop} {p : Process} (h : ¬p.Inside) : p.IfSaving Q := by
  cases p with
  | saving => exact absurd trivial h
  | _ => trivial

theorem Process.ifLeaving_of_not {Q : Prepared → Prop} {p : Process} (h : ¬p.Inside) :
    p.IfLeaving Q := by
  cases p with
  | leaving => exact absurd trivial h
  | _ => trivial

theorem Passwords.move (hs : Passwords argon2 pbkdf2 s) {s' : State} {i : Nat} {p : Process}
    (hfile : s'.file = s.file) (hresults : s'.results = s.results) (hprocess : s'.process = s.process)
    (hsaving : p.IfSaving fun q =>
      Opens argon2 pbkdf2 q.cfg q.password ∧ (q.password ≠ "" → s.file = .missing))
    (hleaving : p.IfLeaving fun q =>
      Opens argon2 pbkdf2 q.cfg q.password ∧ (q.password ≠ "" → ∀ e ∈ s.results, e.2 = "")) :
    Passwords argon2 pbkdf2 (s'.move i p) := by
  constructor
  case saving =>
    rw [State.move_file, hfile]
    exact State.forall_move (fun j _ => hs.saving j) hprocess hsaving
  case leaving =>
    rw [State.move_results, hresults]
    exact State.forall_move (fun j _ => hs.leaving j) hprocess hleaving
  case results =>
    rw [State.move_results, hresults]
    exact hs.results
  case single =>
    rw [State.move_results, hresults]
    exact hs.single

theorem passwords_step (hlocked : Locked s) (hinv : Inv s) (hs : Passwords argon2 pbkdf2 s)
    (h : Did classes argon2 macs s a t) : Passwords argon2 pbkdf2 t := by
  cases h with
  | started _ | refused _ | locked _ _ | unprepared _ | unsaved _ | killed | served _ | kept _ _ _ _ =>
    exact hs.move rfl rfl rfl trivial trivial
  | @prepared i a options p hphase hp =>
    have hopens : Opens argon2 pbkdf2 p.cfg p.password := fun hne => (prepare_password hp hne).2 pbkdf2
    have hmissing (hne : p.password ≠ "") : s.file = .missing := (prepare_password hp hne).1
    refine hs.move rfl rfl rfl ?_ ?_
    · split
      · exact ⟨hopens, hmissing⟩
      · trivial
    · split
      · trivial
      · rename_i hchanged
        refine ⟨hopens, fun hne => ?_⟩
        obtain ⟨saved, hfile, _⟩ := prepare_unchanged hp (Bool.eq_false_iff.mpr hchanged)
        rw [hmissing hne] at hfile
        cases hfile
  | @saved i fails p hphase hvalid =>
    have hp := hs.saving i
    rw [hphase] at hp
    obtain ⟨hopens, hmissing⟩ := hp
    have halone {j : Nat} (hj : j ≠ i) : ¬(s.process j).Inside :=
      hlocked.alone (by rw [hphase]; trivial) hj
    constructor
    case saving =>
      exact State.forall_move (s := s) (fun j hj => Process.ifSaving_of_not (halone hj)) rfl trivial
    case leaving =>
      refine State.forall_move (s := s) (fun j _ => hs.leaving j) rfl ⟨hopens, fun hne e he => ?_⟩
      have hfresh := hinv.fresh fun c trustedDevices hc => by rw [hmissing hne] at hc; cases hc
      rw [State.move_results, hfresh.results] at he
      cases he
    case results => exact hs.results
    case single => exact hs.single
  | @left i p hphase =>
    have hp := hs.leaving i
    rw [hphase] at hp
    obtain ⟨hopens, hothers⟩ := hp
    have halone {j : Nat} (hj : j ≠ i) : ¬(s.process j).Inside :=
      hlocked.alone (by rw [hphase]; trivial) hj
    constructor
    case saving => exact State.forall_move (s := s) (fun j _ => hs.saving j) rfl trivial
    case leaving =>
      exact State.forall_move (s := s) (fun j hj => Process.ifLeaving_of_not (halone hj)) rfl trivial
    case results =>
      intro e he
      rcases List.mem_append.mp he with he | he
      · exact hs.results e he
      · rw [List.mem_singleton.mp he]
        exact hopens
    case single =>
      rw [State.move_results, List.filter_append, List.length_append]
      by_cases hne : p.password = ""
      · rw [List.filter_singleton, hne]
        exact hs.single
      · have hnone : s.results.filter (·.2 ≠ "") = [] :=
          List.filter_eq_nil_iff.mpr fun e he => by simp [hothers hne e he]
        rw [hnone, List.length_nil, Nat.zero_add]
        exact List.length_filter_le _ _
  | @changed i act store store' cfg trustedDevices hphase hfile hstep hsaves hvalid =>
    constructor
    case saving =>
      refine State.forall_move (s := s) (fun j _ => ?_) rfl trivial
      have hq := hs.saving j
      cases hj : s.process j with
      | saving q =>
        rw [hj] at hq
        refine ⟨hq.1, fun hne => ?_⟩
        rw [hq.2 hne] at hfile
        cases hfile
      | _ => trivial
    case leaving => exact State.forall_move (s := s) (fun j _ => hs.leaving j) rfl trivial
    case results => exact hs.results
    case single => exact hs.single

/-- **All processes have one installation.** However many of them start, in whatever order they
take their steps and are killed, whatever was in the file and whatever the panels save meanwhile:
what the calls have returned agrees on the endpoints and the secrets, with one another and with
the panels at work; it is valid; and at most one of them has made a password, which is the one of
its configuration. -/
theorem results_agree {file : File}
    (h : Reaches (step classes argon2 macs) Free (start file) s) :
    (∀ e ∈ s.results, ∀ e' ∈ s.results, ∀ f ∈ identity, e.1.get f = e'.1.get f) ∧
    (∀ e ∈ s.results, ∀ i store, s.process i = .serving store →
      ∀ f ∈ identity, e.1.get f = store.memory.get f) ∧
    (∀ e ∈ s.results, e.1.validate = .ok () ∧
      (e.2 ≠ "" → verifyPassword argon2 pbkdf2 e.2 e.1.passwordHash = .ok true)) ∧
    (s.results.filter (·.2 ≠ "")).length ≤ 1 := by
  obtain ⟨⟨hlocked, hinv⟩, hpasswords⟩ :=
    h.invariant (P := fun s => (Locked s ∧ Inv s) ∧ Passwords argon2 pbkdf2 s)
      ⟨inv_start file, fun _ => trivial, fun _ => trivial, nofun, Nat.zero_le 1⟩ fun _ _ _ hs _ hstep =>
        ⟨⟨locked_step hs.1.1 (did_of_step hstep), inv_step hs.1.1 hs.1.2 (did_of_step hstep)⟩,
          passwords_step hs.1.1 hs.1.2 hs.2 (did_of_step hstep)⟩
  have hknown {e : Config × String} (he : e ∈ s.results) : ∃ c, Known c s := by
    by_contra hnone
    have hfresh := hinv.fresh fun c trustedDevices hc hripe => hnone ⟨c, hinv.known hc hripe⟩
    rw [hfresh.results] at he
    cases he
  refine ⟨fun e he e' he' => ?_, fun e he i store hi => ?_, fun e he => ?_, hpasswords.single⟩
  · obtain ⟨c, hc⟩ := hknown he
    exact (hc.results e he).symm.trans (hc.results e' he')
  · obtain ⟨c, hc⟩ := hknown he
    have hstore := hc.process i
    rw [hi] at hstore
    exact (hc.results e he).symm.trans hstore.memory
  · exact ⟨hinv.results e he, hpasswords.results e he⟩

def asciiClasses : CharClasses := ⟨Char.isLower, Char.isUpper, Char.isDigit⟩

/-- The options of an installation that is given its password. -/
def firstOptions : InitOptions := ⟨"", "Strong-Install-Password-2026!", "", ""⟩

/-- Every call succeeds, and what is random is zero. -/
def zeroAnswers : Answers where
  agentSecret := some ⟨List.replicate 48 0, rfl⟩
  password := none
  salt := some ⟨List.replicate 24 0, rfl⟩
  sessionSecret := some ⟨List.replicate 48 0, rfl⟩
  dataDir := none

theorem firstOptions_succeed : ∃ cfg file, loadOrCreateWithOptions asciiClasses Argon2.zeros firstOptions
    none zeroAnswers none .missing = (.ok (cfg, firstOptions.password), file) := by
  have hpassword : (loadOrCreateWithOptions asciiClasses Argon2.zeros firstOptions none zeroAnswers none
      .missing).1.toOption.map Prod.snd = some firstOptions.password := by decide +kernel
  cases h : loadOrCreateWithOptions asciiClasses Argon2.zeros firstOptions none zeroAnswers none .missing with
  | mk result file =>
    rw [h] at hpassword
    cases result with
    | error err => cases hpassword
    | ok made => exact ⟨made.1, file, by rw [← Option.some.inj hpassword]⟩

def noMacs : Macs := ⟨fun _ _ => "", fun _ _ => "", fun _ _ => ""⟩

/-- An installation, and the agent after it. -/
theorem results_agree_installed : ∃ s cfg,
    Reaches (step asciiClasses Argon2.zeros noMacs) Free (start .missing) s ∧
    s.results = [(cfg, firstOptions.password), (cfg, "")] ∧
    verifyPassword Argon2.zeros (fun _ _ _ _ _ => []) firstOptions.password cfg.passwordHash =
      .ok true := by
  obtain ⟨cfg, file, hfirst⟩ := firstOptions_succeed
  have hinstalled : Reaches (step asciiClasses Argon2.zeros noMacs) Free (start .missing) _ :=
    reaches_call (i := 0) (fun _ _ _ => trivial) rfl rfl hfirst
  have hagain : loadOrCreateWithOptions asciiClasses Argon2.zeros firstOptions none zeroAnswers none file =
      (.ok (cfg, ""), file) := load_again hfirst
  have hagent := hinstalled.trans (reaches_call (i := 1) (fun _ _ _ => trivial) rfl rfl hagain)
  refine ⟨_, cfg, hagent, rfl, ?_⟩
  exact ((results_agree hagent).2.2.1 (cfg, firstOptions.password) List.mem_cons_self).2
    (show firstOptions.password ≠ "" by decide)

end LukePanel.Startups
