import LukePanel.Startups

/-! # What a restart finds

One process at a time is a panel, and its imports come from panels that serve the whole file
system. Then a start saves nothing once another has returned, so that nothing comes between the
saves of the panel, and the next start goes on where the panel has stopped. -/
namespace LukePanel.Startups
open LukePanel.Auth.Password LukePanel.Auth.Totp LukePanel.Library LukePanel.Library.Machine
open LukePanel.LoadOrCreate LukePanel.Server.ConfigHandlers

def Rooted (cfg : Config) : Prop := servesRoot cfg.allowedRoots = true

/-- Only `slot` becomes a panel; its requests save in order, and its imports are rooted. -/
def Calm (macs : Macs) (slot : Nat) (s : State) : Act → Prop
  | .serve i => i = slot
  | .request i act => ∀ store cfg trustedDevices, s.process i = .serving store →
      s.file = .holds cfg trustedDevices → LockedStore.Ordered (panel macs) (onFile store cfg) act ∧
        ∀ j archive, act = .copy j archive → Rooted archive
  | _ => True

def Process.IfServing (Q : Store → Prop) : Process → Prop
  | .serving store => Q store
  | _ => True

/-- What is read of the file is what would be read of the configuration. -/
def Reads (file : File) (cfg : Config) : Prop :=
  ∃ saved, file = .holds saved false ∧ saved.decoded = cfg.decoded

/-- From its reading on, the file is what the panel has read or saved. -/
def Follows (macs : Macs) (s : State) : Process → Prop
  | .leaving p => Reads s.file p.cfg
  | .returned cfg => Reads s.file cfg ∧ ∃ password, (cfg, password) ∈ s.results
  | .serving store => ∃ doc init password, Reads s.file doc ∧ (init, password) ∈ s.results ∧
      Reaches (LockedStore.step (panel macs)) (LockedStore.Ordered (panel macs))
        (LockedStore.start init) (onFile store doc)
  | _ => True

/-- The file is as a start leaves it, and none is about to save. -/
def Settled (s : State) : Prop := ∃ cfg, s.file = .holds cfg false ∧ Current cfg ∧
  ∀ i, (s.process i).IfSaving fun _ => False

structure Tidy (macs : Macs) (slot : Nat) (s : State) : Prop where
  roots : ∀ i, (s.process i).All Rooted Rooted
  settled : ¬Fresh s → Settled s
  only : ∀ i, i ≠ slot → (s.process i).IfServing fun _ => False
  follows : Follows macs s (s.process slot)

variable {classes : CharClasses} {argon2 : Argon2} {macs : Macs} {slot : Nat} {s t : State} {a : Act}

theorem Tidy.settled_of_past (hs : Tidy macs slot s) {i : Nat} (hpast : (s.process i).Past) : Settled s :=
  hs.settled fun hfresh => hfresh.process i hpast

theorem Follows.of_not {p : Process} (h : ¬p.Past) : Follows macs s p := by
  cases p with
  | leaving | returned | serving => exact absurd trivial h
  | _ => trivial

theorem Follows.mono {s' : State} {p : Process} (h : Follows macs s p) (hfile : s'.file = s.file)
    (hresults : ∀ e ∈ s.results, e ∈ s'.results) : Follows macs s' p := by
  cases p with
  | leaving => rwa [Follows, hfile]
  | returned =>
    rw [Follows, hfile]
    exact ⟨h.1, h.2.imp fun _ => hresults _⟩
  | serving =>
    obtain ⟨doc, init, password, hdoc, hinit, hreaches⟩ := h
    exact ⟨doc, init, password, hfile ▸ hdoc, hresults _ hinit, hreaches⟩
  | _ => trivial

/-- An import takes nothing of its copy that is read in another way. -/
theorem restore_decoded (archive cfg : Config) : restore archive cfg.decoded = restore archive cfg := rfl

theorem ordered_onFile {store : Store} {cfg doc : Config} {act : LockedStore.Act Request Config}
    (hread : cfg.decoded = doc.decoded) (h : LockedStore.Ordered (panel macs) (onFile store cfg) act) :
    LockedStore.Ordered (panel macs) (onFile store doc) act := by
  cases act with
  | write i ok => cases ok <;> exact h
  | store i =>
    refine ⟨h.1, fun k copy hc => (h.2 k copy hc).trans ?_⟩
    change restore k cfg = restore k doc
    rw [← restore_decoded k cfg, hread, restore_decoded]
  | _ => trivial

/-- The run of a panel goes on, whichever of the documents is read in one way the file holds. -/
theorem Follows.step {store store' : Store} {cfg doc init : Config}
    {act : LockedStore.Act Request Config} (hread : cfg.decoded = doc.decoded)
    (hreaches : Reaches (LockedStore.step (panel macs)) (LockedStore.Ordered (panel macs))
      (LockedStore.start init) (onFile store doc))
    (hordered : LockedStore.Ordered (panel macs) (onFile store cfg) act)
    (hstep : LockedStore.step (panel macs) (onFile store cfg) act = some store') :
    Reaches (LockedStore.step (panel macs)) (LockedStore.Ordered (panel macs)) (LockedStore.start init)
      (if act.saves = true then store' else onFile store' doc) := by
  refine hreaches.tail (ordered_onFile hread hordered) ?_
  have hsame := LockedStore.step_file (panel macs) (onFile store cfg) doc act
  rw [hstep] at hsame
  exact hsame

theorem Tidy.only_move (hs : Tidy macs slot s) {s' : State} {i : Nat} {p : Process}
    (hprocess : s'.process = s.process) (hp : i ≠ slot → p.IfServing fun _ => False) (j : Nat)
    (hj : j ≠ slot) : ((s'.move i p).process j).IfServing fun _ => False := by
  by_cases hji : j = i
  · rw [hji, State.move_self]
    exact hp (hji ▸ hj)
  · rw [State.move_ne s' p hji, hprocess]
    exact hs.only j hj

/-- A step that leaves the file and the results as they are. -/
theorem Tidy.move (hs : Tidy macs slot s) {s' : State} {i : Nat} {p : Process} (hfile : s'.file = s.file)
    (hresults : s'.results = s.results) (hprocess : s'.process = s.process)
    (hroots : p.All Rooted Rooted) (hpast : p.Past → Settled s)
    (hsaving : p.IfSaving fun _ => Fresh s) (honly : i ≠ slot → p.IfServing fun _ => False)
    (hfollows : i = slot → Follows macs s p) : Tidy macs slot (s'.move i p) := by
  have hmono {q : Process} (hq : Follows macs s q) : Follows macs (s'.move i p) q :=
    hq.mono hfile fun e he => by rw [State.move_results, hresults]; exact he
  refine ⟨State.forall_move (fun j _ => hs.roots j) hprocess hroots, fun hnot => ?_,
    hs.only_move hprocess honly, ?_⟩
  · have hwas : p.Past ∨ ¬Fresh s := by
      by_cases hp : p.Past
      · exact .inl hp
      · refine .inr fun hfresh => hnot ⟨?_, ?_⟩
        · rw [State.move_results, hresults]
          exact hfresh.results
        · exact State.forall_move (Q := fun p => ¬p.Past) (fun j _ => hfresh.process j) hprocess hp
    obtain ⟨cfg, hcfg, hcurrent, hnone⟩ := hwas.elim hpast hs.settled
    refine ⟨cfg, hfile.trans hcfg, hcurrent, State.forall_move (fun j _ => hnone j) hprocess ?_⟩
    cases p with
    | saving => exact hwas.elim id fun hnot => hnot hsaving
    | _ => trivial
  · by_cases hi : slot = i
    · rw [hi, State.move_self]
      exact hmono (hfollows hi.symm)
    · rw [State.move_ne s' p hi, hprocess]
      exact hmono hs.follows

theorem rooted_of_locked {r : Request} {c c' : Config} (hc : Rooted c) (h : locked macs r c = some c') :
    Rooted c' := by
  have hroots : c.get .allowedRoots = c'.get .allowedRoots :=
    frame_apply (e := .inl r) h _ (by cases r <;> simp only [touches] <;> decide)
  exact (congrArg (servesRoot · = true) hroots).mp hc

/-- The steps of a panel whose imports are rooted. -/
theorem rooted_step {store store' : Store} {act : LockedStore.Act Request Config}
    (hcopy : ∀ j archive, act = .copy j archive → Rooted archive)
    (h : LockedStore.step (panel macs) store act = some store') (hs : store.All Rooted Rooted) :
    store'.All Rooted Rooted ∧ (act.saves = true → Rooted store'.file) := by
  have hentering : act.Entering fun _ => True := by cases act <;> trivial
  obtain ⟨hall, hfile, _⟩ := LockedStore.all_step (w := panel macs) (fun _ _ _ _ => rooted_of_locked)
    (fun _ _ hk _ => hk) hentering hcopy h hs
  exact ⟨hall, hfile⟩

theorem tidy_step (hlocked : Locked s) (hs : Tidy macs slot s) (hcalm : Calm macs slot s a)
    (h : Did classes argon2 macs s a t) : Tidy macs slot t := by
  cases h with
  | started _ | refused _ | locked _ _ | unprepared _ | unsaved _ | killed =>
    exact hs.move rfl rfl rfl trivial False.elim trivial (fun _ => trivial) fun _ => trivial
  | @prepared i a options p hphase hp =>
    have hroots := prepare_roots hp
    have halone {j : Nat} (hj : j ≠ i) : ¬(s.process j).Inside :=
      hlocked.alone (by rw [hphase]; trivial) hj
    split
    · rename_i hchanged
      refine hs.move rfl rfl rfl hroots False.elim ?_ (fun _ => trivial) fun _ => trivial
      by_contra hnot
      obtain ⟨cfg, hcfg, hcurrent, _⟩ := hs.settled hnot
      rw [hcfg, prepare_current hcurrent] at hp
      cases hp
      cases hchanged
    · rename_i hchanged
      obtain ⟨saved, hfile, hread, hcurrent⟩ := prepare_unchanged hp (Bool.eq_false_iff.mpr hchanged)
      refine hs.move rfl rfl rfl hroots (fun _ => ⟨saved, hfile, hcurrent, fun j => ?_⟩) trivial
        (fun _ => trivial) fun _ => ⟨saved, hfile, by rw [← hread, Config.decoded_decoded]⟩
      by_cases hj : j = i
      · rw [hj, hphase]
        trivial
      · exact Process.ifSaving_of_not (halone hj)
  | @saved i fails p hphase hvalid =>
    have hroots := hs.roots i
    rw [hphase] at hroots
    have halone {j : Nat} (hj : j ≠ i) : ¬(s.process j).Inside :=
      hlocked.alone (by rw [hphase]; trivial) hj
    have hfresh : Fresh s := by
      by_contra hnot
      obtain ⟨_, _, _, hnone⟩ := hs.settled hnot
      have hp := hnone i
      rw [hphase] at hp
      exact hp
    refine ⟨State.forall_move (s := s) (fun j _ => hs.roots j) rfl hroots, fun _ => ?_,
      hs.only_move rfl fun _ => trivial, ?_⟩
    · exact ⟨p.cfg, rfl, current_of_valid hvalid hroots, State.forall_move (s := s)
        (fun j hj => Process.ifSaving_of_not (halone hj)) rfl trivial⟩
    · by_cases hi : slot = i
      · rw [hi, State.move_self]
        exact ⟨p.cfg, rfl, rfl⟩
      · rw [State.move_ne _ _ hi]
        exact Follows.of_not (hfresh.process slot)
  | @left i p hphase =>
    have hroots := hs.roots i
    rw [hphase] at hroots
    obtain ⟨cfg, hcfg, hcurrent, hnone⟩ := hs.settled_of_past (i := i) (by rw [hphase]; trivial)
    refine ⟨State.forall_move (s := s) (fun j _ => hs.roots j) rfl hroots, fun _ => ?_,
      hs.only_move rfl fun _ => trivial, ?_⟩
    · exact ⟨cfg, hcfg, hcurrent, State.forall_move (s := s) (fun j _ => hnone j) rfl trivial⟩
    · by_cases hi : slot = i
      · have hfollows := hs.follows
        rw [hi, hphase] at hfollows
        rw [hi, State.move_self]
        exact ⟨hfollows, p.password, List.mem_append_right _ (List.mem_singleton_self _)⟩
      · rw [State.move_ne _ _ hi]
        exact hs.follows.mono rfl fun e he => List.mem_append_left _ he
  | @served i cfg hphase =>
    have hi : i = slot := hcalm
    have hroots := hs.roots i
    rw [hphase] at hroots
    refine hs.move rfl rfl rfl (LockedStore.all_start hroots)
      (fun _ => hs.settled_of_past (i := i) (by rw [hphase]; trivial)) trivial
      (fun hne => absurd hi hne) fun _ => ?_
    have hfollows := hs.follows
    rw [← hi, hphase] at hfollows
    obtain ⟨hfile, password, hresult⟩ := hfollows
    exact ⟨cfg, cfg, password, hfile, hresult, .refl⟩
  | @kept i act store store' cfg trustedDevices hphase hfile hstep hsaves =>
    obtain ⟨hordered, hcopy⟩ := hcalm store cfg trustedDevices hphase hfile
    have hroots := hs.roots i
    rw [hphase] at hroots
    have hall := (rooted_step hcopy hstep ⟨hroots.memory, hroots.thread⟩).1
    refine hs.move rfl rfl rfl hall (fun _ => hs.settled_of_past (i := i) (by rw [hphase]; trivial))
      trivial (fun hne => ?_) fun hi => ?_
    · have honly := hs.only i hne
      rw [hphase] at honly
      exact honly.elim
    · have hfollows := hs.follows
      rw [← hi, hphase] at hfollows
      obtain ⟨doc, init, password, ⟨saved, hsaved, hread⟩, hresult, hreaches⟩ := hfollows
      cases hfile.symm.trans hsaved
      refine ⟨doc, init, password, ⟨cfg, hfile, hread⟩, hresult, ?_⟩
      have hnext := Follows.step hread hreaches hordered hstep
      rwa [hsaves, if_neg Bool.false_ne_true] at hnext
  | @changed i act store store' cfg trustedDevices hphase hfile hstep hsaves hvalid =>
    obtain ⟨hordered, hcopy⟩ := hcalm store cfg trustedDevices hphase hfile
    have hroots := hs.roots i
    rw [hphase] at hroots
    obtain ⟨hall, hrooted⟩ := rooted_step hcopy hstep ⟨hroots.memory, hroots.thread⟩
    obtain ⟨_, _, _, hnone⟩ := hs.settled_of_past (i := i) (by rw [hphase]; trivial)
    have hi : i = slot := by
      by_contra hne
      have honly := hs.only i hne
      rw [hphase] at honly
      exact honly
    refine ⟨State.forall_move (s := s) (fun j _ => hs.roots j) rfl hall, fun _ => ?_,
      hs.only_move rfl fun hne => absurd hi hne, ?_⟩
    · exact ⟨store'.file, rfl, current_of_valid hvalid (hrooted hsaves),
        State.forall_move (s := s) (fun j _ => hnone j) rfl trivial⟩
    · have hfollows := hs.follows
      rw [← hi, hphase] at hfollows
      obtain ⟨doc, init, password, ⟨saved, hsaved, hread⟩, hresult, hreaches⟩ := hfollows
      cases hfile.symm.trans hsaved
      have hnext := Follows.step hread hreaches hordered hstep
      rw [hsaves, if_pos rfl] at hnext
      rw [← hi, State.move_self]
      exact ⟨store'.file, init, password, ⟨store'.file, rfl, rfl⟩, hresult, hnext⟩

theorem tidy_start (file : File) : Tidy macs slot (start file) :=
  ⟨fun _ => trivial, fun hnot => absurd ⟨rfl, fun _ => id⟩ hnot, fun _ _ => trivial, trivial⟩

/-- **A restart goes on where the panel has stopped.** Once a call has returned no start saves
anything, and while no request of the panel is at work, its configuration is what its answered
requests make, one after the other, of one that a call has returned. Any call then returns what is
read of that configuration, without a password, and leaves the file as it is. -/
theorem restart_continues {file : File}
    (h : Reaches (step classes argon2 macs) (Calm macs slot) (start file) s) :
    (s.results ≠ [] → ∀ i p, s.process i ≠ .saving p) ∧
    ∀ i store, s.process i = .serving store → (∀ j, store.thread j = .idle) →
      (∃ init password, (init, password) ∈ s.results ∧
        (panel macs).serial init store.answered = some store.memory) ∧
      ∀ options a fails, loadOrCreateWithOptions classes argon2 options none a fails s.file =
        (.ok (store.memory.decoded, ""), s.file) := by
  obtain ⟨⟨_, _⟩, htidy⟩ :=
    h.invariant (P := fun s => (Locked s ∧ Inv s) ∧ Tidy macs slot s)
      ⟨inv_start file, tidy_start file⟩ fun _ _ _ hs hcalm hstep =>
        ⟨⟨locked_step hs.1.1 (did_of_step hstep), inv_step hs.1.1 hs.1.2 (did_of_step hstep)⟩,
          tidy_step hs.1.1 hs.2 hcalm (did_of_step hstep)⟩
  refine ⟨fun hne i p hi => ?_, fun i store hi hidle => ?_⟩
  · obtain ⟨_, _, _, hnone⟩ := htidy.settled fun hfresh => hne hfresh.results
    have hsaving := hnone i
    rw [hi] at hsaving
    exact hsaving
  · have hslot : i = slot := by
      by_contra hne
      have honly := htidy.only i hne
      rw [hi] at honly
      exact honly
    have hfollows := htidy.follows
    rw [← hslot, hi] at hfollows
    obtain ⟨doc, init, password, ⟨saved, hsaved, hread⟩, hresult, hreaches⟩ := hfollows
    obtain ⟨hsame, hserial⟩ := LockedStore.quiescent hreaches hidle
    obtain ⟨cfg', hcfg', hcurrent, _⟩ := htidy.settled_of_past (i := i) (by rw [hi]; trivial)
    cases hsaved.symm.trans hcfg'
    have hmemory : doc = store.memory := hsame
    refine ⟨⟨init, password, hresult, hserial⟩, fun options a fails => ?_⟩
    rw [hsaved, loadOrCreateWithOptions, prepare_current hcurrent, hread, hmemory]
    rfl

theorem step_saves {i : Nat} {act : LockedStore.Act Request Config} {store store' : Store} {cfg : Config}
    {trustedDevices : Bool} (hphase : s.process i = .serving store)
    (hfile : s.file = .holds cfg trustedDevices)
    (hstep : LockedStore.step (panel macs) (onFile store cfg) act = some store')
    (hsaves : act.saves = true) (hvalid : store'.file.validate = .ok ()) :
    step classes argon2 macs s (.request i act) =
      some ({ s with file := .holds store'.file false }.move i (.serving store')) := by
  simp only [step, hphase, hfile, hstep, hsaves, hvalid, if_true]

/-- A valid configuration of a panel that serves the whole file system. -/
def settledConfig : Config :=
  { Config.default with passwordHash := "hash", sessionSecret := "session", agentSecret := "agent" }

/-- The panel starts, changes a setting and is killed. -/
theorem restart_continues_changed : ∃ s store,
    Reaches (step asciiClasses Argon2.zeros noMacs) (Calm noMacs 0) (start (.holds settledConfig false)) s ∧
    s.process 0 = .serving store ∧ store.answered = [.inl (.settings 10)] ∧
    ∀ options a fails, loadOrCreateWithOptions asciiClasses Argon2.zeros options none a fails s.file =
      (.ok ({ settledConfig with autoRefreshSeconds := 10 }, ""),
        .holds { settledConfig with autoRefreshSeconds := 10 } false) := by
  have hcall : loadOrCreateWithOptions asciiClasses Argon2.zeros firstOptions none zeroAnswers none
      (.holds settledConfig false) = (.ok (settledConfig, ""), .holds settledConfig false) := by
    decide +kernel
  have hvalid : ({ settledConfig with autoRefreshSeconds := 10 } : Config).validate = .ok () := by
    decide +kernel
  have hstarted : Reaches (step asciiClasses Argon2.zeros noMacs) (Calm noMacs 0)
      (start (.holds settledConfig false)) _ :=
    reaches_call (i := 0) (fun _ a h => by cases a <;> first | exact h.elim | trivial) rfl rfl hcall
  have hserving := hstarted.tail (a := .serve 0) (by exact rfl) rfl
  have hentered := hserving.tail (a := .request 0 (.enter 0 (.settings 10)))
    (by exact fun _ _ _ _ _ => ⟨trivial, nofun⟩) rfl
  have hwritten := hentered.tail (a := .request 0 (.write 0 true)) (by
    intro store cfg _ hs _
    cases hs
    exact ⟨fun i hi => by rcases i with _ | i <;> exact hi, nofun⟩)
    (step_saves rfl rfl rfl rfl hvalid)
  have hpublished := hwritten.tail (a := .request 0 (.publish 0))
    (by exact fun _ _ _ _ _ => ⟨trivial, nofun⟩) rfl
  obtain ⟨_, hcontinues⟩ := restart_continues hpublished
  refine ⟨_, _, hpublished, rfl, rfl, (hcontinues 0 _ rfl fun j => ?_).2⟩
  rcases j with _ | j <;> rfl

end LukePanel.Startups
