import LukePanel.Library.Machine
import Mathlib.Logic.Function.Basic

/-! # A document in memory and on disk, rewritten under a lock

Locked writers copy the document in memory, change the copy, save it and publish it, all under
one lock. An unlocked writer copies under the lock, saves without it and takes it again only to
publish. Readers need the lock, so entering it, copying and changing the copy is one step. -/
namespace LukePanel.Library.LockedStore
open LukePanel.Library.Machine

/-- `σ` are the documents, `ρ` and `κ` the requests of locked and unlocked writers. A locked
request that ends before its save gives `none`. -/
structure Writers (σ ρ κ : Type*) where
  locked : ρ → σ → Option σ
  unlocked : κ → σ → σ

inductive Phase (σ ρ κ : Type*) where
  | idle
  /-- Holds the lock; `updated` is to be saved. -/
  | holding (r : ρ) (updated : σ)
  /-- Holds the lock; `updated` is saved and to be published. -/
  | written (r : ρ) (updated : σ)
  /-- An unlocked writer after its copy. -/
  | copied (k : κ) (copy : σ)
  /-- An unlocked writer after its save. -/
  | stored (k : κ) (updated : σ)

/-- `file` is the document that was saved last; what is read of it is for the instance to say.
`answered` lists the requests that ended in success, in the order of their answers. -/
structure State (σ ρ κ : Type*) where
  file : σ
  memory : σ
  owner : Option Nat
  thread : Nat → Phase σ ρ κ
  answered : List (ρ ⊕ κ)

inductive Act (ρ κ : Type*) where
  | enter (i : Nat) (r : ρ)
  | write (i : Nat) (ok : Bool)
  | publish (i : Nat)
  | copy (i : Nat) (k : κ)
  /-- An unlocked writer gives up before it has saved, or its save fails. -/
  | abandon (i : Nat)
  | store (i : Nat)
  | install (i : Nat)

variable {σ ρ κ : Type*}

def start (init : σ) : State σ ρ κ := ⟨init, init, none, fun _ => .idle, []⟩

namespace State

def move (s : State σ ρ κ) (i : Nat) (p : Phase σ ρ κ) : State σ ρ κ :=
  { s with thread := Function.update s.thread i p }

@[simp] theorem move_file (s : State σ ρ κ) (i : Nat) (p : Phase σ ρ κ) :
    (s.move i p).file = s.file := rfl

@[simp] theorem move_memory (s : State σ ρ κ) (i : Nat) (p : Phase σ ρ κ) :
    (s.move i p).memory = s.memory := rfl

@[simp] theorem move_owner (s : State σ ρ κ) (i : Nat) (p : Phase σ ρ κ) :
    (s.move i p).owner = s.owner := rfl

@[simp] theorem move_answered (s : State σ ρ κ) (i : Nat) (p : Phase σ ρ κ) :
    (s.move i p).answered = s.answered := rfl

@[simp] theorem move_self (s : State σ ρ κ) (i : Nat) (p : Phase σ ρ κ) :
    (s.move i p).thread i = p := Function.update_self ..

theorem move_ne (s : State σ ρ κ) {i j : Nat} (p : Phase σ ρ κ) (h : j ≠ i) :
    (s.move i p).thread j = s.thread j := Function.update_of_ne h ..

end State

def step (w : Writers σ ρ κ) (s : State σ ρ κ) : Act ρ κ → Option (State σ ρ κ)
  | .enter i r =>
    match s.owner, s.thread i with
    | none, .idle =>
      match w.locked r s.memory with
      | none => some s
      | some updated => some ({ s with owner := some i }.move i (.holding r updated))
    | _, _ => none
  | .write i ok =>
    match s.thread i with
    | .holding r updated =>
      if ok then some ({ s with file := updated }.move i (.written r updated))
      else some ({ s with owner := none }.move i .idle)
    | _ => none
  | .publish i =>
    match s.thread i with
    | .written r updated =>
      some ({ s with
        memory := updated
        owner := none
        answered := s.answered ++ [Sum.inl r] }.move i .idle)
    | _ => none
  | .copy i k =>
    match s.owner, s.thread i with
    | none, .idle => some (s.move i (.copied k s.memory))
    | _, _ => none
  | .abandon i =>
    match s.thread i with
    | .copied _ _ => some (s.move i .idle)
    | _ => none
  | .store i =>
    match s.thread i with
    | .copied k copy =>
      some ({ s with file := w.unlocked k copy }.move i (.stored k (w.unlocked k copy)))
    | _ => none
  | .install i =>
    match s.owner, s.thread i with
    | none, .stored k updated =>
      some ({ s with
        memory := updated
        answered := s.answered ++ [Sum.inr k] }.move i .idle)
    | _, _ => none

/-- What an action found and what it did. -/
inductive Did (w : Writers σ ρ κ) (s : State σ ρ κ) : Act ρ κ → State σ ρ κ → Prop
  | refused {i : Nat} {r : ρ} : s.owner = none → w.locked r s.memory = none →
      Did w s (.enter i r) s
  | entered {i : Nat} {r : ρ} {updated : σ} : s.owner = none → s.thread i = .idle →
      w.locked r s.memory = some updated →
      Did w s (.enter i r) ({ s with owner := some i }.move i (.holding r updated))
  | wrote {i : Nat} {r : ρ} {updated : σ} : s.thread i = .holding r updated →
      Did w s (.write i true) ({ s with file := updated }.move i (.written r updated))
  | failed {i : Nat} {r : ρ} {updated : σ} : s.thread i = .holding r updated →
      Did w s (.write i false) ({ s with owner := none }.move i .idle)
  | published {i : Nat} {r : ρ} {updated : σ} : s.thread i = .written r updated →
      Did w s (.publish i) ({ s with
        memory := updated
        owner := none
        answered := s.answered ++ [Sum.inl r] }.move i .idle)
  | copied {i : Nat} {k : κ} : s.owner = none → s.thread i = .idle →
      Did w s (.copy i k) (s.move i (.copied k s.memory))
  | abandoned {i : Nat} {k : κ} {copy : σ} : s.thread i = .copied k copy →
      Did w s (.abandon i) (s.move i .idle)
  | stored {i : Nat} {k : κ} {copy : σ} : s.thread i = .copied k copy →
      Did w s (.store i)
        ({ s with file := w.unlocked k copy }.move i (.stored k (w.unlocked k copy)))
  | installed {i : Nat} {k : κ} {updated : σ} : s.owner = none → s.thread i = .stored k updated →
      Did w s (.install i) ({ s with
        memory := updated
        answered := s.answered ++ [Sum.inr k] }.move i .idle)

theorem did_of_step {w : Writers σ ρ κ} {s t : State σ ρ κ} {a : Act ρ κ}
    (h : step w s a = some t) : Did w s a t := by
  cases a with
  | enter i r =>
    simp only [step] at h
    split at h
    · rename_i howner hidle
      split at h
      · rename_i hnone; cases h; exact .refused howner hnone
      · rename_i updated hsome; cases h; exact .entered howner hidle hsome
    · cases h
  | write i ok =>
    simp only [step] at h
    split at h
    · rename_i r updated hphase
      cases ok <;> cases h
      · exact .failed hphase
      · exact .wrote hphase
    · cases h
  | publish i =>
    simp only [step] at h
    split at h
    · rename_i r updated hphase; cases h; exact .published hphase
    · cases h
  | copy i k =>
    simp only [step] at h
    split at h
    · rename_i howner hidle; cases h; exact .copied howner hidle
    · cases h
  | abandon i =>
    simp only [step] at h
    split at h
    · rename_i k copy hphase; cases h; exact .abandoned hphase
    · cases h
  | store i =>
    simp only [step] at h
    split at h
    · rename_i k copy hphase; cases h; exact .stored hphase
    · cases h
  | install i =>
    simp only [step] at h
    split at h
    · rename_i k updated howner hphase; cases h; exact .installed howner hphase
    · cases h

/-! ## The history of the answers -/

/-- A request on its own: what it makes of the document. -/
def Writers.apply (w : Writers σ ρ κ) (doc : σ) : ρ ⊕ κ → Option σ
  | .inl r => w.locked r doc
  | .inr k => some (w.unlocked k doc)

/-- The requests one after another. -/
def Writers.serial (w : Writers σ ρ κ) (doc : σ) (requests : List (ρ ⊕ κ)) : Option σ :=
  requests.foldlM w.apply doc

theorem serial_concat {w : Writers σ ρ κ} {init doc : σ} {requests : List (ρ ⊕ κ)}
    (h : w.serial init requests = some doc) (e : ρ ⊕ κ) :
    w.serial init (requests ++ [e]) = w.apply doc e := by
  unfold Writers.serial at h ⊢
  rw [List.foldlM_append, h]
  simp

theorem serial_split {w : Writers σ ρ κ} {init doc : σ} {before after : List (ρ ⊕ κ)} {e : ρ ⊕ κ}
    (h : w.serial init (before ++ e :: after) = some doc) :
    ∃ c c', w.serial init before = some c ∧ w.apply c e = some c' ∧
      w.serial c' after = some doc := by
  unfold Writers.serial at h ⊢
  rw [List.foldlM_append] at h
  obtain ⟨c, hc, h⟩ := Option.bind_eq_some_iff.mp h
  rw [List.foldlM_cons] at h
  obtain ⟨c', hc', h⟩ := Option.bind_eq_some_iff.mp h
  exact ⟨c, c', hc, hc', h⟩

/-- A part of the document that no request of a history touches is what it was. -/
theorem serial_frame {φ : Type*} {w : Writers σ ρ κ} (Same : φ → σ → σ → Prop)
    (touches : ρ ⊕ κ → φ → Prop) (hrefl : ∀ f c, Same f c c)
    (htrans : ∀ f a b c, Same f a b → Same f b c → Same f a c)
    (hframe : ∀ e c c', w.apply c e = some c' → ∀ f, ¬ touches e f → Same f c c')
    {c c' : σ} {requests : List (ρ ⊕ κ)} (h : w.serial c requests = some c') {f : φ}
    (hf : ∀ e ∈ requests, ¬ touches e f) : Same f c c' := by
  induction requests generalizing c with
  | nil =>
    simp only [Writers.serial, List.foldlM_nil, Option.pure_def, Option.some.injEq] at h
    exact h ▸ hrefl f c
  | cons e rest ih =>
    obtain ⟨c₁, hc₁, h⟩ := Option.bind_eq_some_iff.mp h
    exact htrans f c c₁ c' (hframe e c c₁ hc₁ f (hf e List.mem_cons_self))
      (ih h fun e' he' => hf e' (List.mem_cons_of_mem _ he'))

/-! ## Runs in which no save comes between an unlocked writer's save and its publication -/

def Phase.isStored : Phase σ ρ κ → Prop
  | .stored .. => True
  | _ => False

def Settled (s : State σ ρ κ) : Prop := ∀ i, ¬ (s.thread i).isStored

/-- No document is saved while an unlocked writer has saved and not yet published, and what an
unlocked writer saves is what it would make of the file as it is. -/
def Ordered (w : Writers σ ρ κ) (s : State σ ρ κ) : Act ρ κ → Prop
  | .write _ true => Settled s
  | .store i => Settled s ∧ ∀ k copy, s.thread i = .copied k copy →
      w.unlocked k copy = w.unlocked k s.file
  | _ => True

/-- The document that the saves so far lead to when no unlocked writer has saved. -/
def latest (s : State σ ρ κ) : σ :=
  match s.owner with
  | none => s.memory
  | some i =>
    match s.thread i with
    | .written _ updated => updated
    | _ => s.memory

/-- The request that holds the lock and what it made of its copy. -/
def Phase.locked : Phase σ ρ κ → Option (ρ × σ)
  | .holding r updated | .written r updated => some (r, updated)
  | _ => none

structure Inv (w : Writers σ ρ κ) (init : σ) (s : State σ ρ κ) : Prop where
  lock : ∀ i r updated, (s.thread i).locked = some (r, updated) →
    s.owner = some i ∧ w.locked r s.memory = some updated
  owned : ∀ i, s.owner = some i → (s.thread i).locked ≠ none
  single : ∀ i j, (s.thread i).isStored → (s.thread j).isStored → i = j
  settled : Settled s → s.file = latest s
  stored : ∀ i k updated, s.thread i = .stored k updated →
    s.file = updated ∧ w.unlocked k (latest s) = updated
  history : w.serial init s.answered = some s.memory

theorem inv_start (w : Writers σ ρ κ) (init : σ) : Inv w init (start init) where
  lock := nofun
  owned := nofun
  single := fun _ _ h => h.elim
  settled := fun _ => rfl
  stored := nofun
  history := rfl

section

variable {w : Writers σ ρ κ} {init : σ} {s t : State σ ρ κ} {i : Nat}

/-- While another thread or none holds the lock, `latest` does not look at thread `i`. -/
theorem latest_move {p : Phase σ ρ κ} (h : s.owner ≠ some i) : latest (s.move i p) = latest s := by
  unfold latest
  rw [State.move_owner, State.move_memory]
  cases hown : s.owner with
  | none => rfl
  | some j =>
    have hne : j ≠ i := fun he => h (he ▸ hown)
    simp only [State.move_ne s p hne]

theorem latest_free (h : s.owner = none) : latest s = s.memory := by
  unfold latest
  rw [h]

theorem latest_holding {r : ρ} {updated : σ} (ho : s.owner = some i)
    (h : s.thread i = .holding r updated) : latest s = s.memory := by
  unfold latest
  rw [ho]
  simp only [h]

theorem latest_written {r : ρ} {updated : σ} (ho : s.owner = some i)
    (h : s.thread i = .written r updated) : latest s = updated := by
  unfold latest
  rw [ho]
  simp only [h]

/-- A thread that has not saved unlocked leaves the others' saves as they are. -/
theorem stored_move {p : Phase σ ρ κ} {j : Nat} (h : ((s.move i p).thread j).isStored)
    (hp : ¬ p.isStored) : j ≠ i ∧ (s.thread j).isStored := by
  have hne : j ≠ i := by
    rintro rfl
    rw [State.move_self] at h
    exact hp h
  rw [State.move_ne s p hne] at h
  exact ⟨hne, h⟩

theorem stored_of_move {p : Phase σ ρ κ} {j : Nat} {k : κ} {updated : σ}
    (h : (s.move i p).thread j = .stored k updated) (hp : ¬ p.isStored) :
    s.thread j = .stored k updated := by
  have hne : j ≠ i := (stored_move (by rw [h]; trivial) hp).1
  rwa [State.move_ne s p hne] at h

theorem locked_of_move {p : Phase σ ρ κ} {j : Nat} {l : ρ × σ}
    (h : ((s.move i p).thread j).locked = some l) :
    j = i ∧ p.locked = some l ∨ j ≠ i ∧ (s.thread j).locked = some l := by
  by_cases hne : j = i
  · rw [hne, State.move_self] at h
    exact .inl ⟨hne, h⟩
  · rw [State.move_ne s p hne] at h
    exact .inr ⟨hne, h⟩

theorem settled_move {p : Phase σ ρ κ} (hi : ¬ (s.thread i).isStored)
    (h : Settled (s.move i p)) : Settled s := by
  intro j hj
  by_cases hne : j = i
  · exact hi (hne ▸ hj)
  · exact h j (by rw [State.move_ne s p hne]; exact hj)

theorem Inv.not_owner (hi : Inv w init s) (h : (s.thread i).locked = none) : s.owner ≠ some i :=
  fun ho => hi.owned i ho h

/-- Only the owner of the lock is in a phase that holds it. -/
theorem Inv.locked_owner (hi : Inv w init s) {j : Nat} {l : ρ × σ}
    (h : (s.thread j).locked = some l) : s.owner = some j :=
  (hi.lock j l.1 l.2 h).1

/-- A thread moves on without the lock and without a save of its own to publish. -/
theorem Inv.quiet (hi : Inv w init s) {p : Phase σ ρ κ} (hfrom : ¬ (s.thread i).isStored)
    (hlock : (s.thread i).locked = none) (hp : p.locked = none) (hto : ¬ p.isStored) :
    Inv w init (s.move i p) where
  lock j r updated hj := by
    rcases locked_of_move hj with ⟨_, hl⟩ | ⟨_, hl⟩
    · rw [hp] at hl
      cases hl
    · exact hi.lock j r updated hl
  owned j ho := by
    have hne : j ≠ i := fun he => hi.not_owner hlock (he ▸ ho)
    rw [State.move_ne s p hne]
    exact hi.owned j ho
  single j k hj hk := hi.single j k (stored_move hj hto).2 (stored_move hk hto).2
  settled hs := by
    rw [latest_move (hi.not_owner hlock)]
    exact hi.settled (settled_move hfrom hs)
  stored j k updated hj := by
    rw [latest_move (hi.not_owner hlock)]
    exact hi.stored j k updated (stored_of_move hj hto)
  history := hi.history

/-- A locked writer takes the free lock, copies the document and changes the copy. -/
theorem Inv.enter (hi : Inv w init s) {r : ρ} {updated : σ} (howner : s.owner = none)
    (hidle : s.thread i = .idle) (hsome : w.locked r s.memory = some updated) :
    Inv w init ({ s with owner := some i }.move i (.holding r updated)) := by
  have hlatest : latest ({ s with owner := some i }.move i (.holding r updated)) = latest s := by
    rw [latest_holding rfl (State.move_self ..), latest_free howner]
    rfl
  refine ⟨?_, ?_, ?_, ?_, ?_, hi.history⟩
  · intro j r' updated' hj
    rcases locked_of_move hj with ⟨rfl, hl⟩ | ⟨_, hl⟩
    · cases hl
      exact ⟨rfl, hsome⟩
    · have := hi.locked_owner hl
      rw [howner] at this
      cases this
  · intro j ho
    obtain rfl : i = j := Option.some.inj ho
    rw [State.move_self]
    nofun
  · exact fun j k hj hk => hi.single j k (stored_move hj nofun).2 (stored_move hk nofun).2
  · intro hsettled
    rw [hlatest]
    refine hi.settled (settled_move (s := { s with owner := some i }) ?_ hsettled)
    rw [hidle]
    nofun
  · intro j k updated' hj
    rw [hlatest]
    exact hi.stored j k updated' (stored_of_move hj nofun)

/-- The owner of the lock saves its copy while no unlocked save waits for its publication. -/
theorem Inv.write (hi : Inv w init s) {r : ρ} {updated : σ} (hsettled : Settled s)
    (hphase : s.thread i = .holding r updated) :
    Inv w init ({ s with file := updated }.move i (.written r updated)) := by
  obtain ⟨ho, hr⟩ := hi.lock i r updated (by rw [hphase]; rfl)
  have hnone : Settled ({ s with file := updated }.move i (.written r updated)) :=
    fun j hj => hsettled j (stored_move hj nofun).2
  refine ⟨?_, ?_, fun j _ hj _ => absurd hj (hnone j), ?_, ?_, hi.history⟩
  · intro j r' updated' hj
    rcases locked_of_move hj with ⟨rfl, hl⟩ | ⟨_, hl⟩
    · cases hl
      exact ⟨ho, hr⟩
    · exact hi.lock j r' updated' hl
  · intro j hj
    obtain rfl : i = j := Option.some.inj (ho.symm.trans hj)
    rw [State.move_self]
    nofun
  · exact fun _ => (latest_written (s := { s with file := updated }.move i (.written r updated))
      ho (State.move_self ..)).symm
  · intro j k updated' hj
    exact absurd (by rw [hj]; trivial) (hnone j)

/-- The one thread that holds the lock lets it go; `c` is the document in memory then, which
is where the saves so far lead. -/
theorem Inv.release (hi : Inv w init s) {r : ρ} {updated c : σ} {answers : List (ρ ⊕ κ)}
    (hl : (s.thread i).locked = some (r, updated)) (hc : latest s = c)
    (hh : w.serial init answers = some c) :
    Inv w init ({ s with memory := c, owner := none, answered := answers }.move i .idle) := by
  have ho := hi.locked_owner hl
  have hfrom : ¬ (s.thread i).isStored := fun h => by
    cases hp : s.thread i <;> rw [hp] at h hl <;> first | exact h | cases hl
  have hlatest : latest ({ s with memory := c, owner := none, answered := answers }.move i .idle) =
      latest s := (latest_free rfl).trans hc.symm
  refine ⟨?_, nofun, ?_, ?_, ?_, hh⟩
  · intro j r' updated' hj
    rcases locked_of_move hj with ⟨_, hj⟩ | ⟨hne, hj⟩
    · cases hj
    · exact absurd (Option.some.inj (ho.symm.trans (hi.locked_owner hj))).symm hne
  · intro j k hj hk
    exact hi.single j k (stored_move hj nofun).2 (stored_move hk nofun).2
  · intro hs
    rw [hlatest]
    exact hi.settled (settled_move (s := { s with memory := c, owner := none, answered := answers })
      hfrom hs)
  · intro j k updated' hj
    rw [hlatest]
    exact hi.stored j k updated' (stored_of_move hj nofun)

/-- An unlocked writer saves what it would make of the file as it is, and no other unlocked
save waits for its publication. -/
theorem Inv.store (hi : Inv w init s) {k : κ} {copy : σ} (hsettled : Settled s)
    (hphase : s.thread i = .copied k copy) (hcopy : w.unlocked k copy = w.unlocked k s.file) :
    Inv w init ({ s with file := w.unlocked k copy }.move i (.stored k (w.unlocked k copy))) := by
  have hlock : (s.thread i).locked = none := by rw [hphase]; rfl
  have honly : ∀ j, (({ s with file := w.unlocked k copy }.move i
      (.stored k (w.unlocked k copy))).thread j).isStored → j = i := by
    intro j hj
    by_contra hne
    rw [State.move_ne _ _ hne] at hj
    exact hsettled j hj
  refine ⟨?_, ?_, fun j l hj hl => (honly j hj).trans (honly l hl).symm, ?_, ?_, hi.history⟩
  · intro j r updated hj
    rcases locked_of_move hj with ⟨_, hl⟩ | ⟨_, hl⟩
    · cases hl
    · exact hi.lock j r updated hl
  · intro j ho
    have hne : j ≠ i := fun he => hi.not_owner hlock (he ▸ ho)
    rw [State.move_ne _ _ hne]
    exact hi.owned j ho
  · intro hall
    exact absurd (by rw [State.move_self]; trivial) (hall i)
  · intro j l updated hj
    obtain rfl := honly j (by rw [hj]; trivial)
    rw [State.move_self] at hj
    cases hj
    refine ⟨rfl, ?_⟩
    have hlatest : latest ({ s with file := w.unlocked k copy }.move j
        (.stored k (w.unlocked k copy))) = latest s := latest_move (hi.not_owner hlock)
    rw [hlatest, ← hi.settled hsettled]
    exact hcopy.symm

/-- The unlocked writer that has saved publishes. -/
theorem Inv.publish (hi : Inv w init s) {k : κ} {updated : σ} (howner : s.owner = none)
    (hphase : s.thread i = .stored k updated) :
    Inv w init ({ s with
      memory := updated
      answered := s.answered ++ [Sum.inr k] }.move i .idle) := by
  obtain ⟨hfile, hfrom⟩ := hi.stored i k updated hphase
  have hnone : Settled ({ s with
      memory := updated
      answered := s.answered ++ [Sum.inr k] }.move i .idle) := by
    intro j hj
    obtain ⟨hne, hj⟩ := stored_move hj nofun
    exact hne (hi.single j i hj (by rw [hphase]; trivial))
  refine ⟨?_, ?_, fun j _ hj _ => absurd hj (hnone j), ?_, ?_, ?_⟩
  · intro j r updated' hj
    rcases locked_of_move hj with ⟨_, hl⟩ | ⟨_, hl⟩
    · cases hl
    · have := hi.locked_owner hl
      rw [howner] at this
      cases this
  · intro j ho
    rw [State.move_owner] at ho
    rw [howner] at ho
    cases ho
  · intro _
    rw [latest_free (by exact howner)]
    exact hfile
  · intro j l updated' hj
    exact absurd (by rw [hj]; trivial) (hnone j)
  · refine (serial_concat hi.history _).trans ?_
    rw [latest_free howner] at hfrom
    exact congrArg some hfrom

theorem inv_step {a : Act ρ κ} (hi : Inv w init s) (hg : Ordered w s a) (hs : step w s a = some t) :
    Inv w init t := by
  cases did_of_step hs with
  | refused => exact hi
  | entered howner hidle hsome => exact hi.enter howner hidle hsome
  | wrote hphase => exact hi.write hg hphase
  | @failed i r updated hphase =>
    have hl : (s.thread i).locked = some (r, updated) := by rw [hphase]; rfl
    exact hi.release hl (latest_holding (hi.locked_owner hl) hphase) hi.history
  | @published i r updated hphase =>
    obtain ⟨ho, hr⟩ := hi.lock i r updated (by rw [hphase]; rfl)
    exact hi.release (by rw [hphase]; rfl) (latest_written ho hphase)
      ((serial_concat hi.history _).trans hr)
  | copied howner hidle =>
    exact hi.quiet (by rw [hidle]; nofun) (by rw [hidle]; rfl) rfl nofun
  | abandoned hphase => exact hi.quiet (by rw [hphase]; nofun) (by rw [hphase]; rfl) rfl nofun
  | stored hphase => exact hi.store hg.1 hphase (hg.2 _ _ hphase)
  | installed howner hphase => exact hi.publish howner hphase

theorem inv_reaches (h : Reaches (step w) (Ordered w) (start init) s) : Inv w init s :=
  h.invariant (inv_start w init) fun _ _ _ hi hg hs => inv_step hi hg hs

/-- **Ordered runs are serial.** When every thread is idle, the file is the document in memory,
and both are what the answered requests make of the first document one after another. -/
theorem quiescent (h : Reaches (step w) (Ordered w) (start init) s)
    (hidle : ∀ i, s.thread i = .idle) :
    s.file = s.memory ∧ w.serial init s.answered = some s.memory := by
  have hi := inv_reaches h
  have howner : s.owner = none := by
    cases ho : s.owner with
    | none => rfl
    | some i => exact absurd (by rw [hidle]; rfl) (hi.owned i ho)
  refine ⟨?_, hi.history⟩
  rw [hi.settled fun i hi => by rw [hidle] at hi; exact hi, latest_free howner]

end

/-! ## Runs of locked writers only -/

/-- No unlocked writer comes, and every locked request has the property `P`. -/
def LockedOnly (P : ρ → Prop) (_ : State σ ρ κ) : Act ρ κ → Prop
  | .enter _ r => P r
  | .copy .. => False
  | _ => True

theorem LockedOnly.mono {P Q : ρ → Prop} (h : ∀ r, P r → Q r) {s : State σ ρ κ} {a : Act ρ κ}
    (ha : LockedOnly P s a) : LockedOnly Q s a := by
  cases a with
  | enter i r => exact h r ha
  | copy i k => exact ha
  | _ => trivial

/-- `LockedOnly`, computed. -/
def lockedOnlyCheck (p : ρ → Bool) (_ : State σ ρ κ) : Act ρ κ → Bool
  | .enter _ r => p r
  | .copy .. => false
  | _ => true

theorem lockedOnly_of_check {p : ρ → Bool} (s : State σ ρ κ) (a : Act ρ κ)
    (h : lockedOnlyCheck p s a = true) : LockedOnly (fun r => p r = true) s a := by
  cases a <;> first | exact h | trivial

def Phase.Only (P : ρ → Prop) : Phase σ ρ κ → Prop
  | .idle => True
  | .holding r _ | .written r _ => P r
  | .copied .. | .stored .. => False

structure Only (P : ρ → Prop) (s : State σ ρ κ) : Prop where
  phases : ∀ i, (s.thread i).Only P
  answers : ∀ e ∈ s.answered, ∃ r, e = .inl r ∧ P r

section

variable {w : Writers σ ρ κ} {P : ρ → Prop} {init : σ} {s t : State σ ρ κ}

theorem Only.move (h : Only P s) {i : Nat} {p : Phase σ ρ κ} (hp : p.Only P) :
    ∀ j, ((s.move i p).thread j).Only P := by
  intro j
  by_cases hne : j = i
  · rw [hne, State.move_self]
    exact hp
  · rw [State.move_ne s p hne]
    exact h.phases j

theorem Only.settled (h : Only P s) : Settled s := by
  intro i hi
  have := h.phases i
  cases hp : s.thread i <;> rw [hp] at hi this <;> first | exact hi | exact this

theorem Only.ordered (h : Only P s) (a : Act ρ κ) : Ordered w s a := by
  cases a with
  | write i ok => cases ok <;> first | trivial | exact h.settled
  | store i =>
    refine ⟨h.settled, fun k copy hc => ?_⟩
    have := h.phases i
    rw [hc] at this
    exact this.elim
  | _ => trivial

theorem only_step {a : Act ρ κ} (h : Only P s) (hg : LockedOnly P s a)
    (hs : step w s a = some t) : Only P t := by
  cases did_of_step hs with
  | refused => exact h
  | entered => exact ⟨h.move hg, h.answers⟩
  | @wrote i r updated hphase =>
    have := h.phases i
    rw [hphase] at this
    exact ⟨h.move this, h.answers⟩
  | failed => exact ⟨h.move trivial, h.answers⟩
  | @published i r updated hphase =>
    refine ⟨h.move trivial, fun e he => ?_⟩
    rcases List.mem_append.mp he with he | he
    · exact h.answers e he
    · have := h.phases i
      rw [hphase] at this
      exact ⟨r, List.mem_singleton.mp he, this⟩
  | copied => exact hg.elim
  | abandoned => exact ⟨h.move trivial, h.answers⟩
  | @stored i k copy hphase =>
    have := h.phases i
    rw [hphase] at this
    exact this.elim
  | @installed i k updated _ hphase =>
    have := h.phases i
    rw [hphase] at this
    exact this.elim

/-- Locked writers alone run in order. -/
theorem ordered_of_lockedOnly (h : Reaches (step w) (LockedOnly P) (start init) s) :
    Inv w init s ∧ Only P s := by
  refine h.invariant (P := fun s => Inv w init s ∧ Only P s)
    ⟨inv_start w init, fun _ => trivial, nofun⟩ ?_
  intro t a u ⟨hi, ho⟩ hg hs
  exact ⟨inv_step hi (ho.ordered a) hs, only_step ho hg hs⟩

/-- A writer about to save finds the file as it found the memory, and one about to publish has
saved what it publishes. -/
theorem file_of_lockedOnly (h : Reaches (step w) (LockedOnly P) (start init) s) (i : Nat) :
    (∀ r updated, s.thread i = .holding r updated → s.file = s.memory) ∧
      ∀ r updated, s.thread i = .written r updated → s.file = updated := by
  obtain ⟨hi, ho⟩ := ordered_of_lockedOnly h
  constructor
  · intro r updated hp
    rw [hi.settled ho.settled, latest_holding (hi.lock i r updated (by rw [hp]; rfl)).1 hp]
  · intro r updated hp
    rw [hi.settled ho.settled, latest_written (hi.lock i r updated (by rw [hp]; rfl)).1 hp]

end

end LukePanel.Library.LockedStore
