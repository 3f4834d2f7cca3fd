import Mathlib.Logic.Basic

/-! # Computations that may fail

`Except` computations as a chain of checks, and programs that change a state, keep what they
did to it when they fail, and have deferred steps. What a program ends in is stated by `Ends`,
with one rule for each way programs are put together. -/
namespace LukePanel.Library.Attempt

variable {ε α β : Type}

/-- A check that was passed: the rest of the computation gave the result. -/
theorem guard_eq_ok {c : Prop} {_ : Decidable c} {err : ε} {k : PUnit → Except ε α} {a : α}
    (h : (if c then (throw err : Except ε PUnit) >>= k else k ⟨⟩) = .ok a) :
    ¬ c ∧ k ⟨⟩ = .ok a := by
  split at h
  · cases h
  · exact ⟨‹_›, h⟩

theorem ite_eq_ok {c : Prop} {_ : Decidable c} {x y : Except ε α} {a : α}
    (h : (if c then x else y) = .ok a) : c ∧ x = .ok a ∨ ¬ c ∧ y = .ok a := by
  split at h
  · exact .inl ⟨‹_›, h⟩
  · exact .inr ⟨‹_›, h⟩

theorem bind_eq_ok {x : Except ε α} {k : α → Except ε β} {b : β} (h : (x >>= k) = .ok b) :
    ∃ a, x = .ok a ∧ k a = .ok b := by
  cases x with
  | error => cases h
  | ok a => exact ⟨a, rfl, h⟩

/-! ## Programs on a state -/

/-- A program that may fail; what it did to the state stays. -/
def Prog (σ ε α : Type) : Type := σ → Except ε α × σ

variable {σ : Type}

namespace Prog

/-- `y` with the value of `x`, if there is one. -/
def andThen (x : Prog σ ε α) (f : α → Prog σ ε β) : Prog σ ε β := fun s =>
  match x s with
  | (.ok a, s') => f a s'
  | (.error err, s') => (.error err, s')

instance : Monad (Prog σ ε) where
  pure a := fun s => (.ok a, s)
  bind := andThen

def fail (err : ε) : Prog σ ε α := fun s => (.error err, s)

def get : Prog σ ε σ := fun s => (.ok s, s)

def modify (f : σ → σ) : Prog σ ε Unit := fun s => (.ok (), f s)

/-- Something read off the state, which may fail. -/
def read (f : σ → Except ε α) : Prog σ ε α := fun s => (f s, s)

/-- A call of which only the error is known. -/
def call (fails : Option ε) : Prog σ ε Unit := read fun _ =>
  match fails with
  | none => .ok ()
  | some err => .error err

/-- Fails when the condition holds. -/
def check (c : Prop) [Decidable c] (err : ε) : Prog σ ε Unit := if c then fail err else pure ()

/-- How a program ended, as a value. -/
def result (x : Prog σ ε α) : Prog σ ε (Except ε α) := fun s => (.ok (x s).1, (x s).2)

/-- A program whose error is given another form. -/
def mapError (f : ε → ε) (x : Prog σ ε α) : Prog σ ε α := fun s => ((x s).1.mapError f, (x s).2)

/-- A program whose result is dropped. -/
def dropped (x : Prog σ ε α) : Prog σ ε Unit := fun s => (.ok (), (x s).2)

/-- `y` runs when `x` has ended, and its result is dropped. -/
def deferring (y : Prog σ ε β) (x : Prog σ ε α) : Prog σ ε α := fun s => ((x s).1, (y (x s).2).2)

/-- `y` runs when `x` has failed, and its result is dropped. -/
def onFail (y : Prog σ ε β) (x : Prog σ ε α) : Prog σ ε α := fun s =>
  match x s with
  | (.ok a, s') => (.ok a, s')
  | (.error err, s') => (.error err, (y s').2)

/-! ## Running a program -/

theorem run_read (f : σ → Except ε α) {s : σ} {a : α} (h : f s = .ok a) (k : α → Prog σ ε β) :
    (read f >>= k) s = k a s := by
  change andThen (read f) k s = _
  rw [andThen, read, h]

theorem run_read_error (f : σ → Except ε α) {s : σ} {err : ε} (h : f s = .error err)
    (k : α → Prog σ ε β) : (read f >>= k) s = (.error err, s) := by
  change andThen (read f) k s = _
  rw [andThen, read, h]

theorem run_check {c : Prop} [Decidable c] (h : ¬ c) (err : ε) (k : Unit → Prog σ ε β) (s : σ) :
    (check c err >>= k) s = k () s := by
  rw [check, if_neg h]
  rfl

theorem run_check_error {c : Prop} [Decidable c] (h : c) (err : ε) (k : Unit → Prog σ ε β) (s : σ) :
    (check c err >>= k) s = (.error err, s) := by
  rw [check, if_pos h]
  rfl

/-! ## What a program ends in -/

/-- From `s`, the program returns a value with `Q`, or fails with `E`. -/
def Ends (x : Prog σ ε α) (s : σ) (Q : α → σ → Prop) (E : ε → σ → Prop) : Prop :=
  match x s with
  | (.ok a, s') => Q a s'
  | (.error err, s') => E err s'

variable {x : Prog σ ε α} {s : σ} {Q : α → σ → Prop} {E : ε → σ → Prop}

theorem ends_def : Ends x s Q E ↔
    (∀ a, (x s).1 = .ok a → Q a (x s).2) ∧ ∀ err, (x s).1 = .error err → E err (x s).2 := by
  unfold Ends
  split <;> rename_i heq <;> simp [heq]

theorem Ends.mono {Q' : α → σ → Prop} {E' : ε → σ → Prop} (h : Ends x s Q E)
    (hQ : ∀ a s', Q a s' → Q' a s') (hE : ∀ err s', E err s' → E' err s') : Ends x s Q' E' := by
  rw [ends_def] at h ⊢
  exact ⟨fun a ha => hQ _ _ (h.1 a ha), fun err herr => hE _ _ (h.2 err herr)⟩

theorem Ends.and {Q' : α → σ → Prop} {E' : ε → σ → Prop} (h : Ends x s Q E) (h' : Ends x s Q' E') :
    Ends x s (fun a s' => Q a s' ∧ Q' a s') (fun err s' => E err s' ∧ E' err s') := by
  rw [ends_def] at h h' ⊢
  exact ⟨fun a ha => ⟨h.1 a ha, h'.1 a ha⟩, fun err herr => ⟨h.2 err herr, h'.2 err herr⟩⟩

theorem ends_true : Ends x s (fun _ _ => True) fun _ _ => True :=
  ends_def.mpr ⟨fun _ _ => trivial, fun _ _ => trivial⟩

theorem not_ends_false : ¬ Ends x s (fun _ _ => False) fun _ _ => False := by
  intro h
  obtain ⟨hok, herr⟩ := ends_def.mp h
  cases hr : (x s).1 with
  | ok a => exact hok a hr
  | error err => exact herr err hr

/-- A program that cannot fail returns. -/
theorem Ends.returns (h : Ends x s Q fun _ _ => False) : ∃ a s', x s = (.ok a, s') ∧ Q a s' := by
  unfold Ends at h
  generalize x s = r at h
  rcases r with ⟨_ | a, s'⟩
  · exact h.elim
  · exact ⟨a, s', rfl, h⟩

theorem ends_pure {a : α} : Ends (pure a) s Q E ↔ Q a s := Iff.rfl

theorem ends_fail {err : ε} : Ends (fail err) s Q E ↔ E err s := Iff.rfl

theorem ends_get {Q : σ → σ → Prop} : Ends get s Q E ↔ Q s s := Iff.rfl

theorem ends_modify {f : σ → σ} {Q : Unit → σ → Prop} : Ends (modify f) s Q E ↔ Q () (f s) := Iff.rfl

theorem ends_read {f : σ → Except ε α} : Ends (read f) s Q E ↔
    (∀ a, f s = .ok a → Q a s) ∧ ∀ err, f s = .error err → E err s := ends_def

theorem ends_call {fails : Option ε} {Q : Unit → σ → Prop} : Ends (call fails) s Q E ↔
    (fails = none → Q () s) ∧ ∀ err, fails = some err → E err s := by
  unfold call
  rw [ends_read]
  cases fails with
  | none => exact ⟨fun h => ⟨fun _ => h.1 () rfl, nofun⟩, fun h => ⟨fun _ _ => h.1 rfl, nofun⟩⟩
  | some err =>
    refine ⟨fun h => ⟨nofun, fun err' herr => ?_⟩, fun h => ⟨nofun, fun err' herr => ?_⟩⟩
    · obtain rfl := Option.some.inj herr
      exact h.2 _ rfl
    · obtain rfl := Except.error.inj herr
      exact h.2 _ rfl

theorem ends_bind {f : α → Prog σ ε β} {Q : β → σ → Prop} :
    Ends (x >>= f) s Q E ↔ Ends x s (fun a s' => Ends (f a) s' Q E) E := by
  change Ends (andThen x f) s Q E ↔ _
  unfold Ends andThen
  generalize x s = r
  rcases r with ⟨_ | _, _⟩ <;> rfl

theorem ends_check {c : Prop} [Decidable c] {err : ε} {Q : Unit → σ → Prop} :
    Ends (check c err) s Q E ↔ (c → E err s) ∧ (¬ c → Q () s) := by
  unfold check
  by_cases hc : c
  · simp [hc, ends_fail]
  · simp [hc, ends_pure]

theorem ends_ite {c : Prop} [Decidable c] {y : Prog σ ε α} :
    Ends (if c then x else y) s Q E ↔ (c → Ends x s Q E) ∧ (¬ c → Ends y s Q E) := by
  by_cases hc : c <;> simp [hc]

theorem ends_result {Q : Except ε α → σ → Prop} :
    Ends (result x) s Q E ↔
      Ends x s (fun a s' => Q (.ok a) s') (fun err s' => Q (.error err) s') := by
  unfold result Ends
  dsimp only
  generalize x s = r
  rcases r with ⟨_ | _, _⟩ <;> rfl

theorem ends_mapError {f : ε → ε} :
    Ends (mapError f x) s Q E ↔ Ends x s Q fun err s' => E (f err) s' := by
  unfold mapError Ends
  dsimp only
  generalize x s = r
  rcases r with ⟨_ | _, _⟩ <;> rfl

theorem ends_dropped {Q : Unit → σ → Prop} :
    Ends (dropped x) s Q E ↔ Ends x s (fun _ s' => Q () s') (fun _ s' => Q () s') := by
  unfold dropped Ends
  dsimp only
  generalize x s = r
  rcases r with ⟨_ | _, _⟩ <;> rfl

theorem ends_deferring {y : Prog σ ε β} :
    Ends (deferring y x) s Q E ↔
      Ends x s (fun a s' => Ends y s' (fun _ s'' => Q a s'') (fun _ s'' => Q a s''))
        (fun err s' => Ends y s' (fun _ s'' => E err s'') (fun _ s'' => E err s'')) := by
  unfold deferring Ends
  dsimp only
  generalize x s = r
  rcases r with ⟨_ | _, s'⟩ <;> dsimp only <;> generalize y s' = r' <;>
    rcases r' with ⟨_ | _, _⟩ <;> rfl

theorem ends_onFail {y : Prog σ ε β} :
    Ends (onFail y x) s Q E ↔
      Ends x s Q (fun err s' => Ends y s' (fun _ s'' => E err s'') (fun _ s'' => E err s'')) := by
  unfold onFail Ends
  dsimp only
  generalize x s = r
  rcases r with ⟨_ | _, s'⟩
  · dsimp only
    generalize y s' = r'
    rcases r' with ⟨_ | _, _⟩ <;> rfl
  · rfl

/-! ## What a program keeps -/

/-- What holds of the state before the program holds after it, however it ends. -/
def Keeps (I : σ → Prop) (x : Prog σ ε α) : Prop := ∀ s, I s → Ends x s (fun _ => I) fun _ => I

variable {I : σ → Prop}

theorem Keeps.at (hx : Keeps I x) (hs : I s) : I (x s).2 := by
  have hends := ends_def.mp (hx s hs)
  cases hr : (x s).1 with
  | ok a => exact hends.1 a hr
  | error err => exact hends.2 err hr

theorem keeps_pure (a : α) : Keeps I (pure a : Prog σ ε α) := fun _ hs => hs

theorem keeps_bind {f : α → Prog σ ε β} (hx : Keeps I x) (hf : ∀ a, Keeps I (f a)) :
    Keeps I (x >>= f) := fun s hs =>
  ends_bind.mpr ((hx s hs).mono (fun a s' hs' => hf a s' hs') fun _ _ hs' => hs')

theorem keeps_ite {c : Prop} [Decidable c] {y : Prog σ ε α} (hx : Keeps I x) (hy : Keeps I y) :
    Keeps I (if c then x else y) := fun s hs =>
  ends_ite.mpr ⟨fun _ => hx s hs, fun _ => hy s hs⟩

theorem keeps_result (hx : Keeps I x) : Keeps I (result x) := fun s hs =>
  ends_result.mpr (hx s hs)

theorem keeps_dropped (hx : Keeps I x) : Keeps I (dropped x) := fun s hs =>
  ends_dropped.mpr (hx s hs)

end Prog

end LukePanel.Library.Attempt
