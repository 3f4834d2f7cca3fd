import LukePanel.Library.Renames
import LukePanel.Server.PanelBackup

/-! # Installing restored data

`installRestoredData` of `internal/server/backup.go` and the two functions it returns. A step
renames whole entries between the data directory, the staged tree and the rollback directory,
so an entry is whatever its name holds: its type, its content, the tree below it. The n-th file
operation of the installation fails where `fails n` says so. -/
namespace LukePanel.Server.RestoreInstall
open LukePanel.Library.Renames LukePanel.Server.PanelBackup

/-- The directories whose entries are renamed: `dataRoot`, `stagedRoot` and `rollbackRoot`. -/
inductive Place where
  | data | staged | rollback
  deriving DecidableEq, Repr

structure Path where
  place : Place
  name : String
  deriving DecidableEq, Repr

/-- An operation that can fail. -/
inductive Op where
  | mkdirTemp
  | lstat (p : Path)
  | mkdirAll (p : Place)
  | rename (src dst : Path)
  deriving DecidableEq, Repr

/-- `rollbackRoot` tells whether the directory `.restore-rollback-*` is there. -/
structure Disk (ν : Type) where
  entry : Path → Option ν
  rollbackRoot : Bool

structure RestoreMove where
  target : Path
  old : Path
  hadOld : Bool
  installed : Bool

variable {ν : Type} (blocks : ν → ν → Bool)

/-! ## What the returned functions share -/

structure Transaction where
  moves : List RestoreMove
  done : Bool

/-- The disk while `rollback` runs, and its `first` error. -/
structure Undo (ν : Type) where
  entry : Path → Option ν
  first : Option Op

/-- One round of the loop of `rollback`; its `RemoveAll` succeeds. -/
def undoMove (move : RestoreMove) (u : Undo ν) : Undo ν :=
  let entry := if move.installed then Function.update u.entry move.target none else u.entry
  if move.hadOld then
    match Library.Renames.rename blocks entry move.old move.target with
    | some entry => { u with entry }
    | none => { entry, first := u.first <|> some (.rename move.old move.target) }
  else { u with entry }

/-- `os.RemoveAll(rollbackRoot)`. -/
def Disk.removeRollbackRoot (disk : Disk ν) : Disk ν where
  entry p := if p.place = .rollback then none else disk.entry p
  rollbackRoot := false

/-- Nothing is removed or renamed once one of the functions has run. -/
def rollback (tx : Transaction) (disk : Disk ν) : Option Op × Transaction × Disk ν :=
  if tx.done then (none, tx, disk)
  else
    let undone := tx.moves.foldr (undoMove blocks) ⟨disk.entry, none⟩
    (undone.first, { tx with done := true },
      { disk with entry := undone.entry }.removeRollbackRoot)

def commit (tx : Transaction) (disk : Disk ν) : Option Op × Transaction × Disk ν :=
  if tx.done then (none, tx, disk)
  else (none, { tx with done := true }, disk.removeRollbackRoot)

/-! ## The installation -/

variable (fails : ℕ → Bool)

/-- The local state of `installRestoredData`, and how many operations it has tried. -/
structure Install (ν : Type) where
  disk : Disk ν
  moves : List RestoreMove
  ops : ℕ

/-- An error keeps the state it left. -/
abbrev Attempt (ν α : Type) := Except (Op × Install ν) α

def attempt (op : Op) (s : Install ν) : Attempt ν (Install ν) :=
  let next := { s with ops := s.ops + 1 }
  if fails s.ops then .error (op, next) else .ok next

def rename (src dst : Path) (s : Install ν) : Attempt ν (Install ν) := do
  let s ← attempt fails (.rename src dst) s
  match Library.Renames.rename blocks s.disk.entry src dst with
  | none => .error (.rename src dst, s)
  | some entry => .ok { s with disk := { s.disk with entry } }

def staged (item : String) : Path := ⟨.staged, item⟩
def target (item : String) : Path := ⟨.data, item⟩
def old (item : String) : Path := ⟨.rollback, item⟩

/-- What is at the target goes to the rollback directory; the flag is `hadOld`. -/
def setAside (item : String) (s : Install ν) : Attempt ν (Bool × Install ν) := do
  let s ← attempt fails (.lstat (target item)) s
  match s.disk.entry (target item) with
  | none => .ok (false, s)
  | some _ =>
    let s ← attempt fails (.mkdirAll .rollback) s
    let s ← rename blocks fails (target item) (old item) s
    .ok (true, s)

/-- The staged entry takes the place of the target. A move that fails here is still recorded,
for its first half has been made. -/
def moveIn (item : String) (hadOld : Bool) (s : Install ν) : Attempt ν (Install ν) :=
  let placed := do
    let s ← attempt fails (.mkdirAll .data) s
    rename blocks fails (staged item) (target item) s
  match placed with
  | .error (op, s) =>
    .error (op, { s with moves := s.moves ++ [⟨target item, old item, hadOld, false⟩] })
  | .ok s => .ok { s with moves := s.moves ++ [⟨target item, old item, hadOld, true⟩] }

/-- One round of the loop over `panelBackupDataRoots`. -/
def installItem (s : Install ν) (item : String) : Attempt ν (Install ν) := do
  let s ← attempt fails (.lstat (staged item)) s
  match s.disk.entry (staged item) with
  | none => .ok s
  | some _ =>
    let (hadOld, s) ← setAside blocks fails item s
    moveIn blocks fails item hadOld s

/-- An error is returned after a rollback. -/
def installRestoredData (disk : Disk ν) : Except Op Transaction × Disk ν :=
  if fails 0 then (.error .mkdirTemp, disk)
  else
    match panelBackupDataRoots.foldlM (installItem blocks fails)
        ⟨{ disk with rollbackRoot := true }, [], 1⟩ with
    | .error (op, s) => (.error op, (rollback blocks ⟨s.moves, false⟩ s.disk).2.2)
    | .ok s => (.ok ⟨s.moves, false⟩, s.disk)

/-! ## What undoing a move gives back -/

/-- The entries agree outside the staging directory. -/
def Agree (e e' : Path → Option ν) : Prop := ∀ p, p.place ≠ .staged → e p = e' p

theorem Path.ne_of_place {p q : Path} (h : p.place ≠ q.place) : p ≠ q := fun heq =>
  h (congrArg Path.place heq)

theorem Path.ne_of_name {p q : Path} (h : p.name ≠ q.name) : p ≠ q := fun heq =>
  h (congrArg Path.name heq)

theorem target_ne_old (item other : String) : target item ≠ old other :=
  Path.ne_of_place (show Place.data ≠ .rollback by decide)

theorem target_ne_staged (item other : String) : target item ≠ staged other :=
  Path.ne_of_place (show Place.data ≠ .staged by decide)

theorem old_ne_staged (item other : String) : old item ≠ staged other :=
  Path.ne_of_place (show Place.rollback ≠ .staged by decide)

/-- Undoing one move, from entries in which the target was set aside if it was there and is
free now unless the staged entry came in, gives back the entries before the move. -/
theorem undoMove_spec {e e' : Path → Option ν} {item : String} {installed : Bool}
    (hrest : ∀ p, p.place ≠ .staged → p ≠ target item → p ≠ old item → e' p = e p)
    (hfree : e (old item) = none) (hold : e' (old item) = e (target item))
    (htarget : installed = true ∨ e' (target item) = none) (first : Option Op) :
    ∃ entry, undoMove blocks ⟨target item, old item, (e (target item)).isSome, installed⟩
      ⟨e', first⟩ = ⟨entry, first⟩ ∧ Agree entry e := by
  have hne := target_ne_old item item
  -- the entries once the target is free
  obtain ⟨cleared, hcleared, hgone, hsame⟩ : ∃ cleared,
      (if installed then Function.update e' (target item) none else e') = cleared ∧
      cleared (target item) = none ∧ ∀ p, p ≠ target item → cleared p = e' p := by
    refine ⟨_, rfl, ?_, ?_⟩
    · cases installed with
      | true => exact Function.update_self ..
      | false => exact htarget.resolve_left Bool.false_ne_true
    · intro p hp
      cases installed with
      | true => exact Function.update_of_ne hp ..
      | false => rfl
  simp only [undoMove, hcleared]
  cases hhad : e (target item) with
  | none =>
    refine ⟨cleared, rfl, fun p hp => ?_⟩
    by_cases ht : p = target item
    · rw [ht, hgone, hhad]
    · rw [hsame p ht]
      by_cases ho : p = old item
      · rw [ho, hold, hhad, hfree]
      · exact hrest p hp ht ho
  | some node =>
    have haside : cleared (old item) = some node := by
      rw [hsame _ hne.symm, hold, hhad]
    simp only [Option.isSome_some, if_true, rename_free blocks haside hgone]
    refine ⟨_, rfl, fun p hp => ?_⟩
    by_cases ht : p = target item
    · rw [ht, Function.update_self, hhad]
    · rw [Function.update_of_ne ht]
      by_cases ho : p = old item
      · rw [ho, Function.update_self, hfree]
      · rw [Function.update_of_ne ho, hsame p ht]
        exact hrest p hp ht ho

/-- Undoing the moves takes these entries, or any that agree with them, back to `before`. -/
def Undoes (moves : List RestoreMove) (e before : Path → Option ν) : Prop :=
  ∀ e' first, Agree e' e → ∃ entry,
    moves.foldr (undoMove blocks) ⟨e', first⟩ = ⟨entry, first⟩ ∧ Agree entry before

variable {blocks} {fails} {before : Path → Option ν} {seen : List String} {s s' : Install ν}

theorem Undoes.nil {e : Path → Option ν} (h : Agree e before) : Undoes blocks [] e before :=
  fun e' _ he' => ⟨e', rfl, fun p hp => (he' p hp).trans (h p hp)⟩

/-- The last move made is undone first. -/
theorem Undoes.concat {moves : List RestoreMove} {e e' : Path → Option ν} {item : String}
    {installed : Bool} (h : Undoes blocks moves e before)
    (hrest : ∀ p, p.place ≠ .staged → p ≠ target item → p ≠ old item → e' p = e p)
    (hfree : e (old item) = none) (hold : e' (old item) = e (target item))
    (htarget : installed = true ∨ e' (target item) = none) :
    Undoes blocks (moves ++ [⟨target item, old item, (e (target item)).isSome, installed⟩]) e'
      before := by
  intro e'' first hagree
  obtain ⟨entry, hundo, hback⟩ := undoMove_spec blocks
    (fun p hp ht ho => (hagree p hp).trans (hrest p hp ht ho)) hfree
    ((hagree (old item) (show Place.rollback ≠ .staged by decide)).trans hold)
    (htarget.imp id fun ht =>
      (hagree (target item) (show Place.data ≠ .staged by decide)).trans ht) first
  obtain ⟨restored, hall, hbefore⟩ := h entry first hback
  refine ⟨restored, ?_, hbefore⟩
  rw [List.foldr_append, List.foldr_cons, List.foldr_nil, hundo, hall]

/-! ## How an attempt ends -/

/-- An attempt ends in a value with the property `ok`, or an operation fails and leaves a state
with the property `err`. -/
def Ends {α : Type} (fails : ℕ → Bool) (x : Attempt ν α) (ok : α → Prop)
    (err : Install ν → Prop) : Prop :=
  match x with
  | .ok a => ok a
  | .error (_, s) => err s ∧ ∃ n, fails n = true

theorem Ends.bind {α β : Type} {x : Attempt ν α} {f : α → Attempt ν β} {ok : α → Prop}
    {ok' : β → Prop} {err : Install ν → Prop} (h : Ends fails x ok err)
    (hf : ∀ a, ok a → Ends fails (f a) ok' err) : Ends fails (x >>= f) ok' err := by
  cases x with
  | error e => exact h
  | ok a => exact hf a h

theorem Ends.mono {α : Type} {x : Attempt ν α} {ok ok' : α → Prop} {err err' : Install ν → Prop}
    (h : Ends fails x ok err) (hok : ∀ a, ok a → ok' a) (herr : ∀ s, err s → err' s) :
    Ends fails x ok' err' := by
  cases x with
  | error e => exact ⟨herr e.2 h.1, h.2⟩
  | ok a => exact hok a h

/-- Nothing but the count of operations has changed. -/
def Same (s s' : Install ν) : Prop := s'.disk = s.disk ∧ s'.moves = s.moves

theorem Same.trans {s s' s'' : Install ν} (h : Same s s') (h' : Same s' s'') : Same s s'' :=
  ⟨h'.1.trans h.1, h'.2.trans h.2⟩

theorem attempt_ends (op : Op) (s : Install ν) :
    Ends fails (attempt fails op s) (Same s) (Same s) := by
  unfold attempt
  cases hfails : fails s.ops with
  | true => exact ⟨⟨rfl, rfl⟩, s.ops, hfails⟩
  | false => exact ⟨rfl, rfl⟩

/-- A rename onto a free path. -/
theorem rename_ends {src dst : Path} {node : ν} (hsrc : s.disk.entry src = some node)
    (hdst : s.disk.entry dst = none) :
    Ends fails (rename blocks fails src dst s)
      (fun s' => s'.moves = s.moves ∧ s'.disk = { s.disk with
        entry := Function.update (Function.update s.disk.entry src none) dst (some node) })
      (Same s) := by
  refine (attempt_ends (.rename src dst) s).bind fun t ht => ?_
  obtain ⟨hdisk, hmoves⟩ := ht
  have hrename := rename_free blocks (hdisk ▸ hsrc) (hdisk ▸ hdst)
  simp only [hrename]
  exact ⟨hmoves, by rw [hdisk]⟩

/-- The entries once what is at the target has been set aside. -/
def aside (item : String) (e : Path → Option ν) : Path → Option ν :=
  Function.update (Function.update e (target item) none) (old item) (e (target item))

theorem aside_old (item : String) (e : Path → Option ν) :
    aside item e (old item) = e (target item) := Function.update_self ..

theorem aside_target (item : String) (e : Path → Option ν) :
    aside item e (target item) = none := by
  unfold aside
  rw [Function.update_of_ne (target_ne_old item item), Function.update_self]

theorem aside_other {item : String} {p : Path} (e : Path → Option ν) (ht : p ≠ target item)
    (ho : p ≠ old item) : aside item e p = e p := by
  unfold aside
  rw [Function.update_of_ne ho, Function.update_of_ne ht]

theorem setAside_ends (item : String) (hfree : s.disk.entry (old item) = none) :
    Ends fails (setAside blocks fails item s)
      (fun r => r.1 = (s.disk.entry (target item)).isSome ∧ r.2.moves = s.moves ∧
        r.2.disk = { s.disk with entry := aside item s.disk.entry })
      (Same s) := by
  refine (attempt_ends (.lstat (target item)) s).bind fun t ht => ?_
  rw [ht.1]
  cases htarget : s.disk.entry (target item) with
  | none =>
    have htaken : Function.update s.disk.entry (target item) none = s.disk.entry :=
      Function.update_eq_self_iff.mpr htarget.symm
    have haside : aside item s.disk.entry = s.disk.entry := by
      unfold aside
      rw [htarget, htaken]
      exact Function.update_eq_self_iff.mpr hfree.symm
    refine ⟨rfl, ht.2, ?_⟩
    rw [haside]
    exact ht.1
  | some node =>
    refine ((attempt_ends (.mkdirAll .rollback) t).mono (fun _ hu => hu) fun _ hu =>
      Same.trans ht hu).bind fun u hu => ?_
    have hsame : Same s u := Same.trans ht hu
    refine ((rename_ends (hsame.1 ▸ htarget) (hsame.1 ▸ hfree)).mono (fun _ hv => hv) fun _ hv =>
      hsame.trans hv).bind fun v hv => ?_
    refine ⟨rfl, hv.1.trans hsame.2, ?_⟩
    rw [hv.2, hsame.1]
    unfold aside
    rw [htarget]

/-- The entries once the staged entry has come in. -/
def broughtIn (item : String) (node : ν) (e : Path → Option ν) : Path → Option ν :=
  Function.update (Function.update e (staged item) none) (target item) (some node)

theorem broughtIn_target (item : String) (node : ν) (e : Path → Option ν) :
    broughtIn item node e (target item) = some node := Function.update_self ..

theorem broughtIn_staged (item : String) (node : ν) (e : Path → Option ν) :
    broughtIn item node e (staged item) = none := by
  unfold broughtIn
  rw [Function.update_of_ne (target_ne_staged item item).symm, Function.update_self]

theorem broughtIn_other {item : String} {p : Path} (node : ν) (e : Path → Option ν)
    (hs : p ≠ staged item) (ht : p ≠ target item) : broughtIn item node e p = e p := by
  unfold broughtIn
  rw [Function.update_of_ne ht, Function.update_of_ne hs]

theorem moveIn_ends {item : String} {node : ν} (hadOld : Bool)
    (hstaged : s.disk.entry (staged item) = some node)
    (hfree : s.disk.entry (target item) = none) :
    Ends fails (moveIn blocks fails item hadOld s)
      (fun s' => s'.moves = s.moves ++ [⟨target item, old item, hadOld, true⟩] ∧
        s'.disk = { s.disk with entry := broughtIn item node s.disk.entry })
      (fun s' => s'.moves = s.moves ++ [⟨target item, old item, hadOld, false⟩] ∧
        s'.disk = s.disk) := by
  have hplaced : Ends fails
      (attempt fails (.mkdirAll .data) s >>= rename blocks fails (staged item) (target item))
      (fun s' => s'.moves = s.moves ∧
        s'.disk = { s.disk with entry := broughtIn item node s.disk.entry })
      (Same s) := by
    refine (attempt_ends (.mkdirAll .data) s).bind fun t ht => ?_
    refine (rename_ends (ht.1 ▸ hstaged) (ht.1 ▸ hfree)).mono (fun u hu => ?_) fun u hu =>
      ht.trans hu
    rw [ht.1, ht.2] at hu
    exact hu
  unfold moveIn
  revert hplaced
  generalize attempt fails (.mkdirAll .data) s >>= rename blocks fails (staged item) (target item)
    = placed
  intro hplaced
  cases placed with
  | error e =>
    obtain ⟨⟨hdisk, hmoves⟩, hfails⟩ := hplaced
    exact ⟨⟨by rw [hmoves], hdisk⟩, hfails⟩
  | ok t =>
    obtain ⟨hmoves, hdisk⟩ := hplaced
    exact ⟨by rw [hmoves], hdisk⟩

/-! ## The loop -/

/-- What a completed installation of the items in `items` leaves in the data directory. -/
def Replaced (items : List String) (before : Path → Option ν) (item : String) : Option ν :=
  if items.contains item && (before (staged item)).isSome then before (staged item)
  else before (target item)

/-- The items in `seen` have been visited. -/
structure Inv (blocks : ν → ν → Bool) (before : Path → Option ν) (seen : List String)
    (s : Install ν) : Prop where
  undoes : Undoes blocks s.moves s.disk.entry before
  rollbackRoot : s.disk.rollbackRoot = true
  inData : ∀ item, s.disk.entry (target item) = Replaced seen before item
  inStaged : ∀ item, s.disk.entry (staged item) =
    if seen.contains item then none else before (staged item)
  inRollback : ∀ item, seen.contains item = false → s.disk.entry (old item) = none

theorem Inv.same (h : Inv blocks before seen s) (hsame : Same s s') :
    Inv blocks before seen s' := by
  obtain ⟨hdisk, hmoves⟩ := hsame
  constructor
  · rw [hdisk, hmoves]; exact h.undoes
  · rw [hdisk]; exact h.rollbackRoot
  · rw [hdisk]; exact h.inData
  · rw [hdisk]; exact h.inStaged
  · rw [hdisk]; exact h.inRollback

/-- An item without a staged entry, or one that has been visited, is passed over. -/
theorem Inv.skip {item : String} (h : Inv blocks before seen s)
    (hnone : s.disk.entry (staged item) = none) : Inv blocks before (item :: seen) s := by
  have hgone : seen.contains item = true ∨ before (staged item) = none := by
    have := h.inStaged item
    rw [hnone] at this
    cases hseen : seen.contains item with
    | true => exact Or.inl rfl
    | false =>
      rw [hseen] at this
      exact Or.inr this.symm
  refine ⟨h.undoes, h.rollbackRoot, fun other => ?_, fun other => ?_, fun other hother => ?_⟩
  · rw [h.inData other]
    unfold Replaced
    rw [List.contains_cons]
    by_cases heq : other = item
    · subst heq
      rcases hgone with hseen | habsent
      · rw [hseen, Bool.or_true]
      · rw [habsent, Option.isSome_none, Bool.and_false, Bool.and_false]
    · rw [beq_false_of_ne heq, Bool.false_or]
  · rw [List.contains_cons]
    by_cases heq : other = item
    · subst heq
      rw [hnone, beq_self_eq_true, Bool.true_or, if_pos rfl]
    · rw [beq_false_of_ne heq, Bool.false_or, h.inStaged other]
  · rw [List.contains_cons, Bool.or_eq_false_iff] at hother
    exact h.inRollback other hother.2

/-- What is still staged has not been visited and is what was staged at first. -/
theorem Inv.unseen {item : String} {node : ν} (h : Inv blocks before seen s)
    (hnode : s.disk.entry (staged item) = some node) :
    seen.contains item = false ∧ before (staged item) = some node := by
  have hstaged := h.inStaged item
  rw [hnode] at hstaged
  cases hseen : seen.contains item with
  | true =>
    rw [hseen] at hstaged
    cases hstaged
  | false =>
    rw [hseen] at hstaged
    exact ⟨rfl, hstaged.symm⟩

/-- A staged entry takes the place of its target. -/
theorem Inv.install {item : String} {node : ν} (h : Inv blocks before seen s)
    (hnode : s.disk.entry (staged item) = some node)
    (hmoves : s'.moves = s.moves ++
      [⟨target item, old item, (s.disk.entry (target item)).isSome, true⟩])
    (hdisk : s'.disk =
      { s.disk with entry := broughtIn item node (aside item s.disk.entry) }) :
    Inv blocks before (item :: seen) s' := by
  obtain ⟨hunseen, hbefore⟩ := h.unseen hnode
  have hentry : s'.disk.entry = broughtIn item node (aside item s.disk.entry) := by rw [hdisk]
  have hrest : ∀ p, p ≠ staged item → p ≠ target item → p ≠ old item →
      s'.disk.entry p = s.disk.entry p := by
    intro p hs ht ho
    rw [hentry, broughtIn_other _ _ hs ht, aside_other _ ht ho]
  have hold : s'.disk.entry (old item) = s.disk.entry (target item) := by
    rw [hentry, broughtIn_other _ _ (old_ne_staged item item) (target_ne_old item item).symm,
      aside_old]
  constructor
  · rw [hmoves]
    refine h.undoes.concat (fun p hp ht ho => ?_) (h.inRollback item hunseen) hold
      (Or.inl rfl)
    exact hrest p (Path.ne_of_place hp) ht ho
  · rw [hdisk]
    exact h.rollbackRoot
  · intro other
    unfold Replaced
    rw [List.contains_cons]
    by_cases heq : other = item
    · subst heq
      rw [hentry, broughtIn_target, beq_self_eq_true, Bool.true_or, hbefore]
      rfl
    · rw [hrest _ (target_ne_staged other item) (Path.ne_of_name heq) (target_ne_old other item),
        beq_false_of_ne heq, Bool.false_or]
      exact h.inData other
  · intro other
    rw [List.contains_cons]
    by_cases heq : other = item
    · subst heq
      rw [hentry, broughtIn_staged, beq_self_eq_true, Bool.true_or, if_pos rfl]
    · rw [hrest _ (Path.ne_of_name heq) (target_ne_staged item other).symm
        (old_ne_staged item other).symm, beq_false_of_ne heq, Bool.false_or]
      exact h.inStaged other
  · intro other hother
    rw [List.contains_cons, Bool.or_eq_false_iff] at hother
    have hne : other ≠ item := ne_of_beq_false hother.1
    rw [hrest _ (old_ne_staged other item) (target_ne_old item other).symm
      (Path.ne_of_name hne)]
    exact h.inRollback other hother.2

/-- What can be undone after a failed installation. -/
def Undoable (blocks : ν → ν → Bool) (before : Path → Option ν) (s : Install ν) : Prop :=
  Undoes blocks s.moves s.disk.entry before

/-- One round of the loop visits one more item, or stops with moves that can be undone. -/
theorem installItem_ends (h : Inv blocks before seen s) (item : String) :
    Ends fails (installItem blocks fails s item) (Inv blocks before (item :: seen))
      (Undoable blocks before) := by
  refine ((attempt_ends (.lstat (staged item)) s).mono (fun _ ht => h.same ht) fun _ ht =>
    (h.same ht).undoes).bind fun t ht => ?_
  cases hstaged : t.disk.entry (staged item) with
  | none => exact ht.skip hstaged
  | some node =>
    have hfree := ht.inRollback item (ht.unseen hstaged).1
    refine ((setAside_ends item hfree).mono (fun _ hr => hr) fun _ hu =>
      (ht.same hu).undoes).bind fun r hr => ?_
    obtain ⟨hadOld, u⟩ := r
    obtain ⟨rfl, hmoves, hdisk⟩ := hr
    simp only at hmoves hdisk
    have hstill : u.disk.entry (staged item) = some node := by
      rw [hdisk]
      exact (aside_other _ (target_ne_staged item item).symm (old_ne_staged item item).symm).trans
        hstaged
    have hcleared : u.disk.entry (target item) = none := by
      rw [hdisk]
      exact aside_target item t.disk.entry
    refine (moveIn_ends _ hstill hcleared).mono (fun v hv => ?_) fun v hv => ?_
    · refine ht.install hstaged ?_ ?_
      · rw [hv.1, hmoves]
      · rw [hv.2, hdisk]
    · rw [hv.1, hv.2, hmoves]
      refine ht.undoes.concat (fun p _ htarget hold => ?_) hfree ?_ (Or.inr hcleared)
      · rw [hdisk]
        exact aside_other _ htarget hold
      · rw [hdisk]
        exact aside_old item t.disk.entry

theorem installItems_ends (fails : ℕ → Bool) (items : List String) (h : Inv blocks before seen s) :
    Ends fails (items.foldlM (installItem blocks fails) s)
      (Inv blocks before (items.reverse ++ seen)) (Undoable blocks before) := by
  induction items generalizing s seen with
  | nil => exact h
  | cons item rest ih =>
    rw [List.foldlM_cons, List.reverse_cons, List.append_assoc]
    exact (installItem_ends h item).bind fun t ht => ih ht

/-! ## The whole transaction -/

/-- The disk before: there is no rollback directory. -/
def initial (dataRoot stagedRoot : String → Option ν) : Disk ν where
  entry p :=
    match p.place with
    | .data => dataRoot p.name
    | .staged => stagedRoot p.name
    | .rollback => none
  rollbackRoot := false

/-- The entries of the data directory, other than the staging and the rollback directory. -/
def Disk.dataRoot (disk : Disk ν) (item : String) : Option ν := disk.entry (target item)

/-- Every staged backup root replaces its counterpart as a whole. -/
def replaced (dataRoot stagedRoot : String → Option ν) (item : String) : Option ν :=
  if panelBackupDataRoots.contains item && (stagedRoot item).isSome then stagedRoot item
  else dataRoot item

/-- The functions that a successful installation returns. -/
inductive Call where
  | commit | rollback
  deriving DecidableEq

def Call.run (blocks : ν → ν → Bool) (call : Call) (tx : Transaction) (disk : Disk ν) :
    Option Op × Transaction × Disk ν :=
  match call with
  | .commit => RestoreInstall.commit tx disk
  | .rollback => RestoreInstall.rollback blocks tx disk

/-- The disk after the calls, one after the other. -/
def calls (blocks : ν → ν → Bool) : List Call → Transaction → Disk ν → Disk ν
  | [], _, disk => disk
  | call :: rest, tx, disk =>
    let (_, tx, disk) := call.run blocks tx disk
    calls blocks rest tx disk

theorem calls_done {tx : Transaction} (hdone : tx.done = true) (cs : List Call) (disk : Disk ν) :
    calls blocks cs tx disk = disk := by
  induction cs with
  | nil => rfl
  | cons call rest ih =>
    have hcall : call.run blocks tx disk = (none, tx, disk) := by
      cases call with
      | commit => simp only [Call.run, commit, hdone, if_true]
      | rollback => simp only [Call.run, rollback, hdone, if_true]
    unfold calls
    rw [hcall]
    exact ih

theorem inv_initial (blocks : ν → ν → Bool) (dataRoot stagedRoot : String → Option ν) :
    Inv blocks (initial dataRoot stagedRoot).entry []
      ⟨{ initial dataRoot stagedRoot with rollbackRoot := true }, [], 1⟩ :=
  ⟨Undoes.nil fun _ _ => rfl, rfl, fun _ => rfl, fun _ => rfl, fun _ _ => rfl⟩

/-- A rollback from entries that the moves can be undone from. -/
theorem rollback_undoes {dataRoot stagedRoot : String → Option ν} {moves : List RestoreMove}
    {disk : Disk ν} (h : Undoes blocks moves disk.entry (initial dataRoot stagedRoot).entry) :
    ∃ after, rollback blocks ⟨moves, false⟩ disk = (none, ⟨moves, true⟩, after) ∧
      after.dataRoot = dataRoot ∧ after.rollbackRoot = false := by
  obtain ⟨entry, hundo, hagree⟩ := h disk.entry none fun _ _ => rfl
  refine ⟨{ disk with entry := entry }.removeRollbackRoot, ?_, funext fun item => ?_, rfl⟩
  · simp only [rollback, Bool.false_eq_true, if_false, hundo]
  · exact hagree (target item) (show Place.data ≠ .staged by decide)

/-- A first call has returned no error, has left exactly these entries and no rollback
directory, and whatever is called after it changes nothing. -/
def Settled (blocks : ν → ν → Bool) (call : Call) (tx : Transaction) (disk : Disk ν)
    (dataRoot : String → Option ν) : Prop :=
  (call.run blocks tx disk).1 = none ∧ ∀ more,
    (calls blocks (call :: more) tx disk).dataRoot = dataRoot ∧
    (calls blocks (call :: more) tx disk).rollbackRoot = false ∧
    calls blocks (call :: more) tx disk = calls blocks [call] tx disk

theorem settled_of_run {call : Call} {tx tx' : Transaction} {disk after : Disk ν}
    {dataRoot : String → Option ν} (hrun : call.run blocks tx disk = (none, tx', after))
    (hdone : tx'.done = true) (hdata : after.dataRoot = dataRoot)
    (hroot : after.rollbackRoot = false) : Settled blocks call tx disk dataRoot := by
  have hcalls : ∀ more, calls blocks (call :: more) tx disk = after := by
    intro more
    unfold calls
    rw [hrun]
    exact calls_done hdone more after
  refine ⟨by rw [hrun], fun more => ?_⟩
  rw [hcalls more, hcalls []]
  exact ⟨hdata, hroot, rfl⟩

/-- What a successful installation leaves to its two functions. -/
structure Installed (blocks : ν → ν → Bool) (dataRoot stagedRoot : String → Option ν)
    (tx : Transaction) (disk : Disk ν) : Prop where
  commit : Settled blocks .commit tx disk (replaced dataRoot stagedRoot)
  rollback : Settled blocks .rollback tx disk dataRoot

theorem installed_of_inv {dataRoot stagedRoot : String → Option ν} {s : Install ν}
    (h : Inv blocks (initial dataRoot stagedRoot).entry (panelBackupDataRoots.reverse ++ []) s) :
    Installed blocks dataRoot stagedRoot ⟨s.moves, false⟩ s.disk := by
  constructor
  · refine settled_of_run (show Call.run blocks .commit ⟨s.moves, false⟩ s.disk =
        (none, ⟨s.moves, true⟩, s.disk.removeRollbackRoot) from rfl) rfl
      (funext fun item => ?_) rfl
    have hdata := h.inData item
    have hroots : (panelBackupDataRoots.reverse ++ []).contains item =
        panelBackupDataRoots.contains item := by
      rw [List.append_nil, List.contains_reverse]
    unfold Replaced at hdata
    rw [hroots] at hdata
    exact hdata
  · obtain ⟨after, hrun, hdata, hroot⟩ := rollback_undoes h.undoes
    exact settled_of_run hrun rfl hdata hroot

/-- An error leaves the data directory as it was. -/
def AllOrNothing (blocks : ν → ν → Bool) (dataRoot stagedRoot : String → Option ν)
    (result : Except Op Transaction × Disk ν) : Prop :=
  match result with
  | (.error _, after) => after.dataRoot = dataRoot ∧ after.rollbackRoot = false
  | (.ok tx, after) => Installed blocks dataRoot stagedRoot tx after

/-- **The installation is a transaction.** For all data and staged entries, and whichever
operations of the installation fail: an error leaves the data directory as it was; after a
success, the first call settles the outcome, a rollback on the old entries and a commit on the
old entries with every staged root in place of its counterpart. -/
theorem installRestoredData_transaction (blocks : ν → ν → Bool) (fails : ℕ → Bool)
    (dataRoot stagedRoot : String → Option ν) :
    AllOrNothing blocks dataRoot stagedRoot
      (installRestoredData blocks fails (initial dataRoot stagedRoot)) := by
  unfold installRestoredData
  cases hmkdir : fails 0 with
  | true => exact ⟨rfl, rfl⟩
  | false =>
    have hends := installItems_ends fails panelBackupDataRoots
      (inv_initial blocks dataRoot stagedRoot)
    revert hends
    generalize panelBackupDataRoots.foldlM (installItem blocks fails) _ = loop
    intro hends
    cases loop with
    | ok s => exact installed_of_inv hends
    | error e =>
      obtain ⟨after, hrun, hdata, hroot⟩ := rollback_undoes hends.1
      simp only [Bool.false_eq_true, if_false, hrun]
      exact ⟨hdata, hroot⟩

/-- Without a failing operation the installation succeeds. -/
theorem installRestoredData_ok (blocks : ν → ν → Bool) {fails : ℕ → Bool}
    (hfails : ∀ n, fails n = false) (dataRoot stagedRoot : String → Option ν) :
    ∃ tx after, installRestoredData blocks fails (initial dataRoot stagedRoot) = (.ok tx, after) ∧
      Installed blocks dataRoot stagedRoot tx after := by
  unfold installRestoredData
  rw [hfails 0]
  have hends := installItems_ends fails panelBackupDataRoots
    (inv_initial blocks dataRoot stagedRoot)
  revert hends
  generalize panelBackupDataRoots.foldlM (installItem blocks fails) _ = loop
  intro hends
  cases loop with
  | ok s => exact ⟨_, _, rfl, installed_of_inv hends⟩
  | error e =>
    obtain ⟨n, hn⟩ := hends.2
    rw [hfails n] at hn
    cases hn

end LukePanel.Server.RestoreInstall
