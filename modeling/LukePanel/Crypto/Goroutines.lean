import LukePanel.Crypto.Argon2Tag
import LukePanel.Library.Interleaving

/-! # The goroutines of a slice

`processBlocks` starts a goroutine for each lane and waits for all of them before the next slice.
Here they take turns word by word: a step reads or writes one word of the blocks in the memory. -/
namespace LukePanel.Crypto.Argon2.Goroutines
open LukePanel.Library LukePanel.Library.Interleaving LukePanel.Crypto.Argon2.Reference
  LukePanel.Crypto.Argon2.Fill

/-- Where a goroutine is in an iteration: before it, in the first loop of `processBlockGeneric`, or
in the last one, at word `i` and with the blocks `prev` and `newOffset` as inputs. -/
inductive Phase where
  | top
  | mix (prev newOffset : Nat) (i : Fin blockLength) (t : Block)
  | write (prev newOffset : Nat) (i : Fin blockLength) (t : Block)

structure State where
  vars : Local
  phase : Phase

def word (B : Array Block) (p : Nat) (i : Fin blockLength) : Option UInt64 := B[p]?.map (·.get i)

def firstWord : Fin blockLength := ⟨0, zero_lt_blockLength⟩

/-- The word after `i`, if there is one. -/
def nextWord (i : Fin blockLength) : Option (Fin blockLength) :=
  if h : i.val + 1 < blockLength then some ⟨i.val + 1, h⟩ else none

/-- The head of the loop: the reference is drawn, and the three blocks are looked up. -/
def enter (z : Sizes) (here : Place) (l : Local) (B : Array Block) : Option State := do
  let (random, l) ← draw z here l B
  let newOffset := indexAlpha random z.lanes z.segments z.threads here.n here.slice here.lane l.index
  let _ ← B[l.offset.toNat]?
  let _ ← B[(prev z here l).toNat]?
  let _ ← B[newOffset.toNat]?
  return ⟨l, .mix (prev z here l).toNat newOffset.toNat firstWord zero⟩

/-- Behind word `i` of the first loop, with the words of `t` so far. -/
def mixed (prev newOffset : Nat) (i : Fin blockLength) (t : Block) : Phase :=
  match nextWord i with
  | some i => .mix prev newOffset i t
  | none => .write prev newOffset firstWord (permute t)

/-- Behind word `i` of the last loop. -/
def written (l : Local) (prev newOffset : Nat) (i : Fin blockLength) (t : Block) : State :=
  match nextWord i with
  | some i => ⟨l, .write prev newOffset i t⟩
  | none => ⟨{ l with index := l.index + 1, offset := l.offset + 1 }, .top⟩

def step (z : Sizes) (here : Place) (s : State) (B : Array Block) : Option (State × Array Block) :=
  match s.phase with
  | .top => if s.vars.index < z.segments then (enter z here s.vars B).map (·, B) else none
  | .mix prev newOffset i t => do
    let x ← word B prev i
    let y ← word B newOffset i
    return (⟨s.vars, mixed prev newOffset i (t.set i (x ^^^ y))⟩, B)
  | .write prev newOffset i t => do
    let x ← word B prev i
    let y ← word B newOffset i
    let out ← B[s.vars.offset.toNat]?
    return (written s.vars prev newOffset i t,
      B.setIfInBounds s.vars.offset.toNat (out.set i (out[i] ^^^ (x ^^^ y ^^^ t[i]))))

theorem step_top (z : Sizes) (here : Place) (l : Local) (B : Array Block) :
    step z here ⟨l, .top⟩ B = if l.index < z.segments then (enter z here l B).map (·, B) else none := rfl

theorem step_mix (z : Sizes) (here : Place) (l : Local) (prev newOffset : Nat) (i : Fin blockLength)
    (t : Block) (B : Array Block) : step z here ⟨l, .mix prev newOffset i t⟩ B = do
      let x ← word B prev i
      let y ← word B newOffset i
      return (⟨l, mixed prev newOffset i (t.set i (x ^^^ y))⟩, B) := rfl

theorem step_write (z : Sizes) (here : Place) (l : Local) (prev newOffset : Nat) (i : Fin blockLength)
    (t : Block) (B : Array Block) : step z here ⟨l, .write prev newOffset i t⟩ B = do
      let x ← word B prev i
      let y ← word B newOffset i
      let out ← B[l.offset.toNat]?
      return (written l prev newOffset i t,
        B.setIfInBounds l.offset.toNat (out.set i (out[i] ^^^ (x ^^^ y ^^^ t[i])))) := rfl

/-- The goroutine has come to the end of its segment. -/
def State.Done (z : Sizes) (s : State) : Prop := s.phase = .top ∧ ¬s.vars.index < z.segments

/-- The goroutines of a slice. -/
def goroutines (z : Sizes) (n slice : UInt32) : Threads (Fin z.threads.toNat) State (Array Block) :=
  fun lane => step z ⟨n, slice, lane.val.toUInt32⟩

/-- When they are started. -/
def start (z : Sizes) (n slice : UInt32) (B : Array Block) :
    Pool (Fin z.threads.toNat) State (Array Block) :=
  ⟨fun lane => ⟨begin z ⟨n, slice, lane.val.toUInt32⟩, .top⟩, B⟩

/-- The next step of a goroutine reads or writes a word of block `p`. -/
def State.Touches (z : Sizes) (here : Place) (s : State) (p : Nat) : Prop :=
  match s.phase with
  | .top => s.vars.index < z.segments ∧ ¬here.independent ∧ p = (prev z here s.vars).toNat
  | .mix prev newOffset _ _ => p = prev ∨ p = newOffset
  | .write prev newOffset _ _ => p = prev ∨ p = newOffset ∨ p = s.vars.offset.toNat

def State.Writes (s : State) (p : Nat) : Prop :=
  match s.phase with
  | .write _ _ _ _ => p = s.vars.offset.toNat
  | _ => False

/-- Two goroutines of a slice come to steps on one block, and one of them writes it. -/
def SliceRaces (z : Sizes) (n slice : UInt32) (B : Array Block) : Prop :=
  ∃ schedule c lane lane' p, (goroutines z n slice).run (start z n slice B) schedule = some c ∧
    lane ≠ lane' ∧ (c.locals lane).Writes p ∧
    (c.locals lane').Touches z ⟨n, slice, lane'.val.toUInt32⟩ p

/-- The goroutines of a slice take turns in some order until `wg.Wait` returns. -/
def SliceRuns (z : Sizes) (n slice : UInt32) (B B' : Array Block) : Prop :=
  ∃ schedule c, (goroutines z n slice).run (start z n slice B) schedule = some c ∧
    (∀ lane, (c.locals lane).Done z) ∧ c.memory = B'

def PassRuns (z : Sizes) (n : UInt32) : Array Block → Array Block → Prop :=
  CountedLoops.InTurn (fun slice => SliceRuns z n slice.toUInt32) syncPoints.toNat

def FillRuns (z : Sizes) : Array Block → Array Block → Prop :=
  CountedLoops.InTurn (fun n => PassRuns z n.toUInt32) z.time.toNat

/-- A goroutine comes to a step that it cannot take. -/
def SlicePanics (z : Sizes) (n slice : UInt32) (B : Array Block) : Prop :=
  ∃ schedule c lane, (goroutines z n slice).run (start z n slice B) schedule = some c ∧
    goroutines z n slice lane (c.locals lane) c.memory = none ∧ ¬(c.locals lane).Done z

def FillPanics (z : Sizes) (B : Array Block) : Prop :=
  ∃ n < z.time.toNat, ∃ slice < syncPoints.toNat, ∃ B₁ B₂,
    CountedLoops.InTurn (fun n => PassRuns z n.toUInt32) n B B₁ ∧
    CountedLoops.InTurn (fun slice => SliceRuns z n.toUInt32 slice.toUInt32) slice B₁ B₂ ∧
    SlicePanics z n.toUInt32 slice.toUInt32 B₂

section Key
variable (password salt : List UInt8) (time memory : UInt32) (threads : UInt8) (keyLen : UInt32)

/-- The sizes that `IDKey` calls `processBlocks` with. -/
def sizes : Sizes := ⟨roundMemory memory threads.toUInt32, time, threads.toUInt32⟩

/-- The memory that the goroutines of the first slice are started with. -/
def begun : Option (Array Block) := do
  let h0 ← initHash password salt [] [] time memory threads.toUInt32 keyLen
  initBlocks h0 (roundMemory memory threads.toUInt32) threads.toUInt32

/-- `IDKey` may end with `key`. -/
def Derives (key : List UInt8) : Prop :=
  ¬time < 1 ∧ ¬threads < 1 ∧ ∃ B B', begun password salt time memory threads keyLen = some B ∧
    FillRuns (sizes time memory threads) B B' ∧
    extractKey B' (roundMemory memory threads.toUInt32) threads.toUInt32 keyLen = some key

/-- `IDKey` may panic, itself or in a goroutine. -/
def Panics : Prop :=
  time < 1 ∨ threads < 1 ∨ begun password salt time memory threads keyLen = none ∨
    ∃ B, begun password salt time memory threads keyLen = some B ∧
      (FillPanics (sizes time memory threads) B ∨
        ∃ B', FillRuns (sizes time memory threads) B B' ∧
          extractKey B' (roundMemory memory threads.toUInt32) threads.toUInt32 keyLen = none)

end Key

variable {S : Shape} {z : Sizes} {B B' : Array Block} {n slice lane index : Nat} {here : Place}

/-! ## What a goroutine touches -/

/-- The blocks that may be the reference of a block. -/
def Allowed (S : Shape) (slice lane index p : Nat) : Prop :=
  ∃ lane' column, p = S.place lane' column ∧ column < S.columns ∧
    (lane' = lane → column ≠ slice * S.segment + index) ∧
    (lane' ≠ lane → column < slice * S.segment ∨ (slice + 1) * S.segment ≤ column)

/-- A phase with its inputs where they have to be. -/
def Phase.Good (S : Shape) (slice lane index : Nat) : Phase → Prop
  | .top => index ≤ S.segment
  | .mix prev newOffset _ _ | .write prev newOffset _ _ =>
    index < S.segment ∧ prev = S.place lane (before S slice index) ∧ Allowed S slice lane index newOffset

structure Good (S : Shape) (n slice lane : Nat) (s : State) : Prop where
  offset_eq : s.vars.offset.toNat = S.place lane (slice * S.segment + s.vars.index.toNat)
  begun : n = 0 → slice = 0 → 2 ≤ s.vars.index.toNat
  phase : s.phase.Good S slice lane s.vars.index.toNat

/-- Each owns its segment. -/
def regions (z : Sizes) (S : Shape) (n slice : Nat) :
    Regions (Fin z.threads.toNat) State (Array Block) Nat (Option Block) where
  get B p := B[p]?
  own lane := S.Segment slice lane
  good lane := Good S n slice lane

theorem draw_vars {l l' : Local} {word : UInt64} (h : draw z here l B = some (word, l')) :
    l'.index = l.index ∧ l'.offset = l.offset := by
  unfold draw at h
  split at h
  · have hrenew : (renew l).index = l.index ∧ (renew l).offset = l.offset := by
      unfold renew nextAddresses
      split
      · exact ⟨rfl, rfl⟩
      · exact ⟨rfl, rfl⟩
    cases h
    exact hrenew
  · obtain ⟨block, -, heq⟩ := Option.map_eq_some_iff.mp h
    cases heq
    exact ⟨rfl, rfl⟩

theorem before_ne (h : S.Within n slice lane index) :
    before S slice index ≠ slice * S.segment + index := by
  have hcolumn := column_lt h
  have htwo := S.two_le
  unfold before
  split
  · rename_i hzero
    rw [hzero.1, hzero.2]
    simp only [Shape.columns]
    omega
  · rename_i hpos
    have : slice ≠ 0 → 0 < slice * S.segment := fun h => Nat.mul_pos (Nat.pos_of_ne_zero h) (by omega)
    omega

theorem allowed_reference (h : S.Within n slice lane index) (word : Nat) :
    Allowed S slice lane index
      (S.place (S.refLane n slice lane word) (S.refColumn n slice lane index word)) := by
  by_cases heq : S.refLane n slice lane word = lane
  · obtain ⟨hlt, hout, -⟩ := refColumn_of_eq h heq
    have hindex := h.index_lt
    rw [Nat.succ_mul] at hout
    exact ⟨_, _, rfl, hlt, fun _ => by omega, fun hne => absurd heq hne⟩
  · obtain ⟨hlt, hout⟩ := refColumn_of_ne h heq
    exact ⟨_, _, rfl, hlt, fun heq' => absurd heq' heq, fun _ => hout.imp_right (·.2)⟩

theorem Allowed.ne {p : Nat} (h : Allowed S slice lane index p) (hwithin : S.Within n slice lane index) :
    p ≠ S.place lane (slice * S.segment + index) := by
  obtain ⟨lane', column, rfl, hcolumn, hown, -⟩ := h
  intro heq
  obtain ⟨hlane, hcol⟩ := place_inj hcolumn (column_lt hwithin) heq
  exact hown hlane hcol

/-- The blocks that a goroutine reads and the one that it writes are in no segment of another. -/
theorem Allowed.not_segment {p lane' : Nat} (h : Allowed S slice lane index p) (hslice : slice < 4)
    (hne : lane' ≠ lane) : ¬S.Segment slice lane' p := by
  obtain ⟨lane'', column, rfl, hcolumn, -, hout⟩ := h
  by_cases heq : lane'' = lane
  · exact Reference.not_segment hslice hcolumn (Or.inl (by omega))
  · exact Reference.not_segment hslice hcolumn (Or.inr (hout heq))

/-- Whatever the memory size, a reference is a block of the memory, but not the one that is computed
nor the one before it, and of those that the slice computes only an earlier one of the same lane. -/
theorem reference_apart (time memory : UInt32) (threads : UInt8) {l : Local}
    (hslice : here.slice.toNat < 4) (hlane : here.lane.toNat < threads.toNat)
    (hindex : l.index < (sizes time memory threads).segments)
    (hbegun : here.n = 0 → here.slice = 0 → 2 ≤ l.index.toNat)
    (hoffset : l.offset = here.lane * (sizes time memory threads).lanes +
      here.slice * (sizes time memory threads).segments + l.index) (random : UInt64) :
    let z := sizes time memory threads
    let p := indexAlpha random z.lanes z.segments z.threads here.n here.slice here.lane l.index
    p < z.memory ∧ p ≠ l.offset ∧ p ≠ prev z here l ∧
      ∀ lane' index', lane' < z.threads → index' < z.segments →
        p = lane' * z.lanes + here.slice * z.segments + index' →
        lane' = here.lane ∧ index'.toNat + 1 < l.index.toNat := by
  have hthreads : 0 < threads.toNat := by omega
  have hf : Fits (sizes time memory threads) _ := fits_shapeOf memory time threads hthreads
  have hat : At here here.n.toNat here.slice.toNat here.lane.toNat := ⟨rfl, rfl, rfl⟩
  generalize hz : sizes time memory threads = z at hf hindex hoffset ⊢
  generalize hS : shapeOf memory threads hthreads = S at hf
  have hlanes : here.lane.toNat < S.lanes := hS ▸ hlane
  have hwithin : S.Within here.n.toNat here.slice.toNat here.lane.toNat l.index.toNat :=
    ⟨hslice, hlanes, hf.segments ▸ UInt32.lt_iff_toNat_lt.mp hindex, fun hn hs =>
      hbegun (UInt32.toNat_inj.mp hn) (UInt32.toNat_inj.mp hs)⟩
  have hplace : l.offset.toNat = S.place here.lane.toNat (here.slice.toNat * S.segment + l.index.toNat) := by
    rw [hoffset]
    exact toNat_offset hf hat hslice hlanes (Nat.le_of_lt hwithin.index_lt)
  have hprev := toNat_prev hf hat (l := l) rfl hplace hwithin
  have halpha := toNat_indexAlpha hf hwithin random
  have hallowed := allowed_reference hwithin random.toNat
  simp only
  rw [← Shape.place] at halpha
  have hcolumn : S.refColumn here.n.toNat here.slice.toNat here.lane.toNat l.index.toNat random.toNat <
      S.columns := by
    by_cases heq : S.refLane here.n.toNat here.slice.toNat here.lane.toNat random.toNat = here.lane.toNat
    · exact (refColumn_of_eq hwithin heq).1
    · exact (refColumn_of_ne hwithin heq).1
  refine ⟨?_, fun heq => ?_, fun heq => ?_, fun lane' index' hlane' hindex' heq => ?_⟩
  · rw [UInt32.lt_iff_toNat_lt, halpha, hf.memory]
    exact place_lt (refLane_lt hwithin) hcolumn
  · exact hallowed.ne hwithin (by rw [← halpha, heq, hplace])
  · rw [heq, hprev] at halpha
    obtain ⟨hlane, hbefore⟩ := place_inj (before_lt hwithin) hcolumn halpha
    have hown := refColumn_of_eq hwithin hlane.symm
    have hlt := column_lt hwithin
    rw [← hbefore, Nat.succ_mul] at hown
    unfold before at hown
    have := hwithin.index_lt
    grind
  · have hthere : At ⟨here.n, here.slice, lane'⟩ here.n.toNat here.slice.toNat lane'.toNat :=
      ⟨rfl, rfl, rfl⟩
    have hother := toNat_offset hf hthere hslice
      (hf.threads ▸ UInt32.lt_iff_toNat_lt.mp hlane') (i := index')
      (Nat.le_of_lt (hf.segments ▸ UInt32.lt_iff_toNat_lt.mp hindex'))
    simp only at hother
    have hlt : index'.toNat < S.segment := hf.segments ▸ UInt32.lt_iff_toNat_lt.mp hindex'
    have hend := slice_end S hslice
    rw [heq, hother] at halpha
    obtain ⟨hlane, hsame⟩ := place_inj (by rw [Nat.succ_mul] at hend; omega) hcolumn halpha
    by_cases hown : S.refLane here.n.toNat here.slice.toNat here.lane.toNat random.toNat = here.lane.toNat
    · have hin := (refColumn_of_eq hwithin hown).2.1
      rw [← hsame, Nat.succ_mul] at hin
      exact ⟨UInt32.toNat_inj.mp (hlane.trans hown), by omega⟩
    · have hout := (refColumn_of_ne hwithin hown).2
      rw [← hsame, Nat.succ_mul] at hout
      omega

theorem reference_apart_second_pass :
    let z := sizes 2 19 2
    let p := indexAlpha 0xfedcba9876543210 z.lanes z.segments z.threads 1 2 1 1
    p < z.memory ∧ p ≠ 13 ∧ p ≠ prev z ⟨1, 2, 1⟩ ⟨zero, zero, 1, 13⟩ ∧
      ∀ lane' index', lane' < z.threads → index' < z.segments →
        p = lane' * z.lanes + 2 * z.segments + index' → lane' = 1 ∧ index'.toNat + 1 < 1 :=
  @reference_apart ⟨1, 2, 1⟩ 2 19 2 ⟨zero, zero, 1, 13⟩ (by decide) (by decide) (by decide) (by decide)
    (by decide) 0xfedcba9876543210

/-! ## What a step does -/

theorem draw_congr {l : Local} (h : B[(prev z here l).toNat]? = B'[(prev z here l).toNat]?) :
    draw z here l B = draw z here l B' := by
  rw [draw, draw, h]

/-- What `enter` leaves, said by the word that it draws. -/
theorem enter_eq {l : Local} {s : State} (h : enter z here l B = some s) :
    ∃ word l', draw z here l B = some (word, l') ∧
      s = ⟨l', .mix (prev z here l').toNat (indexAlpha word z.lanes z.segments z.threads here.n
        here.slice here.lane l'.index).toNat firstWord zero⟩ := by
  obtain ⟨⟨word, l'⟩, hdraw, h⟩ := Option.bind_eq_some_iff.mp h
  obtain ⟨_, -, h⟩ := Option.bind_eq_some_iff.mp h
  obtain ⟨_, -, h⟩ := Option.bind_eq_some_iff.mp h
  obtain ⟨_, -, h⟩ := Option.bind_eq_some_iff.mp h
  cases h
  exact ⟨word, l', hdraw, rfl⟩

/-- The steps of a goroutine. -/
theorem step_cases {s s' : State} (h : step z here s B = some (s', B')) :
    (s.phase = .top ∧ s.vars.index < z.segments ∧ enter z here s.vars B = some s' ∧ B' = B) ∨
    (∃ prev newOffset i t x y, s.phase = .mix prev newOffset i t ∧ word B prev i = some x ∧
      word B newOffset i = some y ∧ s' = ⟨s.vars, mixed prev newOffset i (t.set i (x ^^^ y))⟩ ∧ B' = B) ∨
    (∃ prev newOffset i t x y out, s.phase = .write prev newOffset i t ∧ word B prev i = some x ∧
      word B newOffset i = some y ∧ B[s.vars.offset.toNat]? = some out ∧
      s' = written s.vars prev newOffset i t ∧
      B' = B.setIfInBounds s.vars.offset.toNat (out.set i (out[i] ^^^ (x ^^^ y ^^^ t[i])))) := by
  obtain ⟨l, phase⟩ := s
  cases phase with
  | top =>
    rw [step_top] at h
    by_cases hlt : l.index < z.segments
    · rw [if_pos hlt] at h
      obtain ⟨s, hs, heq⟩ := Option.map_eq_some_iff.mp h
      cases heq
      exact Or.inl ⟨rfl, hlt, hs, rfl⟩
    · rw [if_neg hlt] at h
      cases h
  | mix prev newOffset i t =>
    obtain ⟨x, hx, h⟩ := Option.bind_eq_some_iff.mp h
    obtain ⟨y, hy, h⟩ := Option.bind_eq_some_iff.mp h
    cases h
    exact Or.inr (Or.inl ⟨prev, newOffset, i, t, x, y, rfl, hx, hy, rfl, rfl⟩)
  | write prev newOffset i t =>
    obtain ⟨x, hx, h⟩ := Option.bind_eq_some_iff.mp h
    obtain ⟨y, hy, h⟩ := Option.bind_eq_some_iff.mp h
    obtain ⟨out, hout, h⟩ := Option.bind_eq_some_iff.mp h
    cases h
    exact Or.inr (Or.inr ⟨prev, newOffset, i, t, x, y, out, rfl, hx, hy, hout, rfl, rfl⟩)

/-- What stands in the memory where a goroutine has to look. -/
structure Alike (S : Shape) (slice lane index : Nat) (B B' : Array Block) : Prop where
  own : ∀ column < S.columns, B[S.place lane column]? = B'[S.place lane column]?
  allowed : ∀ p, Allowed S slice lane index p → B[p]? = B'[p]?

section Step
variable {s s' : State} (hf : Fits z S) (hat : At here n slice lane) (hslice : slice < 4)
  (hlane : lane < S.lanes) (hgood : Good S n slice lane s)
include hf hat hslice hlane hgood

omit hat in
/-- The block that a goroutine is about to compute. -/
theorem within (hlt : s.vars.index < z.segments) :
    S.Within n slice lane s.vars.index.toNat :=
  ⟨hslice, hlane, hf.segments ▸ UInt32.lt_iff_toNat_lt.mp hlt, hgood.begun⟩

/-- The inputs of a block, when it has been entered. -/
theorem enter_good (hlt : s.vars.index < z.segments)
    (h : enter z here s.vars B = some s') : Good S n slice lane s' := by
  obtain ⟨word, l', hdraw, rfl⟩ := enter_eq h
  obtain ⟨hindex, hoffset⟩ := draw_vars hdraw
  have hwithin := within hf hslice hlane hgood hlt
  have hprev : (prev z here l').toNat = S.place lane (before S slice s.vars.index.toNat) :=
    toNat_prev hf hat (congrArg _ hindex) (hoffset ▸ hgood.offset_eq) hwithin
  have hwithin' : S.Within here.n.toNat here.slice.toNat here.lane.toNat s.vars.index.toNat := by
    rw [hat.n_eq, hat.slice_eq, hat.lane_eq]
    exact hwithin
  have halpha := toNat_indexAlpha hf hwithin' word
  rw [hat.n_eq, hat.slice_eq, hat.lane_eq] at halpha
  refine ⟨?_, ?_, ?_, hprev.trans ?_, ?_⟩
  · exact hindex ▸ hoffset ▸ hgood.offset_eq
  · exact hindex ▸ hgood.begun
  · exact hindex ▸ hwithin.index_lt
  · exact hindex ▸ rfl
  · rw [hindex, halpha]
    exact allowed_reference hwithin word.toNat

theorem good_step (h : step z here s B = some (s', B')) : Good S n slice lane s' := by
  obtain ⟨-, hlt, henter, -⟩ | ⟨prev, newOffset, i, t, x, y, hphase, -, -, rfl, -⟩ |
    ⟨prev, newOffset, i, t, x, y, out, hphase, -, -, -, rfl, -⟩ := step_cases h
  · exact enter_good hf hat hslice hlane hgood hlt henter
  · have hinputs := hgood.phase
    rw [hphase] at hinputs
    refine ⟨hgood.offset_eq, hgood.begun, ?_⟩
    rw [mixed]
    cases nextWord i with
    | some j => exact hinputs
    | none => exact hinputs
  · have hinputs := hgood.phase
    rw [hphase] at hinputs
    rw [written]
    cases nextWord i with
    | some j => exact ⟨hgood.offset_eq, hgood.begun, hinputs⟩
    | none =>
      -- the block is complete, and the next one has its place behind it
      have hindex := hinputs.1
      have hsegment := segment_lt hf
      have hplace := place_lt hlane
        (column_lt (n := n) ⟨hslice, hlane, hindex, hgood.begun⟩)
      have hmemory := hf.memory_lt
      have hindex' : (s.vars.index + 1).toNat = s.vars.index.toNat + 1 := by
        rw [UInt32.toNat_add]
        exact Nat.mod_eq_of_lt (by omega : s.vars.index.toNat + 1 < 2 ^ 32)
      have hoffset := hgood.offset_eq
      have hoffset' : (s.vars.offset + 1).toNat = s.vars.offset.toNat + 1 := by
        rw [UInt32.toNat_add]
        exact Nat.mod_eq_of_lt (by omega : s.vars.offset.toNat + 1 < 2 ^ 32)
      refine ⟨?_, fun hn hs => ?_, ?_⟩
      · simp only [hindex', hoffset', hoffset, Shape.place]
        omega
      · have := hgood.begun hn hs
        simp only [hindex']
        omega
      · simp only [hindex']
        exact hindex

omit hf hat hslice hlane in
/-- A step writes the block that is computed, if any. -/
theorem frame_step (h : step z here s B = some (s', B')) {p : Nat}
    (hp : ¬S.Segment slice lane p) : B'[p]? = B[p]? := by
  obtain ⟨-, -, -, rfl⟩ | ⟨_, _, _, _, _, _, -, -, -, -, rfl⟩ |
    ⟨prev, newOffset, i, t, x, y, out, hphase, -, -, -, -, rfl⟩ := step_cases h
  · rfl
  · rfl
  · have hinputs := hgood.phase
    rw [hphase] at hinputs
    rw [Array.getElem?_setIfInBounds_ne]
    intro heq
    refine hp ⟨slice * S.segment + s.vars.index.toNat, Nat.le_add_right _ _, ?_, ?_⟩
    · rw [Nat.succ_mul]
      exact Nat.add_lt_add_left hinputs.1 _
    · rw [← heq, hgood.offset_eq]

/-- What is entered depends on the blocks that a goroutine may look at. -/
theorem enter_alike {B₂ : Array Block} (halike : Alike S slice lane s.vars.index.toNat B B₂)
    (hlt : s.vars.index < z.segments) : enter z here s.vars B = enter z here s.vars B₂ := by
  have hwithin := within hf hslice hlane hgood hlt
  have hprev {l : Local} (hindex : l.index = s.vars.index) (hoffset : l.offset = s.vars.offset) :
      B[(prev z here l).toNat]? = B₂[(prev z here l).toNat]? := by
    rw [toNat_prev hf hat (congrArg _ hindex) (hoffset ▸ hgood.offset_eq) hwithin]
    exact halike.own _ (before_lt hwithin)
  have hout : B[s.vars.offset.toNat]? = B₂[s.vars.offset.toNat]? := by
    rw [hgood.offset_eq]
    exact halike.own _ (column_lt hwithin)
  rw [enter, enter, draw_congr (hprev rfl rfl)]
  cases hdraw : draw z here s.vars B₂ with
  | none => rfl
  | some drawn =>
    obtain ⟨word, l'⟩ := drawn
    obtain ⟨hindex, hoffset⟩ := draw_vars hdraw
    have hwithin' : S.Within here.n.toNat here.slice.toNat here.lane.toNat s.vars.index.toNat := by
      rw [hat.n_eq, hat.slice_eq, hat.lane_eq]
      exact hwithin
    have halpha := toNat_indexAlpha hf hwithin' word
    rw [hat.n_eq, hat.slice_eq, hat.lane_eq] at halpha
    have hreference := halike.allowed _ (allowed_reference hwithin word.toNat)
    simp only [Option.bind_eq_bind, Option.bind_some, hprev hindex hoffset]
    rw [hindex, hoffset, hout, halpha, ← Shape.place, hreference]

omit hf hat hslice hlane in
theorem segment_of_writes {p : Nat} (h : s.Writes p) : S.Segment slice lane p := by
  obtain ⟨l, phase⟩ := s
  cases phase with
  | top => exact h.elim
  | mix => exact h.elim
  | write prev newOffset i t =>
    obtain ⟨hindex, -, -⟩ := hgood.phase
    refine ⟨_, Nat.le_add_right _ _, ?_, (show p = _ from h).trans hgood.offset_eq⟩
    rw [Nat.succ_mul]
    exact Nat.add_lt_add_left hindex _

theorem not_segment_of_touches {p lane' : Nat} (h : s.Touches z here p) (hne : lane' ≠ lane) :
    ¬S.Segment slice lane' p := by
  have hown {column : Nat} (hcolumn : column < S.columns) : ¬S.Segment slice lane' (S.place lane column) :=
    Reference.not_segment hslice hcolumn (Or.inl hne.symm)
  obtain ⟨l, phase⟩ := s
  cases phase with
  | top =>
    obtain ⟨hlt, -, rfl⟩ := h
    have hwithin := within hf hslice hlane hgood hlt
    rw [toNat_prev hf hat rfl hgood.offset_eq hwithin]
    exact hown (before_lt hwithin)
  | mix prev newOffset i t =>
    obtain ⟨hindex, hprev, hallowed⟩ := hgood.phase
    have hwithin : S.Within n slice lane l.index.toNat := ⟨hslice, hlane, hindex, hgood.begun⟩
    obtain rfl | rfl : p = prev ∨ p = newOffset := h
    · exact hprev ▸ hown (before_lt hwithin)
    · exact hallowed.not_segment hslice hne
  | write prev newOffset i t =>
    obtain ⟨hindex, hprev, hallowed⟩ := hgood.phase
    have hwithin : S.Within n slice lane l.index.toNat := ⟨hslice, hlane, hindex, hgood.begun⟩
    obtain rfl | rfl | hoffset : p = prev ∨ p = newOffset ∨ p = l.offset.toNat := h
    · exact hprev ▸ hown (before_lt hwithin)
    · exact hallowed.not_segment hslice hne
    · rw [hoffset, hgood.offset_eq]
      exact hown (column_lt hwithin)

/-- A step does the same where the memory that a goroutine may look at is the same. -/
theorem step_alike {B₂ : Array Block} (halike : Alike S slice lane s.vars.index.toNat B B₂)
    (h : step z here s B = some (s', B')) : ∃ B₂' : Array Block, step z here s B₂ = some (s', B₂') ∧
      ∀ p : Nat, B[p]? = B₂[p]? → B'[p]? = B₂'[p]? := by
  obtain ⟨l, phase⟩ := s
  have hinputs := hgood.phase
  have hword {p : Nat} (hp : B[p]? = B₂[p]?) (i : Fin blockLength) : word B p i = word B₂ p i := by
    rw [word, word, hp]
  obtain ⟨rfl, hlt, henter, rfl⟩ | ⟨prev, newOffset, i, t, x, y, rfl, hx, hy, rfl, rfl⟩ |
    ⟨prev, newOffset, i, t, x, y, out, rfl, hx, hy, hout, rfl, rfl⟩ := step_cases h
  · refine ⟨B₂, ?_, fun p hp => hp⟩
    rw [step_top, if_pos hlt, ← enter_alike hf hat hslice hlane hgood halike hlt, henter]
    rfl
  · obtain ⟨hindex, hprev, hallowed⟩ := hinputs
    have hwithin : S.Within n slice lane l.index.toNat := ⟨hslice, hlane, hindex, hgood.begun⟩
    refine ⟨B₂, ?_, fun p hp => hp⟩
    rw [step_mix, ← hword (hprev ▸ halike.own _ (before_lt hwithin)), hx,
      ← hword (halike.allowed _ hallowed), hy]
    rfl
  · obtain ⟨hindex, hprev, hallowed⟩ := hinputs
    have hwithin : S.Within n slice lane l.index.toNat := ⟨hslice, hlane, hindex, hgood.begun⟩
    have hout₂ : B₂[l.offset.toNat]? = some out := by
      rw [← hout, hgood.offset_eq]
      exact (halike.own _ (column_lt hwithin)).symm
    refine ⟨B₂.setIfInBounds l.offset.toNat (out.set i (out[i] ^^^ (x ^^^ y ^^^ t[i]))), ?_,
      fun p hp => ?_⟩
    · rw [step_write, ← hword (hprev ▸ halike.own _ (before_lt hwithin)), hx,
        ← hword (halike.allowed _ hallowed), hy, hout₂]
      rfl
    · have hsize := (Array.getElem?_eq_some_iff.mp hout).1
      have hsize₂ := (Array.getElem?_eq_some_iff.mp hout₂).1
      simp only [Array.getElem?_setIfInBounds, hsize, hsize₂, if_true, hp]

end Step

/-! ## The goroutines of a slice -/

theorem at_lane (nw slicew : UInt32) (i : Fin z.threads.toNat) :
    At ⟨nw, slicew, i.val.toUInt32⟩ nw.toNat slicew.toNat i.val := ⟨rfl, rfl, toNat_counter i.isLt⟩

theorem lane_lt (hf : Fits z S) (i : Fin z.threads.toNat) : i.val < S.lanes := hf.threads ▸ i.isLt

theorem separate {nw slicew : UInt32} (hf : Fits z S) (hslice : slicew.toNat < 4) :
    (goroutines z nw slicew).Separate (regions z S nw.toNat slicew.toNat) := by
  refine ⟨fun {i} _ _ _ _ hgood h => good_step hf (at_lane nw slicew i) hslice (lane_lt hf i) hgood h,
    fun {i} _ _ _ _ _ hgood h hp => frame_step hgood h hp, fun {i s m₁ m₂ _ _} hgood hagree h => ?_⟩
  have halike : Alike S slicew.toNat i.val s.vars.index.toNat m₁ m₂ :=
    ⟨fun column hcolumn => hagree _ fun j hj => Reference.not_segment hslice hcolumn
      (Or.inl fun heq => hj (Fin.ext heq).symm),
     fun p hp => hagree p fun j hj => hp.not_segment hslice fun heq => hj (Fin.ext heq)⟩
  obtain ⟨m₂', hstep, hkeep⟩ :=
    step_alike hf (at_lane nw slicew i) hslice (lane_lt hf i) hgood halike h
  exact ⟨m₂', hstep, fun p hp => hkeep p (hagree p hp)⟩

/-! ## Races -/

theorem good_start (hf : Fits z S) {nw slicew : UInt32} (hslice : slicew.toNat < 4)
    (i : Fin z.threads.toNat) :
    (regions z S nw.toNat slicew.toNat).good i ((start z nw slicew B).locals i) := by
  have hready := ready_begin hf (at_lane nw slicew i) hslice (lane_lt hf i)
  have hindex : (begin z ⟨nw, slicew, i.val.toUInt32⟩).index.toNat =
    firstIndex nw.toNat slicew.toNat := hready.index_eq
  refine ⟨?_, fun hn hs => ?_, ?_⟩
  · simp only [start, hindex]
    exact hready.offset_eq
  · simp only [start, hindex, firstIndex, hn, hs, and_self, if_true, Nat.le_refl]
  · simp only [start, Phase.Good, hindex]
    exact firstIndex_le S _ _

/-- The goroutines of a slice never race, whatever the memory holds and whatever order they take. -/
theorem not_sliceRaces (memory time : UInt32) (threads : UInt8) (n : UInt32) (slice : Fin 4)
    (B : Array Block) : ¬SliceRaces (sizes time memory threads) n slice.val.toUInt32 B := by
  rintro ⟨schedule, c, i, j, p, hrun, hne, hwrites, htouches⟩
  have hthreads : 0 < threads.toNat := by
    have hpos : 0 < threads.toUInt32.toNat := Nat.lt_of_le_of_lt (Nat.zero_le _) i.isLt
    rwa [UInt8.toNat_toUInt32] at hpos
  have hf : Fits (sizes time memory threads) _ := fits_shapeOf memory time threads hthreads
  have hslice : slice.val.toUInt32.toNat < 4 := by
    rw [show slice.val.toUInt32.toNat = slice.val from Nat.mod_eq_of_lt (by omega)]
    exact slice.isLt
  have hgood : ∀ i, Good _ n.toNat slice.val.toUInt32.toNat i.val (c.locals i) :=
    Threads.good_of_run (separate hf hslice) (good_start hf hslice) hrun
  exact not_segment_of_touches hf (at_lane n _ j) hslice (lane_lt hf j) (hgood j) htouches
    (fun heq => hne (Fin.ext heq)) (segment_of_writes (hgood i) hwrites)

end LukePanel.Crypto.Argon2.Goroutines
