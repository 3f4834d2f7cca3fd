import LukePanel.Auth.Cbor
import Mathlib.Data.List.Forall2
import Mathlib.Data.List.Nodup

/-! # What the CBOR decoder makes of items

An item is decoded the same way wherever it lies, so the decoder is a function of items
(`decodeCBOR_of_at`). -/
namespace LukePanel.Auth.Cbor
open LukePanel.Library LukePanel.Library.Outcome
open LukePanel.Library.Cbor (Item Encodes EncodesAll initial flat length_flat)
open LukePanel.Library.Cbor (Lies HeadAt At AllAt lies_append)

variable {rt : Runtime} {data : List UInt8} {p q major info n : ℕ} {v : Value} {item : Item}
  {items : List Item}

/-! ## What the decoder makes of an item, wherever it lies -/

mutual

def decoded (rt : Runtime) : Item → Outcome Value
  | .unsigned n => .ok (.int (int64 n))
  | .negative n => .ok (.int (-1 - int64 n))
  | .bytes b => .ok (.bytes b)
  | .text b => .ok (.text b)
  | .array items => do
    makeSlice rt (int64 items.length)
    let vs ← decodedAll rt items
    return .array vs
  | .map entries => do
    makeMap rt (int64 entries.length)
    let m ← decodedEntries rt entries []
    return .map m
  | .tagged _ item => decoded rt item
  | .simple n => simpleValue (if n < 24 then n else 24)
  | .float k _ => simpleValue (24 + k)

def decodedAll (rt : Runtime) : List Item → Outcome (List Value)
  | [] => .ok []
  | item :: items => do
    let v ← decoded rt item
    let vs ← decodedAll rt items
    return v :: vs

def decodedEntries (rt : Runtime) :
    List (Item × Item) → List (Key × Value) → Outcome (List (Key × Value))
  | [], m => .ok m
  | (key, value) :: entries, m => do
    let k ← decoded rt key
    let v ← decoded rt value
    match k.key? with
    | none => .panic
    | some key => decodedEntries rt entries (assign m key v)

end

/-- Each of the items is decoded where it lies, up to the next. -/
def Reads (rt : Runtime) (data : List UInt8) : List Item → ℕ → ℕ → Prop
  | [], p, q => p = q
  | item :: items, p, q => ∃ r, decodeCBOR rt data p = (decoded rt item >>= fun v => .ok (v, r)) ∧
      Reads rt data items r q

theorem decodeArray_of_reads (h : Reads rt data items p q) (arr : List Value) :
    decodeArray (decodeCBOR rt data) items.length arr p =
      (decodedAll rt items >>= fun vs => .ok (arr ++ vs, q)) := by
  induction items generalizing p arr with
  | nil =>
    obtain rfl : p = q := h
    rw [decodedAll, ok_bind, List.append_nil]
    rfl
  | cons item items ih =>
    obtain ⟨r, hitem, hrest⟩ := h
    rw [List.length_cons, decodeArray, hitem, decodedAll]
    cases decoded rt item with
    | error e => rfl
    | panic => rfl
    | ok v =>
      simp only [ok_bind]
      rw [ih hrest]
      cases decodedAll rt items with
      | error e => rfl
      | panic => rfl
      | ok vs => simp only [ok_bind, pure_eq, List.append_assoc, List.singleton_append]

theorem decodeMap_of_reads {entries : List (Item × Item)} (h : Reads rt data (flat entries) p q)
    (m : List (Key × Value)) :
    decodeMap (decodeCBOR rt data) entries.length m p =
      (decodedEntries rt entries m >>= fun m => .ok (m, q)) := by
  induction entries generalizing p m with
  | nil =>
    obtain rfl : p = q := h
    rw [decodedEntries, ok_bind]
    rfl
  | cons e entries ih =>
    obtain ⟨key, value⟩ := e
    obtain ⟨r, hkey, r', hvalue, hrest⟩ := h
    rw [List.length_cons, decodeMap, hkey, decodedEntries]
    cases decoded rt key with
    | error e => rfl
    | panic => rfl
    | ok k =>
      simp only [ok_bind]
      rw [hvalue]
      cases decoded rt value with
      | error e => rfl
      | panic => rfl
      | ok v =>
        simp only [ok_bind]
        cases k.key? with
        | none => rfl
        | some key => exact ih hrest _

/-- A number or string or simple value: what is decoded behind the head. -/
theorem decodeCBOR_of_head (h : HeadAt data p major info n q) (hmajor : major < 8) :
    decodeCBOR rt data p = decodeMajor rt data (decodeCBOR rt data) major info n q := by
  rw [decodeCBOR_eq, decodeBody_of_head h hmajor]

/-- **Where an item lies, the decoder makes of it what it makes of it anywhere.** -/
theorem decodeCBOR_of_at (h : At data p item q) :
    decodeCBOR rt data p = (decoded rt item >>= fun v => .ok (v, q)) := by
  obtain ⟨enc, henc, hlies⟩ := h
  refine @Encodes.rec
    (fun item enc _ => ∀ p q, Lies data p enc q →
      decodeCBOR rt data p = (decoded rt item >>= fun v => .ok (v, q)))
    (fun items enc _ => ∀ p q, Lies data p enc q → Reads rt data items p q)
    ?unsigned ?negative ?bytes ?text ?array ?map ?tagged ?simple ?simpleByte ?float ?nil ?cons
    item enc henc p q hlies
  case unsigned =>
    intro info n h hh p q hl
    rw [decodeCBOR_of_head ⟨h, hh, hl⟩ (by omega), decodeMajor, decoded, ok_bind]
  case negative =>
    intro info n h hh p q hl
    rw [decodeCBOR_of_head ⟨h, hh, hl⟩ (by omega), decodeMajor, decoded, ok_bind]
  case bytes =>
    intro info b h hh p q hl
    obtain ⟨r, hhl, hbl⟩ := lies_append.mp hl
    have hslice := slice_of_lies hbl
    obtain ⟨-, rfl, hle⟩ := hbl
    rw [decodeCBOR_of_head ⟨h, hh, hhl⟩ (by omega), decodeMajor, if_neg (by omega), hslice, decoded]
    rfl
  case text =>
    intro info b h hh p q hl
    obtain ⟨r, hhl, hbl⟩ := lies_append.mp hl
    have hslice := slice_of_lies hbl
    obtain ⟨-, rfl, hle⟩ := hbl
    rw [decodeCBOR_of_head ⟨h, hh, hhl⟩ (by omega), decodeMajor, if_neg (by omega), hslice, decoded]
    rfl
  case array =>
    intro info items h body hh hall ih p q hl
    obtain ⟨r, hhl, hbl⟩ := lies_append.mp hl
    rw [decodeCBOR_of_head ⟨h, hh, hhl⟩ (by omega), decodeMajor, decoded,
      decodeArray_of_reads (ih _ _ hbl)]
    cases makeSlice rt (int64 items.length) with
    | error e => rfl
    | panic => rfl
    | ok =>
      simp only [ok_bind]
      cases decodedAll rt items <;> rfl
  case map =>
    intro info entries h body hh hall ih p q hl
    obtain ⟨r, hhl, hbl⟩ := lies_append.mp hl
    rw [decodeCBOR_of_head ⟨h, hh, hhl⟩ (by omega), decodeMajor, decoded,
      decodeMap_of_reads (ih _ _ hbl)]
    cases makeMap rt (int64 entries.length) with
    | error e => rfl
    | panic => rfl
    | ok =>
      simp only [ok_bind]
      cases decodedEntries rt entries [] <;> rfl
  case tagged =>
    intro info tag item h body hh hitem ih p q hl
    obtain ⟨r, hhl, hbl⟩ := lies_append.mp hl
    rw [decodeCBOR_of_head ⟨h, hh, hhl⟩ (by omega), decodeMajor, decoded]
    exact ih _ _ hbl
  case simple =>
    intro n h hn hh p q hl
    rw [decodeCBOR_of_head ⟨h, hh, hl⟩ (by omega), decodeMajor, decoded, if_pos hn]
    rfl
  case simpleByte =>
    intro n h hn hh p q hl
    rw [decodeCBOR_of_head ⟨h, hh, hl⟩ (by omega), decodeMajor, decoded, if_neg (by omega)]
    rfl
  case float =>
    intro k b h1 hk hlen p q hl
    rw [decodeCBOR_of_head ⟨_, .long hk hlen, hl⟩ (by omega), decodeMajor, decoded]
    rfl
  case nil =>
    rintro p q ⟨-, hq, -⟩
    exact hq.symm
  case cons =>
    intro item items a b ha hb iha ihb p q hl
    obtain ⟨r, hal, hbl⟩ := lies_append.mp hl
    exact ⟨r, iha _ _ hal, ihb _ _ hbl⟩

/-! ## Lists of items -/

theorem forall₂_imp_mem {α β : Type} {R S : α → β → Prop} {l : List α} {l' : List β}
    (h : List.Forall₂ R l l') (himp : ∀ a ∈ l, ∀ b, R a b → S a b) : List.Forall₂ S l l' :=
  ((List.forall₂_and_left l l').mpr ⟨himp, h⟩).imp fun _ b hb => hb.1 b hb.2

theorem forall_of_forall₂ {α β : Type} {R : α → β → Prop} {P : α → Prop} {l : List α} {l' : List β}
    (h : List.Forall₂ R l l') (himp : ∀ a ∈ l, ∀ b, R a b → P a) : ∀ a ∈ l, P a :=
  ((List.forall₂_and_left l l').mp (forall₂_imp_mem (S := fun a _ => P a ∧ True) h
    fun a ha b hb => ⟨himp a ha b hb, trivial⟩)).1

theorem exists_forall₂ {α β : Type} {R : α → β → Prop} {l : List α} (h : ∀ a ∈ l, ∃ b, R a b) :
    ∃ l', List.Forall₂ R l l' := by
  induction l with
  | nil => exact ⟨[], .nil⟩
  | cons a l ih =>
    obtain ⟨⟨b, hb⟩, hrest⟩ := List.forall_mem_cons.mp h
    obtain ⟨l', hl'⟩ := ih hrest
    exact ⟨b :: l', .cons hb hl'⟩

theorem decodedAll_eq_ok {vs : List Value} :
    decodedAll rt items = .ok vs ↔ List.Forall₂ (fun item v => decoded rt item = .ok v) items vs := by
  induction items generalizing vs with
  | nil =>
    rw [decodedAll, List.forall₂_nil_left_iff]
    exact ⟨fun h => by cases h; rfl, fun h => by rw [h]⟩
  | cons item items ih =>
    rw [decodedAll, List.forall₂_cons_left_iff]
    constructor
    · intro h
      obtain ⟨v, hv, h⟩ := bind_eq_ok h
      obtain ⟨rest, hrest, h⟩ := bind_eq_ok h
      cases h
      exact ⟨v, rest, hv, ih.mp hrest, rfl⟩
    · rintro ⟨v, rest, hv, hrest, rfl⟩
      rw [hv, ih.mpr hrest]
      rfl

/-- An entry is decoded to a key and a value. -/
def Entry (rt : Runtime) (e : Item × Item) (d : Key × Value) : Prop :=
  (∃ k, decoded rt e.1 = .ok k ∧ k.key? = some d.1) ∧ decoded rt e.2 = .ok d.2

def assigned (m : List (Key × Value)) (pairs : List (Key × Value)) : List (Key × Value) :=
  pairs.foldl (fun m d => assign m d.1 d.2) m

theorem decodedEntries_eq_ok {entries : List (Item × Item)} {m m' : List (Key × Value)} :
    decodedEntries rt entries m = .ok m' ↔
      ∃ pairs, List.Forall₂ (Entry rt) entries pairs ∧ m' = assigned m pairs := by
  induction entries generalizing m with
  | nil =>
    rw [decodedEntries]
    constructor
    · intro h
      cases h
      exact ⟨[], .nil, rfl⟩
    · rintro ⟨pairs, hpairs, rfl⟩
      cases hpairs
      rfl
  | cons e entries ih =>
    obtain ⟨key, value⟩ := e
    rw [decodedEntries]
    constructor
    · intro h
      obtain ⟨k, hk, h⟩ := bind_eq_ok h
      obtain ⟨v, hv, h⟩ := bind_eq_ok h
      split at h
      · cases h
      · rename_i key' hkey
        obtain ⟨pairs, hpairs, rfl⟩ := ih.mp h
        exact ⟨(key', v) :: pairs, .cons ⟨⟨k, hk, hkey⟩, hv⟩ hpairs, rfl⟩
    · rintro ⟨pairs, hpairs, rfl⟩
      cases hpairs with
      | @cons _ d _ pairs he hrest =>
        obtain ⟨⟨k, hk, hkey⟩, hv⟩ := he
        dsimp only at hk hv
        rw [hk, hv]
        simp only [ok_bind]
        rw [hkey]
        exact ih.mpr ⟨pairs, hrest, rfl⟩

theorem keys_assign (m : List (Key × Value)) (key : Key) (v : Value) :
    (assign m key v).map Prod.fst =
      if key ∈ m.map Prod.fst then m.map Prod.fst else m.map Prod.fst ++ [key] := by
  unfold assign
  split
  · rw [List.map_map]
    refine List.map_congr_left fun e _ => ?_
    by_cases he : e.1 = key
    · simp [he]
    · simp [he]
  · rw [List.map_append]
    rfl

theorem length_assign (m : List (Key × Value)) (key : Key) (v : Value) :
    (assign m key v).length = if key ∈ m.map Prod.fst then m.length else m.length + 1 := by
  have h := congrArg List.length (keys_assign m key v)
  rw [List.length_map] at h
  rw [h]
  split
  · exact List.length_map _
  · rw [List.length_append, List.length_map]
    rfl

/-- Keys that are all new are appended, and else there are fewer entries. -/
theorem assigned_cases (m pairs : List (Key × Value)) (hm : (m.map Prod.fst).Nodup) :
    ((m ++ pairs).map Prod.fst).Nodup ∧ assigned m pairs = m ++ pairs ∨
      ¬ ((m ++ pairs).map Prod.fst).Nodup ∧ (assigned m pairs).length < m.length + pairs.length := by
  induction pairs generalizing m with
  | nil =>
    rw [List.append_nil]
    exact .inl ⟨hm, rfl⟩
  | cons d pairs ih =>
    have hle : ∀ (m pairs : List (Key × Value)),
        (assigned m pairs).length ≤ m.length + pairs.length := by
      intro m pairs
      induction pairs generalizing m with
      | nil => exact le_rfl
      | cons d pairs ih =>
        have hrest := ih (assign m d.1 d.2)
        have hone := length_assign m d.1 d.2
        rw [List.length_cons]
        split at hone <;> exact hrest.trans (by omega)
    by_cases hd : d.1 ∈ m.map Prod.fst
    · refine .inr ⟨fun hnodup => ?_, ?_⟩
      · rw [List.map_append, List.map_cons, List.nodup_append] at hnodup
        exact hnodup.2.2 _ hd _ List.mem_cons_self rfl
      · have hrest := hle (assign m d.1 d.2) pairs
        rw [length_assign, if_pos hd] at hrest
        rw [List.length_cons]
        exact hrest.trans_lt (by omega)
    · have hnew : assign m d.1 d.2 = m ++ [d] := if_neg hd
      have hkeys : ((m ++ [d]).map Prod.fst).Nodup := by
        rw [← hnew, keys_assign, if_neg hd]
        exact List.Nodup.append hm (List.nodup_singleton _) (List.disjoint_singleton.mpr hd)
      have happend : m ++ d :: pairs = m ++ [d] ++ pairs := by simp
      have hcases := ih (m ++ [d]) hkeys
      rw [← happend, List.length_append, List.length_singleton] at hcases
      rw [assigned, List.foldl_cons, hnew, List.length_cons]
      refine hcases.imp id (And.imp_right fun h => ?_)
      exact h.trans_eq (by omega)

/-! ## Keys -/

/-- What the item is as a key. -/
def keyOf : Item → Option Key
  | .unsigned n => some (.int n)
  | .negative n => some (.int (-1 - n))
  | .text b => some (.text b)
  | .tagged _ item => keyOf item
  | .simple 20 => some (.bool false)
  | .simple 21 => some (.bool true)
  | .simple 22 | .simple 23 => some .null
  | .simple _ | .bytes _ | .array _ | .map _ | .float _ _ => none

theorem array_of_decoded (h : decoded rt (.array items) = .ok v) :
    ∃ vs, decodedAll rt items = .ok vs ∧ v = .array vs := by
  obtain ⟨-, -, h⟩ := bind_eq_ok h
  obtain ⟨vs, hvs, h⟩ := bind_eq_ok h
  cases h
  exact ⟨vs, hvs, rfl⟩

theorem map_of_decoded {entries : List (Item × Item)} (h : decoded rt (.map entries) = .ok v) :
    ∃ m, decodedEntries rt entries [] = .ok m ∧ v = .map m := by
  obtain ⟨-, -, h⟩ := bind_eq_ok h
  obtain ⟨m, hm, h⟩ := bind_eq_ok h
  cases h
  exact ⟨m, hm, rfl⟩

theorem simple_of_decoded (h : decoded rt (.simple n) = .ok v) :
    (n = 20 ∨ n = 21 ∨ n = 22 ∨ n = 23) ∧ ∃ key, v.key? = some key ∧ keyOf (.simple n) = some key ∧
      ∀ t, key ≠ .text t := by
  have hn := simpleValue_eq_ok h
  split at hn
  · refine ⟨hn, ?_⟩
    obtain rfl | rfl | rfl | rfl := hn <;> cases h <;> exact ⟨_, rfl, rfl, fun t ht => by cases ht⟩
  · omega

theorem float_not_decoded {k : ℕ} {b : List UInt8} : decoded rt (.float k b) ≠ .ok v := by
  intro h
  have hk := simpleValue_eq_ok h
  omega

/-- Only the integers may differ, and they are keys either way. -/
theorem key?_eq_none_iff (h : decoded rt item = .ok v) : v.key? = none ↔ keyOf item = none := by
  induction item using Item.inductionOn generalizing v with
  | unsigned n | negative n | bytes b | text b =>
    cases h
    simp [Value.key?, keyOf]
  | array items ih =>
    obtain ⟨_, -, rfl⟩ := array_of_decoded h
    simp [Value.key?, keyOf]
  | map entries ih =>
    obtain ⟨_, -, rfl⟩ := map_of_decoded h
    simp [Value.key?, keyOf]
  | tagged tag item ih => exact ih h
  | simple n =>
    obtain ⟨-, key, hv, hkey, -⟩ := simple_of_decoded h
    rw [hv, hkey]
  | float k b => exact absurd h float_not_decoded

end LukePanel.Auth.Cbor
