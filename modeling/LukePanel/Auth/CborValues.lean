import LukePanel.Auth.CborItems
import Mathlib.Tactic.NormNum

/-! # Decoded items and their values

The decoder gives an item its value when the integers in it have 64 bits; and it gives values to
items that are not valid and have none. -/
namespace LukePanel.Auth.Cbor
open LukePanel.Library LukePanel.Library.Outcome
open LukePanel.Library.Cbor (Item Encodes length_flat At)

variable {rt : Runtime} {data : List UInt8} {p q n : ℕ} {v : Value} {item : Item}
  {items : List Item}

/-! ## The value of an item -/

def Utf8 (b : List UInt8) : Prop := ∃ chars : List Char, b = chars.flatMap String.utf8EncodeChar

mutual

/-- The value of an item, tags aside, with `nil` for null and undefined. A text that is not UTF-8
and a map that holds a key twice are not valid and have none. -/
inductive HasValue : Item → Value → Prop
  | unsigned {n : ℕ} : HasValue (.unsigned n) (.int n)
  | negative {n : ℕ} : HasValue (.negative n) (.int (-1 - n))
  | bytes {b : List UInt8} : HasValue (.bytes b) (.bytes b)
  | text {b : List UInt8} : Utf8 b → HasValue (.text b) (.text b)
  | array {items : List Item} {vs : List Value} : HaveValues items vs →
      HasValue (.array items) (.array vs)
  | map {entries : List (Item × Item)} {m : List (Key × Value)} : HaveEntries entries m →
      (m.map Prod.fst).Nodup → HasValue (.map entries) (.map m)
  | tagged {tag : ℕ} {item : Item} {v : Value} : HasValue item v → HasValue (.tagged tag item) v
  | false : HasValue (.simple 20) (.bool false)
  | true : HasValue (.simple 21) (.bool true)
  | null : HasValue (.simple 22) .null
  | undefined : HasValue (.simple 23) .null

inductive HaveValues : List Item → List Value → Prop
  | nil : HaveValues [] []
  | cons {item : Item} {items : List Item} {v : Value} {vs : List Value} : HasValue item v →
      HaveValues items vs → HaveValues (item :: items) (v :: vs)

inductive HaveEntries : List (Item × Item) → List (Key × Value) → Prop
  | nil : HaveEntries [] []
  | cons {key value : Item} {entries : List (Item × Item)} {k v : Value} {d : Key}
      {m : List (Key × Value)} : HasValue key k → k.key? = some d → HasValue value v →
      HaveEntries entries m → HaveEntries ((key, value) :: entries) ((d, v) :: m)

end

theorem haveValues_iff {vs : List Value} :
    HaveValues items vs ↔ List.Forall₂ HasValue items vs := by
  induction items generalizing vs with
  | nil =>
    rw [List.forall₂_nil_left_iff]
    exact ⟨fun h => by cases h; rfl, fun h => by rw [h]; exact .nil⟩
  | cons item items ih =>
    rw [List.forall₂_cons_left_iff]
    constructor
    · intro h
      cases h with
      | cons hv hvs => exact ⟨_, _, hv, ih.mp hvs, rfl⟩
    · rintro ⟨v, vs, hv, hvs, rfl⟩
      exact .cons hv (ih.mpr hvs)

theorem haveEntries_iff {entries : List (Item × Item)} {m : List (Key × Value)} :
    HaveEntries entries m ↔ List.Forall₂ (fun e d =>
      (∃ k, HasValue e.1 k ∧ k.key? = some d.1) ∧ HasValue e.2 d.2) entries m := by
  induction entries generalizing m with
  | nil =>
    rw [List.forall₂_nil_left_iff]
    exact ⟨fun h => by cases h; rfl, fun h => by rw [h]; exact .nil⟩
  | cons e entries ih =>
    rw [List.forall₂_cons_left_iff]
    constructor
    · intro h
      cases h with
      | cons hk hkey hv hm => exact ⟨_, _, ⟨⟨_, hk, hkey⟩, hv⟩, ih.mp hm, rfl⟩
    · rintro ⟨d, m, ⟨⟨k, hk, hkey⟩, hv⟩, hm, rfl⟩
      exact .cons hk hkey hv (ih.mpr hm)

/-! ## Which items have their value decoded -/

/-- Readable, with keys that can be keys. -/
def Accepted (item : Item) : Prop :=
  Readable item ∧ item.All fun
    | .map entries => ∀ e ∈ entries, keyOf e.1 ≠ none
    | _ => True

/-- No integer in the item is outside 64 bits with a sign. -/
def InInt64 : Item → Prop := Item.All fun
  | .unsigned n | .negative n => n < 2 ^ 63
  | _ => True

/-- The texts in the item are UTF-8 and the maps hold no key twice. -/
def Valid : Item → Prop := Item.All fun
  | .text b => Utf8 b
  | .map entries => (entries.map fun e => keyOf e.1).Nodup
  | _ => True

/-- No array and no map in the item is longer. -/
def Within (limit : ℕ) : Item → Prop := Item.All fun
  | .array items => items.length ≤ limit
  | .map entries => entries.length ≤ limit
  | _ => True

/-- The runtime has room for so many elements. -/
def Room (rt : Runtime) (limit : ℕ) : Prop :=
  ∀ n ≤ limit, rt.slice (int64 n) = true ∧ rt.table (int64 n) = true

theorem int64_eq (h : n < 2 ^ 63) : int64 n = n := by
  norm_num at h
  refine Int.bmod_eq_of_le ?_ ?_
  · norm_num
  · norm_num
    omega

theorem int64_lt (n : ℕ) : int64 n < 2 ^ 63 := by
  have hlt := Int.bmod_lt (x := (n : ℤ)) (m := 2 ^ 64) (by norm_num)
  norm_num at hlt
  exact hlt

theorem int64_eq_iff : int64 n = n ↔ n < 2 ^ 63 := by
  refine ⟨fun heq => ?_, int64_eq⟩
  have hlt := int64_lt n
  rw [heq] at hlt
  exact_mod_cast hlt

theorem key?_of_hasValue {k : Value} (h : HasValue item k) : k.key? = keyOf item := by
  induction item using Item.inductionOn generalizing k with
  | tagged tag item ih =>
    cases h with
    | tagged h => exact ih h
  | _ => cases h <;> rfl

theorem accepted_array : Accepted (.array items) ↔ ∀ x ∈ items, Accepted x := by
  unfold Accepted Readable
  rw [Item.all_array, Item.all_array]
  exact ⟨fun h x hx => ⟨h.1.2 x hx, h.2.2 x hx⟩,
    fun h => ⟨⟨trivial, fun x hx => (h x hx).1⟩, trivial, fun x hx => (h x hx).2⟩⟩

theorem accepted_map {entries : List (Item × Item)} : Accepted (.map entries) ↔
    ∀ e ∈ entries, keyOf e.1 ≠ none ∧ Accepted e.1 ∧ Accepted e.2 := by
  unfold Accepted Readable
  rw [Item.all_map, Item.all_map]
  exact ⟨fun h e he => ⟨h.2.1 e he, ⟨(h.1.2 e he).1, (h.2.2 e he).1⟩, (h.1.2 e he).2, (h.2.2 e he).2⟩,
    fun h => ⟨⟨trivial, fun e he => ⟨(h e he).2.1.1, (h e he).2.2.1⟩⟩,
      fun e he => (h e he).1, fun e he => ⟨(h e he).2.1.2, (h e he).2.2.2⟩⟩⟩

theorem accepted_tagged {tag : ℕ} : Accepted (.tagged tag item) ↔ Accepted item := by
  unfold Accepted Readable
  rw [Item.all_tagged, Item.all_tagged]
  exact ⟨fun h => ⟨h.1.2, h.2.2⟩, fun h => ⟨⟨trivial, h.1⟩, trivial, h.2⟩⟩

/-- What is decoded to a value was accepted. -/
theorem accepted_of_decoded (h : decoded rt item = .ok v) : Accepted item := by
  induction item using Item.inductionOn generalizing v with
  | unsigned n | negative n | bytes b | text b => exact ⟨by rintro x ⟨⟩; trivial, by rintro x ⟨⟩; trivial⟩
  | array items ih =>
    obtain ⟨vs, hvs, -⟩ := array_of_decoded h
    exact accepted_array.mpr (forall_of_forall₂ (decodedAll_eq_ok.mp hvs) fun x hx v hv => ih x hx hv)
  | map entries ih =>
    obtain ⟨m, hm, -⟩ := map_of_decoded h
    obtain ⟨pairs, hpairs, -⟩ := decodedEntries_eq_ok.mp hm
    refine accepted_map.mpr (forall_of_forall₂ hpairs fun e he d hd => ?_)
    obtain ⟨⟨k, hk, hkey⟩, hv⟩ := hd
    refine ⟨fun hnone => ?_, (ih e he).1 hk, (ih e he).2 hv⟩
    rw [(key?_eq_none_iff hk).mpr hnone] at hkey
    cases hkey
  | tagged tag item ih => exact accepted_tagged.mpr (ih h)
  | simple n =>
    exact ⟨readable_simple (simple_of_decoded h).1, by rintro x ⟨⟩; trivial⟩
  | float k b => exact absurd h float_not_decoded

theorem inInt64_array : InInt64 (.array items) ↔ ∀ x ∈ items, InInt64 x :=
  Item.all_array.trans (and_iff_right trivial)

theorem inInt64_map {entries : List (Item × Item)} :
    InInt64 (.map entries) ↔ ∀ e ∈ entries, InInt64 e.1 ∧ InInt64 e.2 :=
  Item.all_map.trans (and_iff_right trivial)

theorem valid_array : Valid (.array items) ↔ ∀ x ∈ items, Valid x :=
  Item.all_array.trans (and_iff_right trivial)

theorem valid_map {entries : List (Item × Item)} : Valid (.map entries) ↔
    (entries.map fun e => keyOf e.1).Nodup ∧ ∀ e ∈ entries, Valid e.1 ∧ Valid e.2 :=
  Item.all_map

theorem within_array {limit : ℕ} :
    Within limit (.array items) ↔ items.length ≤ limit ∧ ∀ x ∈ items, Within limit x :=
  Item.all_array

theorem within_map {limit : ℕ} {entries : List (Item × Item)} : Within limit (.map entries) ↔
    entries.length ≤ limit ∧ ∀ e ∈ entries, Within limit e.1 ∧ Within limit e.2 :=
  Item.all_map

/-- The keys of decoded entries are those of the items. -/
theorem keys_of_haveEntries {entries : List (Item × Item)} {m : List (Key × Value)}
    (h : HaveEntries entries m) : entries.map (fun e => keyOf e.1) = m.map fun d => some d.1 := by
  induction entries generalizing m with
  | nil =>
    cases h
    rfl
  | cons e entries ih =>
    cases h with
    | cons hk hkey hv hm =>
      rw [List.map_cons, List.map_cons, ih hm, ← hkey, key?_of_hasValue hk]

theorem valid_of_hasValue (h : HasValue item v) : Valid item := by
  induction item using Item.inductionOn generalizing v with
  | unsigned n | negative n | bytes b | simple n | float k b => rintro x ⟨⟩; trivial
  | text b =>
    cases h with
    | text hb =>
      rintro x ⟨⟩
      exact hb
  | array items ih =>
    cases h with
    | array hvs =>
      exact valid_array.mpr (forall_of_forall₂ (haveValues_iff.mp hvs) fun x hx v hv => ih x hx hv)
  | map entries ih =>
    cases h with
    | map hm hnodup =>
      refine valid_map.mpr ⟨?_, forall_of_forall₂ (haveEntries_iff.mp hm) fun e he d hd => ?_⟩
      · rw [keys_of_haveEntries hm, ← Function.comp_def, ← List.map_map]
        exact hnodup.map (Option.some_injective _)
      · obtain ⟨⟨k, hk, -⟩, hv⟩ := hd
        exact ⟨(ih e he).1 hk, (ih e he).2 hv⟩
  | tagged tag item ih =>
    cases h with
    | tagged h => exact Item.all_tagged.mpr ⟨trivial, ih h⟩

/-- What is accepted and valid has a value. -/
theorem exists_hasValue (hacc : Accepted item) (hvalid : Valid item) : ∃ v, HasValue item v := by
  induction item using Item.inductionOn with
  | unsigned n => exact ⟨_, .unsigned⟩
  | negative n => exact ⟨_, .negative⟩
  | bytes b => exact ⟨_, .bytes⟩
  | text b => exact ⟨_, .text hvalid.self⟩
  | array items ih =>
    have hvs : ∀ x ∈ items, ∃ v, HasValue x v := fun x hx =>
      ih x hx (accepted_array.mp hacc x hx) (valid_array.mp hvalid x hx)
    obtain ⟨vs, hvs⟩ := exists_forall₂ hvs
    exact ⟨_, .array (haveValues_iff.mpr hvs)⟩
  | map entries ih =>
    have hacc := accepted_map.mp hacc
    obtain ⟨hnodup, hvalid⟩ := valid_map.mp hvalid
    have hds : ∀ e ∈ entries, ∃ d : Key × Value,
        (∃ k, HasValue e.1 k ∧ k.key? = some d.1) ∧ HasValue e.2 d.2 := by
      intro e he
      obtain ⟨hkey, hkacc, hvacc⟩ := hacc e he
      obtain ⟨k, hk⟩ := (ih e he).1 hkacc (hvalid e he).1
      obtain ⟨v, hv⟩ := (ih e he).2 hvacc (hvalid e he).2
      obtain ⟨d, hd⟩ := Option.ne_none_iff_exists'.mp hkey
      exact ⟨(d, v), ⟨k, hk, (key?_of_hasValue hk).trans hd⟩, hv⟩
    obtain ⟨m, hm⟩ := exists_forall₂ hds
    have hm := haveEntries_iff.mpr hm
    refine ⟨_, .map hm ?_⟩
    rw [keys_of_haveEntries hm, ← Function.comp_def, ← List.map_map] at hnodup
    exact hnodup.of_map _
  | tagged tag item ih =>
    obtain ⟨v, hv⟩ := ih (accepted_tagged.mp hacc) (Item.all_tagged.mp hvalid).2
    exact ⟨v, .tagged hv⟩
  | simple n =>
    obtain rfl | rfl | rfl | rfl := hacc.1.self
    · exact ⟨_, .false⟩
    · exact ⟨_, .true⟩
    · exact ⟨_, .null⟩
    · exact ⟨_, .undefined⟩
  | float k b => exact absurd hacc.1.self id

/-- An item in 64 bits is decoded to its value. -/
theorem decoded_of_hasValue {limit : ℕ} (hroom : Room rt limit) (hwithin : Within limit item)
    (hint : InInt64 item) (h : HasValue item v) : decoded rt item = .ok v := by
  induction item using Item.inductionOn generalizing v with
  | unsigned n =>
    cases h
    rw [decoded, int64_eq hint.self]
  | negative n =>
    cases h
    rw [decoded, int64_eq hint.self]
  | bytes b | text b =>
    cases h
    rfl
  | array items ih =>
    cases h with
    | array hvs =>
      obtain ⟨hlen, hwithin⟩ := within_array.mp hwithin
      have hint := inInt64_array.mp hint
      have hall := decodedAll_eq_ok.mpr (forall₂_imp_mem (haveValues_iff.mp hvs)
        fun x hx v hv => ih x hx (hwithin x hx) (hint x hx) hv)
      rw [decoded, makeSlice, if_pos (hroom _ hlen).1, ok_bind, hall]
      rfl
  | map entries ih =>
    cases h with
    | map hm hnodup =>
      obtain ⟨hlen, hwithin⟩ := within_map.mp hwithin
      have hint := inInt64_map.mp hint
      have hpairs : List.Forall₂ (Entry rt) entries _ := forall₂_imp_mem (haveEntries_iff.mp hm)
        fun e he d hd => by
          obtain ⟨⟨k, hk, hkey⟩, hv⟩ := hd
          exact ⟨⟨k, (ih e he).1 (hwithin e he).1 (hint e he).1 hk, hkey⟩,
            (ih e he).2 (hwithin e he).2 (hint e he).2 hv⟩
      obtain ⟨-, hassigned⟩ | ⟨hdup, -⟩ := assigned_cases [] _ List.nodup_nil
      · rw [decoded, makeMap, if_pos (hroom _ hlen).2, ok_bind,
          decodedEntries_eq_ok.mpr ⟨_, hpairs, hassigned.symm⟩]
        rfl
      · exact absurd hnodup hdup
  | tagged tag item ih =>
    cases h with
    | tagged h => exact ih (Item.all_tagged.mp hwithin).2 (Item.all_tagged.mp hint).2 h
  | simple n => cases h <;> rfl
  | float k b => cases h

/-- What is accepted is decoded to something. -/
theorem exists_decoded {limit : ℕ} (hroom : Room rt limit) (hwithin : Within limit item)
    (hacc : Accepted item) : ∃ v, decoded rt item = .ok v := by
  induction item using Item.inductionOn with
  | unsigned n | negative n | bytes b | text b => exact ⟨_, rfl⟩
  | array items ih =>
    obtain ⟨hlen, hwithin⟩ := within_array.mp hwithin
    obtain ⟨vs, hvs⟩ := exists_forall₂ fun x hx => ih x hx (hwithin x hx) (accepted_array.mp hacc x hx)
    rw [decoded, makeSlice, if_pos (hroom _ hlen).1, ok_bind, decodedAll_eq_ok.mpr hvs]
    exact ⟨_, rfl⟩
  | map entries ih =>
    obtain ⟨hlen, hwithin⟩ := within_map.mp hwithin
    have hacc := accepted_map.mp hacc
    have hpairs : ∀ e ∈ entries, ∃ d, Entry rt e d := by
      intro e he
      obtain ⟨hkey, hkacc, hvacc⟩ := hacc e he
      obtain ⟨k, hk⟩ := (ih e he).1 (hwithin e he).1 hkacc
      obtain ⟨v, hv⟩ := (ih e he).2 (hwithin e he).2 hvacc
      obtain ⟨d, hd⟩ := Option.ne_none_iff_exists'.mp (mt (key?_eq_none_iff hk).mp hkey)
      exact ⟨(d, v), ⟨k, hk, hd⟩, hv⟩
    obtain ⟨pairs, hpairs⟩ := exists_forall₂ hpairs
    rw [decoded, makeMap, if_pos (hroom _ hlen).2, ok_bind,
      decodedEntries_eq_ok.mpr ⟨pairs, hpairs, rfl⟩]
    exact ⟨_, rfl⟩
  | tagged tag item ih => exact ih (Item.all_tagged.mp hwithin).2 (accepted_tagged.mp hacc)
  | simple n => obtain rfl | rfl | rfl | rfl := hacc.1.self <;> exact ⟨_, rfl⟩
  | float k b => exact absurd hacc.1.self id

def Key.value : Key → Value
  | .int n => .int n
  | .text b => .text b
  | .bool b => .bool b
  | .null => .null

theorem eq_value_of_key? {k : Value} {d : Key} (h : k.key? = some d) : k = d.value := by
  cases k <;> cases h <;> rfl

/-- An item that is decoded to its value is in 64 bits. -/
theorem inInt64_of_decoded (hdec : decoded rt item = .ok v) (h : HasValue item v) : InInt64 item := by
  induction item using Item.inductionOn generalizing v with
  | unsigned n =>
    cases h
    rintro x ⟨⟩
    rw [decoded, Outcome.ok.injEq, Value.int.injEq] at hdec
    exact int64_eq_iff.mp hdec
  | negative n =>
    cases h
    rintro x ⟨⟩
    rw [decoded, Outcome.ok.injEq, Value.int.injEq] at hdec
    exact int64_eq_iff.mp (by omega)
  | bytes b | text b | simple n | float k b => rintro x ⟨⟩; trivial
  | array items ih =>
    cases h with
    | array hvs =>
      obtain ⟨vs, hdec, heq⟩ := array_of_decoded hdec
      cases heq
      have hboth := (haveValues_iff.mp hvs).mp
        (fun x v hv hd => (And.intro hd hv : decoded rt x = .ok v ∧ HasValue x v))
        (decodedAll_eq_ok.mp hdec)
      exact inInt64_array.mpr (forall_of_forall₂ hboth fun x hx v hv => ih x hx hv.1 hv.2)
  | map entries ih =>
    cases h with
    | map hm hnodup =>
      obtain ⟨m', hdec, heq⟩ := map_of_decoded hdec
      cases heq
      obtain ⟨pairs, hpairs, hassigned⟩ := decodedEntries_eq_ok.mp hdec
      have hm := haveEntries_iff.mp hm
      -- As many keys are left as there were entries, so none was there twice.
      obtain ⟨-, heq⟩ | ⟨-, hlt⟩ := assigned_cases [] pairs List.nodup_nil
      · rw [hassigned, heq] at hm
        refine inInt64_map.mpr (forall_of_forall₂ (List.Forall₂.mp (S := fun e d => Entry rt e d ∧
          (∃ k, HasValue e.1 k ∧ k.key? = some d.1) ∧ HasValue e.2 d.2)
          (fun _ _ he hv => ⟨he, hv⟩) hpairs hm) fun e he d hd => ?_)
        obtain ⟨⟨⟨k, hk, hkey⟩, hv⟩, ⟨k', hk', hkey'⟩, hv'⟩ := hd
        obtain rfl := (eq_value_of_key? hkey).trans (eq_value_of_key? hkey').symm
        exact ⟨(ih e he).1 hk hk', (ih e he).2 hv hv'⟩
      · have hlen := hm.length_eq
        rw [hassigned, hpairs.length_eq] at hlen
        rw [List.length_nil] at hlt
        omega
  | tagged tag item ih =>
    cases h with
    | tagged h => exact Item.all_tagged.mpr ⟨trivial, ih hdec h⟩

/-! ## Decoding and values -/

/-- An item is as long as anything in it. -/
theorem within_of_encodes {enc : List UInt8} (h : Encodes item enc) {limit : ℕ}
    (hlimit : enc.length ≤ limit) : Within limit item := by
  refine @Encodes.rec
    (fun item enc _ => enc.length ≤ limit → Within limit item)
    (fun items enc _ => enc.length ≤ limit → items.length ≤ enc.length ∧ ∀ x ∈ items, Within limit x)
    ?unsigned ?negative ?bytes ?text ?array ?map ?tagged ?simple ?simpleByte ?float ?nil ?cons
    item enc h hlimit
  case unsigned | negative => intros; rintro x ⟨⟩; trivial
  case bytes | text => intros; rintro x ⟨⟩; trivial
  case simple | simpleByte => intros; rintro x ⟨⟩; trivial
  case float => intros; rintro x ⟨⟩; trivial
  case array =>
    intro info items h body hh hall ih hle
    rw [List.length_append] at hle
    obtain ⟨hlen, hitems⟩ := ih (by omega)
    exact within_array.mpr ⟨by omega, hitems⟩
  case map =>
    intro info entries h body hh hall ih hle
    rw [List.length_append] at hle
    obtain ⟨hlen, hitems⟩ := ih (by omega)
    rw [length_flat] at hlen
    exact within_map.mpr ⟨by omega, fun e he => ⟨hitems e.1 (Cbor.mem_flat.mpr ⟨e, he, .inl rfl⟩),
      hitems e.2 (Cbor.mem_flat.mpr ⟨e, he, .inr rfl⟩)⟩⟩
  case tagged =>
    intro info tag item h body hh hitem ih hle
    rw [List.length_append] at hle
    exact Item.all_tagged.mpr ⟨trivial, ih (by omega)⟩
  case nil => exact fun _ => ⟨le_rfl, List.forall_mem_nil _⟩
  case cons =>
    intro item items a b ha hb iha ihb hle
    rw [List.length_append] at hle
    have hpos := List.length_pos_of_ne_nil ha.ne_nil
    obtain ⟨hlen, hitems⟩ := ihb (by omega)
    rw [List.length_append, List.length_cons]
    exact ⟨by omega, List.forall_mem_cons.mpr ⟨iha (by omega), hitems⟩⟩

theorem within_of_at (h : At data p item q) : Within data.length item := by
  obtain ⟨enc, henc, -, hq, hle⟩ := h
  exact within_of_encodes henc (by omega)

/-- What `decodeCBOR` is for: what it returns is the value of the item that lies there and the
place behind it, and every item with a value in 64 bits is decoded. -/
structure DecodesValues (rt : Runtime) (data : List UInt8) (p : ℕ) : Prop where
  sound : ∀ v next, decodeCBOR rt data p = .ok (v, next) →
    (∃ item, At data p item next) ∧ ∀ item q, At data p item q → q = next ∧ HasValue item v
  complete : ∀ item v q, At data p item q → HasValue item v → InInt64 item →
    decodeCBOR rt data p = .ok (v, q)

/-- The item that lies there, if it is accepted, is in 64 bits and valid. -/
def Plain (data : List UInt8) (p : ℕ) : Prop :=
  ∀ item q, At data p item q → Accepted item → InInt64 item ∧ Valid item

/-- **Exactly where an accepted item is in 64 bits and valid, the decoder gives its value.** -/
theorem decodesValues_iff (hroom : Room rt data.length) :
    DecodesValues rt data p ↔ Plain data p := by
  constructor
  · intro h item q hat hacc
    obtain ⟨v, hv⟩ := exists_decoded hroom (within_of_at hat) hacc
    have hdec : decodeCBOR rt data p = .ok (v, q) := by
      rw [decodeCBOR_of_at hat, hv]
      rfl
    have hvalue := ((h.sound v q hdec).2 item q hat).2
    exact ⟨inInt64_of_decoded hv hvalue, valid_of_hasValue hvalue⟩
  · intro h
    refine ⟨fun v next hdec => ?_, fun item v q hat hvalue hint => ?_⟩
    · obtain ⟨item, hat, -⟩ := decodeCBOR_sound _ _ _ hdec
      refine ⟨⟨item, hat⟩, fun item q hat => ?_⟩
      rw [decodeCBOR_of_at hat] at hdec
      obtain ⟨w, hw, heq⟩ := bind_eq_ok hdec
      cases heq
      have hacc := accepted_of_decoded hw
      obtain ⟨hint, hvalid⟩ := h item _ hat hacc
      obtain ⟨w, hvalue⟩ := exists_hasValue hacc hvalid
      have hw' := decoded_of_hasValue hroom (within_of_at hat) hint hvalue
      rw [hw, Outcome.ok.injEq] at hw'
      exact ⟨rfl, hw' ▸ hvalue⟩
    · rw [decodeCBOR_of_at hat, decoded_of_hasValue hroom (within_of_at hat) hint hvalue]
      rfl

/-- The largest unsigned integer. -/
def largest : List UInt8 := [0x1b, 0xff, 0xff, 0xff, 0xff, 0xff, 0xff, 0xff, 0xff]

theorem at_largest : At largest 0 (.unsigned 18446744073709551615) 9 :=
  ⟨largest, .unsigned (@Cbor.Head.long 0 3 largest.tail (by omega) rfl), rfl, rfl, le_rfl⟩

theorem decodeCBOR_largest : decodeCBOR wide largest 0 = .ok (.int (-1), 9) := by
  have hint : int64 18446744073709551615 = -1 := by decide +kernel
  rw [decodeCBOR_of_at at_largest, decoded, hint, ok_bind]

theorem room_largest : Room wide largest.length := by
  intro n hn
  have h9 : ∀ n : Fin 10, wide.slice (int64 n) = true ∧ wide.table (int64 n) = true := by decide +kernel
  exact h9 ⟨n, by simp [largest] at hn; omega⟩

theorem not_hasValue_largest : ¬ HasValue (.unsigned 18446744073709551615) (.int (-1)) := by
  intro h
  cases h

/-- The largest unsigned integer is read as -1. -/
theorem largest_wraps : ¬ ∀ (rt : Runtime) (data : List UInt8) (p : ℕ), Room rt data.length →
    DecodesValues rt data p := by
  intro h
  have hvalues := h wide largest 0 room_largest
  exact not_hasValue_largest ((hvalues.sound _ _ decodeCBOR_largest).2 _ _ at_largest).2

/-- A head that begins with the byte of 23. -/
theorem head_twentyThree {info n major : ℕ} {head rest : List UInt8} (hmajor : major < 8)
    (hhead : Cbor.Head major info n head) (h : head ++ rest = [23]) : major = 0 ∧ n = 23 := by
  cases hhead with
  | short hn =>
    obtain ⟨hhigh, hlow⟩ := initial_major hmajor (Nat.lt_trans hn (by decide))
    rw [(List.cons.inj h).1] at hhigh hlow
    exact ⟨hhigh.symm, hlow.symm⟩
  | long _ hlength =>
    have hnil := (List.append_eq_nil_iff.mp (List.cons.inj h).2).1
    rw [hnil, List.length_nil] at hlength
    exact absurd hlength (Nat.ne_of_lt (Nat.two_pow_pos _))

theorem eq_twentyThree {item : Item} {q : ℕ} (h : At [23] 0 item q) : item = .unsigned 23 := by
  obtain ⟨enc, henc, hdrop, -⟩ := h
  have heq : enc ++ [23].drop q = [23] := hdrop.symm
  cases henc with
  | unsigned hhead =>
    obtain ⟨-, rfl⟩ := head_twentyThree (by decide) hhead heq
    rfl
  | negative hhead => cases (head_twentyThree (by decide) hhead heq).1
  | bytes hhead | text hhead | array hhead _ | map hhead _ | tagged hhead _ =>
    rw [List.append_assoc] at heq
    cases (head_twentyThree (by decide) hhead heq).1
  | simple _ hhead => cases (head_twentyThree (by decide) hhead heq).1
  | simpleByte _ hhead => cases (head_twentyThree (by decide) hhead heq).1
  | float _ _ hlength =>
    have hnil := (List.append_eq_nil_iff.mp (List.cons.inj heq).2).1
    rw [hnil, List.length_nil] at hlength
    exact absurd hlength (Nat.ne_of_lt (Nat.two_pow_pos _))

theorem twentyThree_decoded : DecodesValues wide [23] 0 := by
  have hroom : Room wide [23].length := fun n hn => room_largest n (hn.trans (by decide))
  refine (decodesValues_iff hroom).mpr fun item q hat _ => ?_
  obtain rfl := eq_twentyThree hat
  constructor
  · rintro x (_ | _)
    exact (by decide : 23 < 2 ^ 63)
  · rintro x (_ | _)
    trivial

end LukePanel.Auth.Cbor
