import LukePanel.Library.Cbor
import LukePanel.Library.Outcome
import Mathlib.Algebra.Order.Ring.Int

/-! # The CBOR decoder of WebAuthn

`decodeCBOR` and `cborLength` of `internal/auth/webauthn.go`, with every slice, `make` and map key
that can stop the program. -/
namespace LukePanel.Auth.Cbor
open LukePanel.Library LukePanel.Library.Outcome
open LukePanel.Library.Cbor (Item Encodes EncodesAll bigEndian initial flat length_flat)
open LukePanel.Library.Cbor (Lies HeadAt At AllAt lies_append lies_of_drop allAt_nil)

/-! ## Values -/

/-- The values that can be keys of a map; the others cannot be compared. -/
inductive Key where
  | int (n : ℤ)
  | text (b : List UInt8)
  | bool (b : Bool)
  | null
deriving DecidableEq

/-- `any`, as far as the decoder makes it. -/
inductive Value where
  | int (n : ℤ)
  | bytes (b : List UInt8)
  | text (b : List UInt8)
  | array (items : List Value)
  | map (entries : List (Key × Value))
  | bool (b : Bool)
  | null

def Value.key? : Value → Option Key
  | .int n => some (.int n)
  | .text b => some (.text b)
  | .bool b => some (.bool b)
  | .null => some .null
  | .bytes _ | .array _ | .map _ => none

/-- `m[key] = v` -/
def assign (m : List (Key × Value)) (key : Key) (v : Value) : List (Key × Value) :=
  if key ∈ m.map Prod.fst then m.map fun e => if e.1 = key then (key, v) else e
  else m ++ [(key, v)]

/-- `int64(n)` and `int(n)` of an unsigned number of 64 bits. -/
def int64 (n : ℕ) : ℤ := (n : ℤ).bmod (2 ^ 64)

/-- What `make` gives of a capacity of elements of `[]any`, or of a hint of entries of a map. -/
structure Runtime where
  slice : ℤ → Bool
  table : ℤ → Bool
  slice_nonneg : ∀ n, slice n = true → 0 ≤ n
  /-- A hint below zero counts as none. -/
  table_of_neg : ∀ n, n < 0 → table n = true

/-- A runtime with room for what fits into 48 bits of addresses. -/
def wide : Runtime where
  slice n := 0 ≤ n ∧ n ≤ 17592186044416
  table _ := true
  slice_nonneg _ h := (of_decide_eq_true h).1
  table_of_neg _ _ := rfl

variable (rt : Runtime) (data : List UInt8)

/-- A `make` that is not given ends the program. -/
def makeSlice (capacity : ℤ) : Outcome Unit := if rt.slice capacity then .ok () else .panic

def makeMap (hint : ℤ) : Outcome Unit := if rt.table hint then .ok () else .panic

/-! ## The decoder -/

/-- A case of `cborLength`: `width` bytes in network order. -/
def readUint (offset width : ℕ) : Outcome (ℕ × ℕ) :=
  if data.length < offset + width then .error "unsupported or truncated CBOR length" else do
    let b ← slice data offset (offset + width)
    return (bigEndian b, offset + width)

def cborLength (offset : ℕ) (add : UInt8) : Outcome (ℕ × ℕ) :=
  if add < 24 then .ok (add.toNat, offset) else
  match add.toNat with
  | 24 => readUint data offset 1
  | 25 => readUint data offset 2
  | 26 => readUint data offset 4
  | 27 => readUint data offset 8
  | _ => .error "unsupported or truncated CBOR length"

/-- The loop over the items of an array. -/
def decodeArray (decode : ℕ → Outcome (Value × ℕ)) :
    ℕ → List Value → ℕ → Outcome (List Value × ℕ)
  | 0, arr, offset => .ok (arr, offset)
  | i + 1, arr, offset => do
    let (v, n) ← decode offset
    decodeArray decode i (arr ++ [v]) n

/-- The loop over the entries of a map. -/
def decodeMap (decode : ℕ → Outcome (Value × ℕ)) :
    ℕ → List (Key × Value) → ℕ → Outcome (List (Key × Value) × ℕ)
  | 0, m, offset => .ok (m, offset)
  | i + 1, m, offset => do
    let (k, n) ← decode offset
    let (v, n) ← decode n
    match k.key? with
    | none => .panic
    | some key => decodeMap decode i (assign m key v) n

/-- The values of major type 7. -/
def simpleValue (add : ℕ) : Outcome Value :=
  match add with
  | 20 => .ok (.bool false)
  | 21 => .ok (.bool true)
  | 22 | 23 => .ok .null
  | _ => .error ("unsupported simple value " ++ toString add)

/-- The item behind a head. -/
def decodeMajor (decode : ℕ → Outcome (Value × ℕ)) (major add length offset : ℕ) :
    Outcome (Value × ℕ) :=
  match major with
  | 0 => .ok (.int (int64 length), offset)
  | 1 => .ok (.int (-1 - int64 length), offset)
  | 2 =>
    if data.length - offset < length then .error "byte string exceeds input" else do
      let b ← slice data offset (offset + length)
      return (.bytes b, offset + length)
  | 3 =>
    if data.length - offset < length then .error "text string exceeds input" else do
      let b ← slice data offset (offset + length)
      return (.text b, offset + length)
  | 4 => do
    makeSlice rt (int64 length)
    let (arr, offset) ← decodeArray decode length [] offset
    return (.array arr, offset)
  | 5 => do
    makeMap rt (int64 length)
    let (m, offset) ← decodeMap decode length [] offset
    return (.map m, offset)
  | 6 => decode offset
  | 7 => do
    let v ← simpleValue add
    return (v, offset)
  | _ => .error ("unsupported CBOR major type " ++ toString major)

/-- The body of `decodeCBOR`, whose calls of itself are `decode`. -/
def decodeBody (decode : ℕ → Outcome (Value × ℕ)) (offset : ℕ) : Outcome (Value × ℕ) :=
  if data.length ≤ offset then .error "unexpected end" else do
    let initial ← index data offset
    let add := initial &&& 31
    let (length, next) ← cborLength data (offset + 1) add
    decodeMajor rt data decode (initial >>> 5).toNat add.toNat length next

def decodeFuel : ℕ → ℕ → Outcome (Value × ℕ)
  | 0, _ => .error "unexpected end"
  | fuel + 1, offset => decodeBody rt data (decodeFuel fuel) offset

/-- Every call reads a byte, so the bytes that are left are fuel enough (`decodeCBOR_eq`). -/
def decodeCBOR (offset : ℕ) : Outcome (Value × ℕ) := decodeFuel rt data (data.length - offset) offset

/-! ## Reading a head -/

variable {rt data} {decode decode' : ℕ → Outcome (Value × ℕ)} {p q next major info n : ℕ}
  {v : Value} {item : Item} {items : List Item}

theorem initial_major {major info : ℕ} (hmajor : major < 8) (hinfo : info < 32) :
    (initial major info >>> 5).toNat = major ∧ (initial major info &&& 31).toNat = info := by
  have h : ∀ (i : Fin 8) (j : Fin 32), (initial i j >>> 5).toNat = i ∧ (initial i j &&& 31).toNat = j := by
    decide +kernel
  exact h ⟨major, hmajor⟩ ⟨info, hinfo⟩

theorem eq_initial (b : UInt8) : ∃ major info, major < 8 ∧ info < 32 ∧ b = initial major info := by
  refine ⟨b.toNat / 32, b.toNat % 32, ?_, Nat.mod_lt _ (by omega), ?_⟩
  · have := b.toNat_lt
    omega
  · rw [initial, Nat.div_add_mod, UInt8.ofNat_toNat]

theorem slice_of_lies {b : List UInt8} (h : Lies data p b q) : slice data p q = .ok b := by
  obtain ⟨hdrop, rfl, hle⟩ := h
  rw [slice_eq hle, hdrop, List.take_left]

theorem lies_of_le {width : ℕ} (h : p + width ≤ data.length) :
    Lies data p ((data.drop p).take width) (p + width) := by
  have hlen : ((data.drop p).take width).length = width := by
    rw [List.length_take, List.length_drop]
    omega
  refine ⟨?_, by rw [hlen], h⟩
  rw [← List.drop_drop, List.take_append_drop]

theorem readUint_of_lies {b : List UInt8} (h : Lies data p b q) :
    readUint data p b.length = .ok (bigEndian b, q) := by
  have hslice := slice_of_lies h
  obtain ⟨-, rfl, hle⟩ := h
  rw [readUint, if_neg (by omega), hslice]
  rfl

theorem cborLength_long {k : ℕ} (hk : k < 4) {add : UInt8} (hadd : add.toNat = 24 + k) :
    cborLength data p add = readUint data p (2 ^ k) := by
  have hge : ¬ add < 24 := by
    rw [UInt8.lt_iff_toNat_lt, hadd]
    exact Nat.not_lt.mpr (Nat.le_add_right 24 k)
  rw [cborLength, if_neg hge, hadd]
  match k, hk with
  | 0, _ | 1, _ | 2, _ | 3, _ => rfl

/-- At a head the decoder goes on behind it. -/
theorem decodeBody_of_head (h : HeadAt data p major info n q) (hmajor : major < 8) :
    decodeBody rt data decode p = decodeMajor rt data decode major info n q := by
  obtain ⟨head, hhead, hlies⟩ := h
  have hp : p < data.length := by
    have hpos := List.length_pos_of_ne_nil hhead.ne_nil
    have := hlies.2.2
    have := hlies.2.1
    omega
  have hfirst : ∀ b tail, head = b :: tail → data[p] = b ∧ Lies data (p + 1) tail q := by
    rintro b tail rfl
    obtain ⟨m, ⟨hb, hm, -⟩, htail⟩ := (lies_append (a := [b])).mp hlies
    rw [List.length_singleton] at hm
    rw [List.drop_eq_getElem_cons hp, List.singleton_append, List.cons.injEq] at hb
    exact ⟨hb.1, hm ▸ htail⟩
  rw [decodeBody, if_neg (Nat.not_le.mpr hp), index_eq hp, ok_bind]
  cases hhead with
  | short hn =>
    obtain ⟨hb, htail⟩ := hfirst _ _ rfl
    obtain ⟨hhigh, hlow⟩ := initial_major hmajor (show info < 32 by omega)
    have hlt : initial major info &&& 31 < 24 := by
      rw [UInt8.lt_iff_toNat_lt, hlow]
      exact hn
    obtain rfl : q = p + 1 := htail.2.1
    dsimp only
    rw [hb, cborLength, if_pos hlt, ok_bind]
    dsimp only
    rw [hhigh, hlow]
  | @long k b hk hlen =>
    obtain ⟨hb, htail⟩ := hfirst _ _ rfl
    obtain ⟨hhigh, hlow⟩ := initial_major hmajor (show 24 + k < 32 by omega)
    dsimp only
    rw [hb, cborLength_long hk hlow, ← hlen, readUint_of_lies htail, ok_bind]
    dsimp only
    rw [hhigh, hlow]

/-- Either there is no head, or the decoder goes on behind it. -/
theorem decodeBody_cases (rt : Runtime) (data : List UInt8) (p : ℕ) :
    (∃ e, ∀ decode, decodeBody rt data decode p = .error e) ∨
      ∃ major info n q, major < 8 ∧ HeadAt data p major info n q ∧
        ∀ decode, decodeBody rt data decode p = decodeMajor rt data decode major info n q := by
  have hhead : ∀ major info n q, major < 8 → HeadAt data p major info n q →
      ∃ major info n q, major < 8 ∧ HeadAt data p major info n q ∧
        ∀ decode, decodeBody rt data decode p = decodeMajor rt data decode major info n q :=
    fun major info n q hmajor h => ⟨major, info, n, q, hmajor, h, fun _ => decodeBody_of_head h hmajor⟩
  by_cases hp : data.length ≤ p
  · exact .inl ⟨_, fun _ => if_pos hp⟩
  obtain ⟨major, info, hmajor, hinfo, hb⟩ := eq_initial data[p]
  obtain ⟨hhigh, hlow⟩ := initial_major hmajor hinfo
  have hone : Lies data p [initial major info] (p + 1) := by
    refine ⟨?_, rfl, by omega⟩
    rw [List.drop_eq_getElem_cons (by omega), hb]
    rfl
  by_cases hshort : info < 24
  · exact .inr (hhead major info info (p + 1) hmajor ⟨_, .short hshort, hone⟩)
  have hge : ¬ initial major info &&& 31 < 24 := by
    rw [UInt8.lt_iff_toNat_lt, hlow]
    exact hshort
  by_cases hlong : ∃ k < 4, info = 24 + k ∧ p + 1 + 2 ^ k ≤ data.length
  · obtain ⟨k, hk, rfl, hle⟩ := hlong
    have hlen : ((data.drop (p + 1)).take (2 ^ k)).length = 2 ^ k := by
      rw [List.length_take, List.length_drop]
      omega
    exact .inr (hhead major _ _ (p + 1 + 2 ^ k) hmajor ⟨_, .long hk hlen,
      (lies_append (a := [_])).mpr ⟨_, hone, lies_of_le hle⟩⟩)
  · refine .inl ⟨"unsupported or truncated CBOR length", fun decode => ?_⟩
    rw [decodeBody, if_neg hp, index_eq (by omega), ok_bind, hb]
    dsimp only
    rw [show cborLength data (p + 1) (initial major info &&& 31) =
      .error "unsupported or truncated CBOR length" from ?_]
    · rfl
    by_cases hk : info < 28
    · have hlow' : (initial major info &&& 31).toNat = 24 + (info - 24) := by omega
      rw [cborLength_long (show info - 24 < 4 by omega) hlow', readUint, if_pos]
      by_contra hle
      exact hlong ⟨info - 24, by omega, by omega, by omega⟩
    · rw [cborLength, if_neg hge, hlow]
      split <;> first | omega | rfl

/-! ## The calls of the decoder -/

theorem decodeArray_congr (h : ∀ o, p ≤ o → decode o = decode' o)
    (hle : ∀ o v next, decode o = .ok (v, next) → o ≤ next) (i : ℕ) (arr : List Value) :
    decodeArray decode i arr p = decodeArray decode' i arr p := by
  induction i generalizing arr p with
  | zero => rfl
  | succ i ih =>
    rw [decodeArray, decodeArray, ← h p le_rfl]
    cases hp : decode p with
    | error e => rfl
    | panic => rfl
    | ok r =>
      have hnext := hle p r.1 r.2 hp
      exact ih (fun o ho => h o (hnext.trans ho)) _

theorem decodeMap_congr (h : ∀ o, p ≤ o → decode o = decode' o)
    (hle : ∀ o v next, decode o = .ok (v, next) → o ≤ next) (i : ℕ) (m : List (Key × Value)) :
    decodeMap decode i m p = decodeMap decode' i m p := by
  induction i generalizing m p with
  | zero => rfl
  | succ i ih =>
    rw [decodeMap, decodeMap, ← h p le_rfl]
    cases hp : decode p with
    | error e => rfl
    | panic => rfl
    | ok r =>
      have hnext := hle p r.1 r.2 hp
      rw [ok_bind, ok_bind]
      dsimp only
      rw [← h r.2 hnext]
      cases hr : decode r.2 with
      | error e => rfl
      | panic => rfl
      | ok r' =>
        have hnext' := hle r.2 r'.1 r'.2 hr
        rw [ok_bind, ok_bind]
        cases r.1.key? with
        | none => rfl
        | some key => exact ih (fun o ho => h o (hnext.trans (hnext'.trans ho))) _

/-- An item of which the decoder reads every part. -/
def Readable : Item → Prop := Item.All fun
  | .simple n => n = 20 ∨ n = 21 ∨ n = 22 ∨ n = 23
  | .float _ _ => False
  | _ => True

/-- What is decoded is an item that lies there. -/
def Sound (data : List UInt8) (decode : ℕ → Outcome (Value × ℕ)) : Prop :=
  ∀ o v next, decode o = .ok (v, next) → ∃ item, At data o item next ∧ Readable item

theorem decodeArray_sound (hd : Sound data decode) {i : ℕ} {arr vs : List Value}
    (hp : p ≤ data.length) (h : decodeArray decode i arr p = .ok (vs, q)) :
    ∃ items, items.length = i ∧ AllAt data p items q ∧ ∀ x ∈ items, Readable x := by
  induction i generalizing arr p with
  | zero =>
    cases h
    exact ⟨[], rfl, allAt_nil hp, List.forall_mem_nil _⟩
  | succ i ih =>
    rw [decodeArray] at h
    obtain ⟨⟨v, next⟩, hv, h⟩ := bind_eq_ok h
    obtain ⟨item, hat, hread⟩ := hd _ _ _ hv
    obtain ⟨items, hlen, hall, hreads⟩ := ih hat.lt.2 h
    exact ⟨item :: items, by rw [List.length_cons, hlen], .cons hat hall,
      List.forall_mem_cons.mpr ⟨hread, hreads⟩⟩

theorem decodeMap_sound (hd : Sound data decode) {i : ℕ} {m m' : List (Key × Value)}
    (hp : p ≤ data.length) (h : decodeMap decode i m p = .ok (m', q)) :
    ∃ entries : List (Item × Item), entries.length = i ∧ AllAt data p (flat entries) q ∧
      ∀ e ∈ entries, Readable e.1 ∧ Readable e.2 := by
  induction i generalizing m p with
  | zero =>
    cases h
    exact ⟨[], rfl, allAt_nil hp, List.forall_mem_nil _⟩
  | succ i ih =>
    rw [decodeMap] at h
    obtain ⟨⟨k, next⟩, hk, h⟩ := bind_eq_ok h
    obtain ⟨⟨v, next'⟩, hv, h⟩ := bind_eq_ok h
    obtain ⟨key, hatk, hreadk⟩ := hd _ _ _ hk
    obtain ⟨value, hatv, hreadv⟩ := hd _ _ _ hv
    dsimp only at h
    split at h
    · cases h
    · obtain ⟨entries, hlen, hall, hreads⟩ := ih hatv.lt.2 h
      exact ⟨(key, value) :: entries, by rw [List.length_cons, hlen], .cons hatk (.cons hatv hall),
        List.forall_mem_cons.mpr ⟨⟨hreadk, hreadv⟩, hreads⟩⟩

theorem readable_simple (h : n = 20 ∨ n = 21 ∨ n = 22 ∨ n = 23) : Readable (.simple n) := by
  rintro x ⟨⟩
  exact h

theorem simpleValue_eq_ok (h : simpleValue n = .ok v) : n = 20 ∨ n = 21 ∨ n = 22 ∨ n = 23 := by
  unfold simpleValue at h
  split at h <;> first | omega | cases h

theorem decodeMajor_sound (hd : Sound data decode) (hhead : HeadAt data p major info n q)
    (h : decodeMajor rt data decode major info n q = .ok (v, next)) :
    ∃ item, At data p item next ∧ Readable item := by
  obtain ⟨head, hh, hlies⟩ := hhead
  have hq := hlies.2.2
  unfold decodeMajor at h
  split at h
  · cases h
    exact ⟨_, ⟨head, .unsigned hh, hlies⟩, by rintro x ⟨⟩; trivial⟩
  · cases h
    exact ⟨_, ⟨head, .negative hh, hlies⟩, by rintro x ⟨⟩; trivial⟩
  · obtain ⟨hlen, h⟩ := ite_error_eq_ok h
    have hb := lies_of_le (show q + n ≤ data.length by omega)
    rw [slice_of_lies hb] at h
    cases h
    have hn : ((data.drop q).take n).length = n := by rw [List.length_take, List.length_drop]; omega
    exact ⟨_, ⟨_, .bytes (hn.symm ▸ hh), lies_append.mpr ⟨q, hlies, hb⟩⟩, by rintro x ⟨⟩; trivial⟩
  · obtain ⟨hlen, h⟩ := ite_error_eq_ok h
    have hb := lies_of_le (show q + n ≤ data.length by omega)
    rw [slice_of_lies hb] at h
    cases h
    have hn : ((data.drop q).take n).length = n := by rw [List.length_take, List.length_drop]; omega
    exact ⟨_, ⟨_, .text (hn.symm ▸ hh), lies_append.mpr ⟨q, hlies, hb⟩⟩, by rintro x ⟨⟩; trivial⟩
  · obtain ⟨-, -, h⟩ := bind_eq_ok h
    obtain ⟨⟨vs, stop⟩, hvs, h⟩ := bind_eq_ok h
    cases h
    obtain ⟨items, rfl, hall, hreads⟩ := decodeArray_sound hd hq hvs
    exact ⟨_, HeadAt.array ⟨head, hh, hlies⟩ hall, Item.all_array.mpr ⟨trivial, hreads⟩⟩
  · obtain ⟨-, -, h⟩ := bind_eq_ok h
    obtain ⟨⟨m, stop⟩, hm, h⟩ := bind_eq_ok h
    cases h
    obtain ⟨entries, rfl, hall, hreads⟩ := decodeMap_sound hd hq hm
    exact ⟨_, HeadAt.map ⟨head, hh, hlies⟩ hall, Item.all_map.mpr ⟨trivial, hreads⟩⟩
  · obtain ⟨item, hat, hread⟩ := hd _ _ _ h
    exact ⟨_, HeadAt.tagged ⟨head, hh, hlies⟩ hat, Item.all_tagged.mpr ⟨trivial, hread⟩⟩
  · have hshort : info < 24 → n = info := by
      intro hinfo
      cases hh with
      | short => rfl
      | long => omega
    obtain ⟨w, hw, h⟩ := bind_eq_ok h
    cases h
    have hinfo := simpleValue_eq_ok hw
    obtain rfl := hshort (by omega)
    exact ⟨.simple n, ⟨head, .simple (by omega) hh, hlies⟩, readable_simple hinfo⟩
  · cases h

theorem decodeBody_sound (hd : Sound data decode) : Sound data (decodeBody rt data decode) := by
  intro o v next h
  obtain ⟨e, he⟩ | ⟨major, info, n, q, -, hhead, heq⟩ := decodeBody_cases rt data o
  · rw [he] at h
    cases h
  · exact decodeMajor_sound hd hhead ((heq decode).symm.trans h)

theorem decodeFuel_sound (fuel : ℕ) : Sound data (decodeFuel rt data fuel) := by
  induction fuel with
  | zero =>
    intro _ _ _ h
    cases h
  | succ fuel ih => exact decodeBody_sound ih

theorem decodeCBOR_sound : Sound data (decodeCBOR rt data) := fun _ _ _ h => decodeFuel_sound _ _ _ _ h

theorem Sound.le (hd : Sound data decode) {o : ℕ} (h : decode o = .ok (v, next)) : o ≤ next := by
  obtain ⟨item, hat, -⟩ := hd _ _ _ h
  exact hat.lt.1.le

theorem decodeBody_congr (hd : Sound data decode) (h : ∀ o, p < o → decode o = decode' o) :
    decodeBody rt data decode p = decodeBody rt data decode' p := by
  obtain ⟨e, he⟩ | ⟨major, info, n, q, -, hhead, heq⟩ := decodeBody_cases rt data p
  · rw [he, he]
  · have hq : ∀ o, q ≤ o → decode o = decode' o := fun o ho => h o (hhead.lt.1.trans_le ho)
    have hle : ∀ o v next, decode o = .ok (v, next) → o ≤ next := fun _ _ _ h => hd.le h
    rw [heq, heq]
    unfold decodeMajor
    split
    · rfl
    · rfl
    · rfl
    · rfl
    · rw [decodeArray_congr hq hle]
    · rw [decodeMap_congr hq hle]
    · exact hq q le_rfl
    · rfl
    · rfl

theorem decodeFuel_eq {f g : ℕ} (hf : data.length - p ≤ f) (hg : data.length - p ≤ g) :
    decodeFuel rt data f p = decodeFuel rt data g p := by
  induction f generalizing g p with
  | zero =>
    cases g with
    | zero => rfl
    | succ g => rw [decodeFuel, decodeFuel, decodeBody, if_pos (by omega)]
  | succ f ih =>
    cases g with
    | zero => rw [decodeFuel, decodeFuel, decodeBody, if_pos (by omega)]
    | succ g =>
      exact decodeBody_congr (decodeFuel_sound f) fun o ho => ih (by omega) (by omega)

/-- The fuel never runs out: `decodeCBOR` is its body, with itself for the calls of itself. -/
theorem decodeCBOR_eq (offset : ℕ) :
    decodeCBOR rt data offset = decodeBody rt data (decodeCBOR rt data) offset := by
  rw [decodeCBOR, decodeFuel_eq le_rfl (Nat.le_succ _), decodeFuel]
  exact decodeBody_congr (decodeFuel_sound _) fun o ho => decodeFuel_eq (by omega) le_rfl

end LukePanel.Auth.Cbor
