import LukePanel.Auth.CborItems

/-! # Where the CBOR decoder panics

The decoder reads one head after another. It panics at a head of more elements than `make` gives,
and behind an entry of a map whose key cannot be a key. -/
namespace LukePanel.Auth.Cbor
open LukePanel.Library LukePanel.Library.Outcome
open LukePanel.Library.Cbor (Item flat HeadAt At AllAt allAt_nil)

variable {rt : Runtime} {data : List UInt8} {decode : ℕ → Outcome (Value × ℕ)}
  {p q r s major info n : ℕ} {v : Value} {item : Item} {items : List Item}

/-- Reading an item at one place leads to reading an item at another: each array, map and tag on
the way is entered, and what lies before in it is read. -/
inductive Visits (data : List UInt8) : ℕ → ℕ → Prop
  | here (p : ℕ) : Visits data p p
  | element {p q r s info n : ℕ} {items : List Item} : HeadAt data p 4 info n q →
      AllAt data q items r → items.length < n → (∀ x ∈ items, Readable x) → Visits data r s →
      Visits data p s
  | entry {p q r s info n : ℕ} {items : List Item} : HeadAt data p 5 info n q →
      AllAt data q items r → items.length < 2 * n → (∀ x ∈ items, Readable x) → Visits data r s →
      Visits data p s
  | tagged {p q s info n : ℕ} : HeadAt data p 6 info n q → Visits data q s → Visits data p s

/-- What must not be visited: more elements or entries than there is room for, or an entry with a
byte string, an array or a map for its key. -/
inductive Harmful (rt : Runtime) (data : List UInt8) (p : ℕ) : Prop
  | array {info n q : ℕ} : HeadAt data p 4 info n q → rt.slice (int64 n) = false →
      Harmful rt data p
  | map {info n q : ℕ} : HeadAt data p 5 info n q → rt.table (int64 n) = false →
      Harmful rt data p
  | key {info n q r : ℕ} {entries : List (Item × Item)} {key value : Item} :
      HeadAt data p 5 info n q → AllAt data q (flat entries ++ [key, value]) r →
      entries.length < n → (∀ x ∈ flat entries ++ [key, value], Readable x) → keyOf key = none →
      Harmful rt data p

/-! ## Items that are read -/

theorem noError_makeSlice (rt : Runtime) (n : ℤ) : NoError (makeSlice rt n) := by
  unfold makeSlice
  split
  · exact noError_ok _
  · exact noError_panic

theorem noError_makeMap (rt : Runtime) (n : ℤ) : NoError (makeMap rt n) := by
  unfold makeMap
  split
  · exact noError_ok _
  · exact noError_panic

theorem noError_decodedAll (h : ∀ x ∈ items, NoError (decoded rt x)) :
    NoError (decodedAll rt items) := by
  induction items with
  | nil => exact noError_ok _
  | cons item items ih =>
    obtain ⟨hitem, hrest⟩ := List.forall_mem_cons.mp h
    rw [decodedAll]
    exact noError_bind hitem fun v => noError_bind (ih hrest) fun vs => noError_ok _

theorem noError_decodedEntries {entries : List (Item × Item)} (m : List (Key × Value))
    (h : ∀ e ∈ entries, NoError (decoded rt e.1) ∧ NoError (decoded rt e.2)) :
    NoError (decodedEntries rt entries m) := by
  induction entries generalizing m with
  | nil => exact noError_ok _
  | cons e entries ih =>
    obtain ⟨⟨hk, hv⟩, hrest⟩ := List.forall_mem_cons.mp h
    rw [decodedEntries]
    refine noError_bind hk fun k => noError_bind hv fun v => ?_
    split
    · exact noError_panic
    · exact ih _ hrest

theorem noError_decoded (rt : Runtime) (h : Readable item) : NoError (decoded rt item) := by
  induction item using Item.inductionOn with
  | unsigned n | negative n | bytes b | text b => exact noError_ok _
  | array items ih =>
    rw [decoded]
    exact noError_bind (noError_makeSlice _ _) fun _ => noError_bind
      (noError_decodedAll fun x hx => ih x hx ((Item.all_array.mp h).2 x hx)) fun vs => noError_ok _
  | map entries ih =>
    have h := (Item.all_map.mp h).2
    rw [decoded]
    exact noError_bind (noError_makeMap _ _) fun _ => noError_bind (noError_decodedEntries _
      fun e he => ⟨(ih e he).1 (h e he).1, (ih e he).2 (h e he).2⟩) fun m => noError_ok _
  | tagged tag item ih => exact ih (Item.all_tagged.mp h).2
  | simple n => obtain rfl | rfl | rfl | rfl := h.self <;> exact noError_ok _
  | float k b => exact absurd h.self id

/-- What is read is decoded, if it does not panic. -/
theorem decodeCBOR_of_readable (rt : Runtime) (hat : At data p item q) (hread : Readable item) :
    decodeCBOR rt data p = .panic ∨
      ∃ v, decodeCBOR rt data p = .ok (v, q) ∧ (v.key? = none ↔ keyOf item = none) := by
  rw [decodeCBOR_of_at hat]
  have herr := noError_decoded rt hread
  cases h : decoded rt item with
  | ok v => exact .inr ⟨v, rfl, key?_eq_none_iff h⟩
  | error e => exact absurd h (herr e)
  | panic => exact .inl rfl

/-! ## From a place visited -/

theorem decodeArray_panics (hall : AllAt data p items q) (hread : ∀ x ∈ items, Readable x)
    (hlen : items.length < n) (hpanic : decodeCBOR rt data q = .panic) (arr : List Value) :
    decodeArray (decodeCBOR rt data) n arr p = .panic := by
  induction items generalizing p n arr with
  | nil =>
    obtain ⟨n, rfl⟩ := Nat.exists_eq_succ_of_ne_zero (Nat.ne_of_gt hlen)
    obtain rfl := hall.eq_of_nil
    rw [decodeArray, hpanic]
    rfl
  | cons item items ih =>
    obtain ⟨n, rfl⟩ := Nat.exists_eq_succ_of_ne_zero (show n ≠ 0 by omega)
    obtain ⟨r, hat, hall⟩ := hall.cons_inv
    obtain ⟨hitem, hread⟩ := List.forall_mem_cons.mp hread
    rw [decodeArray]
    obtain hp | ⟨v, hv, -⟩ := decodeCBOR_of_readable rt hat hitem
    · rw [hp]
      rfl
    · rw [hv, ok_bind]
      exact ih hall hread (Nat.lt_of_succ_lt_succ hlen) _

/-- Two items are an entry; an item left over is the key of the entry at whose value the reading
goes on. -/
theorem decodeMap_panics (hall : AllAt data p items q) (hread : ∀ x ∈ items, Readable x)
    (hlen : items.length < 2 * n) (hpanic : decodeCBOR rt data q = .panic) (m : List (Key × Value)) :
    decodeMap (decodeCBOR rt data) n m p = .panic := by
  induction n generalizing p items m with
  | zero => omega
  | succ n ih =>
    rw [decodeMap]
    cases items with
    | nil =>
      obtain rfl := hall.eq_of_nil
      rw [hpanic]
      rfl
    | cons key items =>
      obtain ⟨r, hkey, hall⟩ := hall.cons_inv
      obtain ⟨hkread, hread⟩ := List.forall_mem_cons.mp hread
      obtain hp | ⟨k, hk, -⟩ := decodeCBOR_of_readable rt hkey hkread
      · rw [hp]
        rfl
      rw [hk, ok_bind]
      cases items with
      | nil =>
        obtain rfl := hall.eq_of_nil
        dsimp only
        rw [hpanic]
        rfl
      | cons value items =>
        obtain ⟨s, hvalue, hall⟩ := hall.cons_inv
        obtain ⟨hvread, hread⟩ := List.forall_mem_cons.mp hread
        dsimp only
        obtain hp | ⟨v, hv, -⟩ := decodeCBOR_of_readable rt hvalue hvread
        · rw [hp]
          rfl
        rw [hv, ok_bind]
        dsimp only
        split
        · rfl
        · rw [List.length_cons, List.length_cons] at hlen
          exact ih hall hread (by omega) _

theorem decodeMap_panics_of_key {entries : List (Item × Item)} {key value : Item}
    (hall : AllAt data p (flat entries ++ [key, value]) q)
    (hread : ∀ x ∈ flat entries ++ [key, value], Readable x) (hlen : entries.length < n)
    (hkey : keyOf key = none) (m : List (Key × Value)) :
    decodeMap (decodeCBOR rt data) n m p = .panic := by
  induction entries generalizing p n m with
  | nil =>
    obtain ⟨n, rfl⟩ := Nat.exists_eq_succ_of_ne_zero (Nat.ne_of_gt hlen)
    obtain ⟨r, hk, hall⟩ := hall.cons_inv
    obtain ⟨s, hv, -⟩ := hall.cons_inv
    rw [decodeMap]
    obtain hp | ⟨k, hk, hnone⟩ := decodeCBOR_of_readable rt hk (hread key (by simp))
    · rw [hp]
      rfl
    rw [hk, ok_bind]
    dsimp only
    obtain hp | ⟨v, hv, -⟩ := decodeCBOR_of_readable rt hv (hread value (by simp))
    · rw [hp]
      rfl
    rw [hv, ok_bind]
    dsimp only
    rw [hnone.mpr hkey]
  | cons e entries ih =>
    obtain ⟨n, rfl⟩ := Nat.exists_eq_succ_of_ne_zero (show n ≠ 0 by omega)
    obtain ⟨r, hk, hall⟩ :=
      (show AllAt data p (e.1 :: e.2 :: (flat entries ++ [key, value])) q from hall).cons_inv
    obtain ⟨s, hv, hall⟩ := hall.cons_inv
    have hread' : ∀ x ∈ e.1 :: e.2 :: (flat entries ++ [key, value]), Readable x := hread
    obtain ⟨hkread, hvread, hread⟩ := List.forall_mem_cons.mp hread' |>.imp_right List.forall_mem_cons.mp
    rw [decodeMap]
    obtain hp | ⟨k, hk, -⟩ := decodeCBOR_of_readable rt hk hkread
    · rw [hp]
      rfl
    rw [hk, ok_bind]
    dsimp only
    obtain hp | ⟨v, hv, -⟩ := decodeCBOR_of_readable rt hv hvread
    · rw [hp]
      rfl
    rw [hv, ok_bind]
    dsimp only
    split
    · rfl
    · exact ih hall hread (Nat.lt_of_succ_lt_succ hlen) _

theorem decodeCBOR_panics_of_harmful (h : Harmful rt data p) : decodeCBOR rt data p = .panic := by
  cases h with
  | array hhead hslice =>
    rw [decodeCBOR_of_head hhead (by omega), decodeMajor, makeSlice, if_neg (by simp [hslice])]
    rfl
  | map hhead htable =>
    rw [decodeCBOR_of_head hhead (by omega), decodeMajor, makeMap, if_neg (by simp [htable])]
    rfl
  | @key info n q r entries key value hhead hall hlen hread hkey =>
    rw [decodeCBOR_of_head hhead (by omega), decodeMajor,
      decodeMap_panics_of_key hall hread hlen hkey]
    unfold makeMap
    split <;> rfl

theorem decodeCBOR_panics_of_visits (hvisits : Visits data p q)
    (h : decodeCBOR rt data q = .panic) : decodeCBOR rt data p = .panic := by
  induction hvisits with
  | here p => exact h
  | element hhead hall hlen hread hv ih =>
    rw [decodeCBOR_of_head hhead (by omega), decodeMajor, decodeArray_panics hall hread hlen (ih h)]
    unfold makeSlice
    split <;> rfl
  | entry hhead hall hlen hread hv ih =>
    rw [decodeCBOR_of_head hhead (by omega), decodeMajor, decodeMap_panics hall hread hlen (ih h)]
    unfold makeMap
    split <;> rfl
  | tagged hhead hv ih =>
    rw [decodeCBOR_of_head hhead (by omega), decodeMajor]
    exact ih h

/-! ## To a place visited -/

theorem decodeArray_panic_inv {arr : List Value} (hp : p ≤ data.length)
    (h : decodeArray (decodeCBOR rt data) n arr p = .panic) :
    ∃ items q, AllAt data p items q ∧ items.length < n ∧ (∀ x ∈ items, Readable x) ∧
      decodeCBOR rt data q = .panic := by
  induction n generalizing p arr with
  | zero => cases h
  | succ n ih =>
    rw [decodeArray] at h
    obtain hpanic | ⟨⟨v, next⟩, hv, h⟩ := bind_eq_panic h
    · exact ⟨[], p, allAt_nil hp, Nat.succ_pos n, List.forall_mem_nil _, hpanic⟩
    · obtain ⟨item, hat, hitem⟩ := decodeCBOR_sound _ _ _ hv
      obtain ⟨items, q, hall, hlen, hread, hpanic⟩ := ih hat.lt.2 h
      exact ⟨item :: items, q, .cons hat hall, Nat.succ_lt_succ hlen,
        List.forall_mem_cons.mpr ⟨hitem, hread⟩, hpanic⟩

theorem decodeMap_panic_inv {m : List (Key × Value)} (hp : p ≤ data.length)
    (h : decodeMap (decodeCBOR rt data) n m p = .panic) :
    (∃ items q, AllAt data p items q ∧ items.length < 2 * n ∧ (∀ x ∈ items, Readable x) ∧
      decodeCBOR rt data q = .panic) ∨
    ∃ entries key value q, AllAt data p (flat entries ++ [key, value]) q ∧ entries.length < n ∧
      (∀ x ∈ flat entries ++ [key, value], Readable x) ∧ keyOf key = none := by
  induction n generalizing p m with
  | zero => cases h
  | succ n ih =>
    rw [decodeMap] at h
    obtain hpanic | ⟨⟨k, next⟩, hk, h⟩ := bind_eq_panic h
    · exact .inl ⟨[], p, allAt_nil hp, by simp, List.forall_mem_nil _, hpanic⟩
    obtain ⟨key, hkat, hkread⟩ := decodeCBOR_sound _ _ _ hk
    obtain hpanic | ⟨⟨v, next'⟩, hv, h⟩ := bind_eq_panic h
    · exact .inl ⟨[key], next, .cons hkat (allAt_nil hkat.lt.2), show 1 < 2 * (n + 1) by omega,
        List.forall_mem_singleton.mpr hkread, hpanic⟩
    obtain ⟨value, hvat, hvread⟩ := decodeCBOR_sound _ _ _ hv
    have hpair : ∀ items : List Item, (∀ x ∈ items, Readable x) →
        ∀ x ∈ key :: value :: items, Readable x := fun items hitems =>
      List.forall_mem_cons.mpr ⟨hkread, List.forall_mem_cons.mpr ⟨hvread, hitems⟩⟩
    dsimp only at h
    split at h
    · rename_i hkey
      have hnone : keyOf key = none := by
        rw [decodeCBOR_of_at hkat] at hk
        obtain ⟨k', hk', heq⟩ := bind_eq_ok hk
        cases heq
        exact (key?_eq_none_iff hk').mp hkey
      exact .inr ⟨[], key, value, next', .cons hkat (.cons hvat (allAt_nil hvat.lt.2)),
        Nat.succ_pos n, hpair [] (List.forall_mem_nil _), hnone⟩
    · obtain ⟨items, q, hall, hlen, hread, hpanic⟩ | ⟨entries, key', value', q, hall, hlen, hread, hnone⟩ :=
        ih hvat.lt.2 h
      · refine .inl ⟨key :: value :: items, q, .cons hkat (.cons hvat hall), ?_, hpair _ hread, hpanic⟩
        rw [List.length_cons, List.length_cons]
        omega
      · exact .inr ⟨(key, value) :: entries, key', value', q, .cons hkat (.cons hvat hall),
          Nat.succ_lt_succ hlen, hpair _ hread, hnone⟩

theorem exists_harmful_of_panic (h : decodeCBOR rt data p = .panic) :
    ∃ q, Visits data p q ∧ Harmful rt data q := by
  induction hn : data.length - p using Nat.strongRecOn generalizing p with
  | ind left ih =>
    -- Whatever is read behind a head is read at a later place.
    have hlater : ∀ q, p < q → q ≤ data.length → decodeCBOR rt data q = .panic →
        ∃ s, Visits data q s ∧ Harmful rt data s :=
      fun q hpq hq hpanic => ih (data.length - q) (by omega) hpanic rfl
    rw [decodeCBOR_eq] at h
    obtain ⟨e, he⟩ | ⟨major, info, n, q, -, hhead, heq⟩ := decodeBody_cases rt data p
    · rw [he] at h
      cases h
    obtain ⟨hpq, hq⟩ := hhead.lt
    rw [heq] at h
    unfold decodeMajor at h
    split at h
    · cases h
    · cases h
    · split at h
      · cases h
      · rw [slice_of_lies (lies_of_le (show q + n ≤ data.length by omega))] at h
        cases h
    · split at h
      · cases h
      · rw [slice_of_lies (lies_of_le (show q + n ≤ data.length by omega))] at h
        cases h
    · obtain hmake | ⟨-, -, h⟩ := bind_eq_panic h
      · refine ⟨p, .here p, .array hhead ?_⟩
        unfold makeSlice at hmake
        split at hmake
        · cases hmake
        · rename_i hgives
          exact Bool.eq_false_iff.mpr hgives
      obtain hpanic | ⟨_, -, h⟩ := bind_eq_panic h
      · obtain ⟨items, r, hall, hlen, hread, hpanic⟩ := decodeArray_panic_inv hq hpanic
        obtain ⟨s, hvisits, hharm⟩ := hlater r (hpq.trans_le hall.le.1) hall.le.2 hpanic
        exact ⟨s, .element hhead hall hlen hread hvisits, hharm⟩
      · cases h
    · obtain hmake | ⟨-, -, h⟩ := bind_eq_panic h
      · refine ⟨p, .here p, .map hhead ?_⟩
        unfold makeMap at hmake
        split at hmake
        · cases hmake
        · rename_i hgives
          exact Bool.eq_false_iff.mpr hgives
      obtain hpanic | ⟨_, -, h⟩ := bind_eq_panic h
      · obtain ⟨items, r, hall, hlen, hread, hpanic⟩ | ⟨entries, key, value, r, hall, hlen, hread, hkey⟩ :=
          decodeMap_panic_inv hq hpanic
        · obtain ⟨s, hvisits, hharm⟩ := hlater r (hpq.trans_le hall.le.1) hall.le.2 hpanic
          exact ⟨s, .entry hhead hall hlen hread hvisits, hharm⟩
        · exact ⟨p, .here p, .key hhead hall hlen hread hkey⟩
      · cases h
    · obtain ⟨s, hvisits, hharm⟩ := hlater q hpq hq h
      exact ⟨s, .tagged hhead hvisits, hharm⟩
    · obtain hpanic | ⟨_, -, h⟩ := bind_eq_panic h
      · unfold simpleValue at hpanic
        split at hpanic <;> cases hpanic
      · cases h
    · cases h

/-- Nothing harmful is visited. -/
def Harmless (rt : Runtime) (data : List UInt8) (p : ℕ) : Prop :=
  ∀ q, Visits data p q → ¬ Harmful rt data q

/-- **Exactly where nothing harmful is visited, the decoder returns.** -/
theorem decodeCBOR_returns_iff : (decodeCBOR rt data p).Returns ↔ Harmless rt data p := by
  constructor
  · intro h q hvisits hharm
    exact h (decodeCBOR_panics_of_visits hvisits (decodeCBOR_panics_of_harmful hharm))
  · intro h hpanic
    obtain ⟨q, hvisits, hharm⟩ := exists_harmful_of_panic hpanic
    exact h q hvisits hharm

end LukePanel.Auth.Cbor
