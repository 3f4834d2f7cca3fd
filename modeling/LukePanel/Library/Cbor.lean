import Mathlib.Algebra.Group.Nat.Defs
import Mathlib.Data.List.Basic

/-! # CBOR

Data items of RFC 8949 and their encodings of definite length. An item may be encoded in several
ways: the head of an item holds its argument in the first byte or in one, two, four or eight bytes
behind it. -/
namespace LukePanel.Library.Cbor

inductive Item where
  | unsigned (n : ℕ)
  | negative (n : ℕ)
  | bytes (content : List UInt8)
  | text (content : List UInt8)
  | array (items : List Item)
  | map (entries : List (Item × Item))
  | tagged (tag : ℕ) (item : Item)
  | simple (n : ℕ)
  /-- A float of `2 ^ k` bytes. -/
  | float (k : ℕ) (bits : List UInt8)

/-- The number that bytes in network order stand for. -/
def bigEndian (bytes : List UInt8) : ℕ := bytes.foldl (fun n b => 256 * n + b.toNat) 0

/-- The first byte of a head. -/
def initial (major info : ℕ) : UInt8 := UInt8.ofNat (32 * major + info)

/-- The heads of a major type with an argument. -/
inductive Head (major : ℕ) : (info n : ℕ) → List UInt8 → Prop
  | short {n : ℕ} : n < 24 → Head major n n [initial major n]
  | long {k : ℕ} {b : List UInt8} : k < 4 → b.length = 2 ^ k →
      Head major (24 + k) (bigEndian b) (initial major (24 + k) :: b)

/-- Keys and values in turn. -/
def flat (entries : List (Item × Item)) : List Item := entries.flatMap fun e => [e.1, e.2]

mutual

/-- The byte strings that encode an item. -/
inductive Encodes : Item → List UInt8 → Prop
  | unsigned {info n : ℕ} {h : List UInt8} : Head 0 info n h → Encodes (.unsigned n) h
  | negative {info n : ℕ} {h : List UInt8} : Head 1 info n h → Encodes (.negative n) h
  | bytes {info : ℕ} {b h : List UInt8} : Head 2 info b.length h → Encodes (.bytes b) (h ++ b)
  | text {info : ℕ} {b h : List UInt8} : Head 3 info b.length h → Encodes (.text b) (h ++ b)
  | array {info : ℕ} {items : List Item} {h body : List UInt8} : Head 4 info items.length h →
      EncodesAll items body → Encodes (.array items) (h ++ body)
  | map {info : ℕ} {entries : List (Item × Item)} {h body : List UInt8} :
      Head 5 info entries.length h → EncodesAll (flat entries) body →
      Encodes (.map entries) (h ++ body)
  | tagged {info tag : ℕ} {item : Item} {h body : List UInt8} : Head 6 info tag h →
      Encodes item body → Encodes (.tagged tag item) (h ++ body)
  | simple {n : ℕ} {h : List UInt8} : n < 24 → Head 7 n n h → Encodes (.simple n) h
  | simpleByte {n : ℕ} {h : List UInt8} : 32 ≤ n → Head 7 24 n h → Encodes (.simple n) h
  | float {k : ℕ} {b : List UInt8} : 1 ≤ k → k < 4 → b.length = 2 ^ k →
      Encodes (.float k b) (initial 7 (24 + k) :: b)

/-- Encodings one behind the other. -/
inductive EncodesAll : List Item → List UInt8 → Prop
  | nil : EncodesAll [] []
  | cons {item : Item} {items : List Item} {a b : List UInt8} : Encodes item a →
      EncodesAll items b → EncodesAll (item :: items) (a ++ b)

end

/-- The item and the items in it. -/
inductive Item.Part : Item → Item → Prop
  | refl (item : Item) : Part item item
  | array {x y : Item} {items : List Item} : x ∈ items → Part y x → Part y (.array items)
  | key {e : Item × Item} {y : Item} {entries : List (Item × Item)} : e ∈ entries → Part y e.1 →
      Part y (.map entries)
  | value {e : Item × Item} {y : Item} {entries : List (Item × Item)} : e ∈ entries → Part y e.2 →
      Part y (.map entries)
  | tagged {y item : Item} {tag : ℕ} : Part y item → Part y (.tagged tag item)

def Item.All (P : Item → Prop) (item : Item) : Prop := ∀ x, Part x item → P x

variable {item : Item} {items : List Item} {entries : List (Item × Item)} {P Q : Item → Prop}

/-! ## Induction -/

theorem Item.inductionOn (unsigned : ∀ n, P (.unsigned n))
    (negative : ∀ n, P (.negative n)) (bytes : ∀ b, P (.bytes b)) (text : ∀ b, P (.text b))
    (array : ∀ items : List Item, (∀ x ∈ items, P x) → P (.array items))
    (map : ∀ entries : List (Item × Item), (∀ e ∈ entries, P e.1 ∧ P e.2) → P (.map entries))
    (tagged : ∀ tag item, P item → P (.tagged tag item)) (simple : ∀ n, P (.simple n))
    (float : ∀ k b, P (.float k b)) (item : Item) : P item :=
  @Item.rec P (fun items => ∀ x ∈ items, P x) (fun entries => ∀ e ∈ entries, P e.1 ∧ P e.2)
    (fun e => P e.1 ∧ P e.2) unsigned negative bytes text array map tagged simple float
    (List.forall_mem_nil _) (fun _ _ hx hrest => List.forall_mem_cons.mpr ⟨hx, hrest⟩)
    (List.forall_mem_nil _) (fun _ _ hx hrest => List.forall_mem_cons.mpr ⟨hx, hrest⟩)
    (fun _ _ hk hv => ⟨hk, hv⟩) item

/-! ## What holds of all parts -/

theorem Item.All.self (h : item.All P) : P item := h item (.refl item)

theorem Item.all_array : (Item.array items).All P ↔ P (.array items) ∧ ∀ x ∈ items, x.All P := by
  refine ⟨fun h => ⟨h.self, fun x hx y hy => h y (.array hx hy)⟩, fun h y hy => ?_⟩
  cases hy with
  | refl => exact h.1
  | array hx hy => exact h.2 _ hx y hy

theorem Item.all_map :
    (Item.map entries).All P ↔ P (.map entries) ∧ ∀ e ∈ entries, e.1.All P ∧ e.2.All P := by
  refine ⟨fun h => ⟨h.self, fun e he => ⟨fun y hy => h y (.key he hy),
    fun y hy => h y (.value he hy)⟩⟩, fun h y hy => ?_⟩
  cases hy with
  | refl => exact h.1
  | key he hy => exact (h.2 _ he).1 y hy
  | value he hy => exact (h.2 _ he).2 y hy

theorem Item.all_tagged {tag : ℕ} :
    (Item.tagged tag item).All P ↔ P (.tagged tag item) ∧ item.All P := by
  refine ⟨fun h => ⟨h.self, fun y hy => h y (.tagged hy)⟩, fun h y hy => ?_⟩
  cases hy with
  | refl => exact h.1
  | tagged hy => exact h.2 y hy

theorem mem_flat {x : Item} : x ∈ flat entries ↔ ∃ e ∈ entries, x = e.1 ∨ x = e.2 := by
  simp [flat]

theorem length_flat (entries : List (Item × Item)) : (flat entries).length = 2 * entries.length := by
  induction entries with
  | nil => rfl
  | cons e entries ih =>
    rw [flat, List.flatMap_cons, List.length_append, ← flat, ih]
    simp only [List.length_cons, List.length_nil]
    omega

/-! ## Places in a text -/

variable {data rest : List UInt8} {p q r major info n : ℕ}

/-- Bytes lie between two places. -/
def Lies (data : List UInt8) (p : ℕ) (enc : List UInt8) (q : ℕ) : Prop :=
  data.drop p = enc ++ data.drop q ∧ q = p + enc.length ∧ q ≤ data.length

theorem lies_append {a b : List UInt8} :
    Lies data p (a ++ b) q ↔ ∃ m, Lies data p a m ∧ Lies data m b q := by
  constructor
  · rintro ⟨hdrop, hq, hle⟩
    rw [List.length_append] at hq
    have hm : data.drop (p + a.length) = b ++ data.drop q := by
      rw [← List.drop_drop, hdrop, List.append_assoc, List.drop_left]
    refine ⟨p + a.length, ⟨?_, rfl, by omega⟩, hm, by omega, hle⟩
    rw [hm, hdrop, List.append_assoc]
  · rintro ⟨m, ⟨hpm, hm, -⟩, hmq, hq, hle⟩
    refine ⟨?_, by rw [List.length_append]; omega, hle⟩
    rw [hpm, hmq, List.append_assoc]

theorem lies_of_drop {enc : List UInt8} (h : data.drop p = enc ++ rest) (hne : enc ≠ []) :
    Lies data p enc (p + enc.length) := by
  have hlen := congrArg List.length h
  rw [List.length_drop, List.length_append] at hlen
  have hpos := List.length_pos_of_ne_nil hne
  refine ⟨?_, rfl, by omega⟩
  rw [← List.drop_drop, h, List.drop_left]

/-- A head of this major type and this argument. -/
def HeadAt (data : List UInt8) (p major info n q : ℕ) : Prop :=
  ∃ h, Head major info n h ∧ Lies data p h q

def At (data : List UInt8) (p : ℕ) (item : Item) (q : ℕ) : Prop :=
  ∃ enc, Encodes item enc ∧ Lies data p enc q

def AllAt (data : List UInt8) (p : ℕ) (items : List Item) (q : ℕ) : Prop :=
  ∃ enc, EncodesAll items enc ∧ Lies data p enc q

theorem Head.ne_nil {h : List UInt8} (hh : Head major info n h) : h ≠ [] := by
  cases hh <;> exact List.cons_ne_nil _ _

theorem Encodes.ne_nil {enc : List UInt8} (h : Encodes item enc) : enc ≠ [] := by
  cases h with
  | unsigned h | negative h | simple _ h | simpleByte _ h => exact h.ne_nil
  | bytes h | text h | array h | map h | tagged h => exact List.append_ne_nil_of_left_ne_nil h.ne_nil _
  | float => exact List.cons_ne_nil _ _

theorem HeadAt.lt (h : HeadAt data p major info n q) : p < q ∧ q ≤ data.length := by
  obtain ⟨b, hb, -, hq, hle⟩ := h
  have := List.length_pos_of_ne_nil hb.ne_nil
  omega

theorem At.lt (h : At data p item q) : p < q ∧ q ≤ data.length := by
  obtain ⟨b, hb, -, hq, hle⟩ := h
  have := List.length_pos_of_ne_nil hb.ne_nil
  omega

theorem AllAt.le (h : AllAt data p items q) : p ≤ q ∧ q ≤ data.length := by
  obtain ⟨b, -, -, hq, hle⟩ := h
  omega

theorem allAt_nil (hp : p ≤ data.length) : AllAt data p [] p := ⟨[], .nil, rfl, rfl, hp⟩

theorem AllAt.eq_of_nil (h : AllAt data p [] q) : p = q := by
  obtain ⟨enc, henc, -, hq, -⟩ := h
  cases henc
  exact hq.symm

theorem AllAt.cons (hx : At data p item q) (h : AllAt data q items r) :
    AllAt data p (item :: items) r := by
  obtain ⟨a, ha, hla⟩ := hx
  obtain ⟨b, hb, hlb⟩ := h
  exact ⟨a ++ b, .cons ha hb, lies_append.mpr ⟨q, hla, hlb⟩⟩

theorem AllAt.cons_inv (h : AllAt data p (item :: items) r) :
    ∃ q, At data p item q ∧ AllAt data q items r := by
  obtain ⟨enc, henc, hl⟩ := h
  cases henc with
  | cons ha hb =>
    obtain ⟨q, hla, hlb⟩ := lies_append.mp hl
    exact ⟨q, ⟨_, ha, hla⟩, _, hb, hlb⟩

theorem HeadAt.array (hh : HeadAt data p 4 info items.length q) (h : AllAt data q items r) :
    At data p (.array items) r := by
  obtain ⟨a, ha, hla⟩ := hh
  obtain ⟨b, hb, hlb⟩ := h
  exact ⟨a ++ b, .array ha hb, lies_append.mpr ⟨q, hla, hlb⟩⟩

theorem HeadAt.map (hh : HeadAt data p 5 info entries.length q) (h : AllAt data q (flat entries) r) :
    At data p (.map entries) r := by
  obtain ⟨a, ha, hla⟩ := hh
  obtain ⟨b, hb, hlb⟩ := h
  exact ⟨a ++ b, .map ha hb, lies_append.mpr ⟨q, hla, hlb⟩⟩

theorem HeadAt.tagged (hh : HeadAt data p 6 info n q) (h : At data q item r) :
    At data p (.tagged n item) r := by
  obtain ⟨a, ha, hla⟩ := hh
  obtain ⟨b, hb, hlb⟩ := h
  exact ⟨a ++ b, .tagged ha hb, lies_append.mpr ⟨q, hla, hlb⟩⟩

end LukePanel.Library.Cbor
