import LukePanel.Library.SplitLists
import Mathlib.Data.List.DropRight

/-! # Streams of JSON objects

Objects in a stream are each on a line of their own. A stream that is cut ends in a part of an
object, which is not one. -/
namespace LukePanel.Library.JsonLines

abbrev Bytes := List UInt8

/-! ## Objects -/

inductive Mode where
  | plain
  | quoted
  | escaped

/-- The text closes so many brackets with its last byte. -/
def closes : Mode → ℕ → Bytes → Bool
  | _, _, [] => false
  | .escaped, depth, _ :: rest => closes .quoted depth rest
  | .quoted, depth, c :: rest =>
    closes (if c = 92 then .escaped else if c = 34 then .plain else .quoted) depth rest
  | .plain, depth, c :: rest =>
    if c = 34 then closes .quoted depth rest
    else if c = 123 ∨ c = 91 then closes .plain (depth + 1) rest
    else if c = 125 ∨ c = 93 then
      if depth = 1 then decide (rest = []) else closes .plain (depth - 1) rest
    else closes .plain depth rest

/-- It begins with a brace whose counterpart is its last byte. -/
def isObject (text : Bytes) : Bool := decide (text.head? = some 123) && closes .plain 1 text.tail

def isSpace (c : UInt8) : Bool := c ∈ [9, 10, 13, 32]

def trim (line : Bytes) : Bytes := (line.dropWhile isSpace).rdropWhile isSpace

/-- A line decoded as an object; `decode` gives the value of an object that has the form asked for. -/
def unmarshal {β : Type} (decode : Bytes → Option β) (line : Bytes) : Option β :=
  if isObject (trim line) then decode (trim line) else none

theorem closes_append {mode : Mode} {depth : ℕ} {text rest : Bytes} (hrest : rest ≠ [])
    (h : closes mode depth (text ++ rest) = true) : closes mode depth text = false := by
  induction text generalizing mode depth with
  | nil => cases mode <;> rfl
  | cons c text ih =>
    cases mode with
    | escaped => exact ih h
    | quoted => exact ih h
    | plain =>
      rw [List.cons_append, closes] at h
      rw [closes]
      split
      · rename_i hc
        rw [if_pos hc] at h
        exact ih h
      rename_i hc
      rw [if_neg hc] at h
      split
      · rename_i hc
        rw [if_pos hc] at h
        exact ih h
      rename_i hc
      rw [if_neg hc] at h
      split
      · rename_i hc
        rw [if_pos hc] at h
        split
        · rename_i hdepth
          rw [if_pos hdepth] at h
          exact absurd (List.append_eq_nil_iff.mp (of_decide_eq_true h)).2 hrest
        · rename_i hdepth
          rw [if_neg hdepth] at h
          exact ih h
      · rename_i hc
        rw [if_neg hc] at h
        exact ih h

theorem getLast?_of_closes {mode : Mode} {depth : ℕ} {text : Bytes} (h : closes mode depth text = true) :
    text.getLast? = some 125 ∨ text.getLast? = some 93 := by
  have hcons {c : UInt8} {rest : Bytes} (hrest : rest.getLast? = some 125 ∨ rest.getLast? = some 93) :
      (c :: rest).getLast? = some 125 ∨ (c :: rest).getLast? = some 93 := by
    rw [List.getLast?_cons]
    rcases hrest with h | h <;> simp [h]
  induction text generalizing mode depth with
  | nil => cases mode <;> cases h
  | cons c text ih =>
    cases mode with
    | escaped => exact hcons (ih h)
    | quoted => exact hcons (ih h)
    | plain =>
      rw [closes] at h
      split at h
      · exact hcons (ih h)
      split at h
      · exact hcons (ih h)
      split at h
      · rename_i hc
        split at h
        · rw [of_decide_eq_true h]
          rcases hc with rfl | rfl
          · exact .inl rfl
          · exact .inr rfl
        · exact hcons (ih h)
      · exact hcons (ih h)

/-- An object on one line. -/
structure Event where
  text : Bytes
  object : isObject text = true
  one_line : 10 ∉ text

namespace Event

theorem text_eq (e : Event) : ∃ rest, e.text = 123 :: rest ∧ closes .plain 1 rest = true := by
  have hobject := e.object
  rw [isObject, Bool.and_eq_true, decide_eq_true_eq] at hobject
  obtain ⟨rest, hrest⟩ := List.head?_eq_some_iff.mp hobject.1
  rw [hrest] at hobject
  exact ⟨rest, hrest, hobject.2⟩

end Event

theorem trim_append {text blank : Bytes} {first last : UInt8} (hfirst : text.head? = some first)
    (hlast : text.getLast? = some last) (hfirst' : isSpace first = false)
    (hlast' : isSpace last = false) (hblank : ∀ c ∈ blank, isSpace c = true) :
    trim (text ++ blank) = text := by
  obtain ⟨rest, rfl⟩ := List.head?_eq_some_iff.mp hfirst
  rw [trim, List.cons_append, List.dropWhile_cons_of_neg (by simp [hfirst']), ← List.cons_append]
  induction blank using List.reverseRecOn with
  | nil =>
    rw [List.append_nil]
    refine List.rdropWhile_eq_self_iff.mpr fun hne => ?_
    rw [List.getLast?_eq_some_getLast hne, Option.some.injEq] at hlast
    simp [hlast, hlast']
  | append_singleton blank c ih =>
    rw [← List.append_assoc, List.rdropWhile_concat_pos _ _ _ (hblank c (by simp))]
    exact ih fun d hd => hblank d (by simp [hd])

variable {β : Type} (decode : Bytes → Option β)

/-- An object decodes with blanks behind it. -/
theorem unmarshal_text (e : Event) {blank : Bytes} (hblank : ∀ c ∈ blank, isSpace c = true) :
    unmarshal decode (e.text ++ blank) = decode e.text := by
  obtain ⟨rest, htext, hcloses⟩ := e.text_eq
  have hlast : ∃ last, e.text.getLast? = some last ∧ isSpace last = false := by
    have hrest := getLast?_of_closes hcloses
    rw [htext, List.getLast?_cons]
    rcases hrest with h | h
    · exact ⟨125, by simp [h], by decide⟩
    · exact ⟨93, by simp [h], by decide⟩
  obtain ⟨last, hlast, hspace⟩ := hlast
  have hfirst : e.text.head? = some 123 := by rw [htext]; rfl
  rw [unmarshal, trim_append hfirst hlast (by decide) hspace hblank, if_pos e.object]

/-- A part of an object is none. -/
theorem unmarshal_take (e : Event) {n : ℕ} (hn : n < e.text.length) :
    unmarshal decode (e.text.take n) = none := by
  refine if_neg ?_
  obtain ⟨rest, htext, hcloses⟩ := e.text_eq
  cases n with
  | zero =>
    rw [List.take_zero]
    decide
  | succ n =>
    rw [htext, List.length_cons] at hn
    rw [htext, List.take_succ_cons, trim, List.dropWhile_cons_of_neg (by decide)]
    -- What is left of the part when blanks are cut off is a part as well.
    obtain ⟨cut, hcut⟩ := List.rdropWhile_prefix isSpace (123 :: rest.take n)
    cases htrim : (123 :: rest.take n).rdropWhile isSpace with
    | nil => decide
    | cons c text =>
      rw [htrim, List.cons_append, List.cons.injEq] at hcut
      have hsplit : rest = text ++ (cut ++ rest.drop n) := by
        rw [← List.append_assoc, hcut.2, List.take_append_drop]
      have hne : cut ++ rest.drop n ≠ [] := by
        intro hnil
        have hlen := congrArg List.length (List.append_eq_nil_iff.mp hnil).2
        rw [List.length_drop, List.length_nil] at hlen
        omega
      rw [hsplit] at hcloses
      rw [isObject, List.tail_cons, closes_append hne hcloses, Bool.and_false]
      decide

/-! ## Streams -/

/-- The events, each with the end of its line. -/
def stream (events : List Event) : Bytes := events.flatMap fun e => e.text ++ [13, 10]

theorem stream_cons (e : Event) (events : List Event) :
    stream (e :: events) = e.text ++ 13 :: 10 :: stream events := by
  simp [stream]

/-- A line of what is there of the stream decodes to a value with `P`. -/
def Decodes (P : β → Prop) (data : Bytes) : Prop :=
  ∃ line ∈ data.splitOn 10, ∃ value, unmarshal decode line = some value ∧ P value

/-- An event whose value has `P` ends within the first `n` bytes. -/
def Within (P : β → Prop) (events : List Event) (n : ℕ) : Prop :=
  ∃ before e after, events = before ++ e :: after ∧ (∃ value, decode e.text = some value ∧ P value) ∧
    (stream before).length + e.text.length ≤ n

variable {decode} {P : β → Prop}

theorem decodes_line {line : Bytes} (hline : 10 ∉ line) :
    Decodes decode P line ↔ ∃ value, unmarshal decode line = some value ∧ P value := by
  rw [Decodes, List.splitOn_eq_singleton hline]
  simp

theorem decodes_cons {line rest : Bytes} (hline : 10 ∉ line) : Decodes decode P (line ++ 10 :: rest) ↔
    (∃ value, unmarshal decode line = some value ∧ P value) ∨ Decodes decode P rest := by
  rw [Decodes, List.splitOn_append_cons_self_of_not_mem hline]
  simp [Decodes]

theorem within_cons {e : Event} {events : List Event} {n : ℕ} : Within decode P (e :: events) n ↔
    (∃ value, decode e.text = some value ∧ P value) ∧ e.text.length ≤ n ∨
      e.text.length + 2 ≤ n ∧ Within decode P events (n - (e.text.length + 2)) := by
  have hlength (before : List Event) :
      (stream (e :: before)).length = e.text.length + 2 + (stream before).length := by
    rw [stream_cons, List.length_append, List.length_cons, List.length_cons]
    omega
  constructor
  · rintro ⟨before, e', after, heq, hvalue, hle⟩
    cases before with
    | nil =>
      obtain ⟨rfl, rfl⟩ := List.cons.inj heq
      rw [stream, List.flatMap_nil, List.length_nil, Nat.zero_add] at hle
      exact .inl ⟨hvalue, hle⟩
    | cons first before =>
      obtain ⟨rfl, rfl⟩ := List.cons.inj heq
      rw [hlength] at hle
      exact .inr ⟨by omega, before, e', after, rfl, hvalue, by omega⟩
  · rintro (⟨hvalue, hle⟩ | ⟨hle, before, e', after, rfl, hvalue, hrest⟩)
    · refine ⟨[], e, events, rfl, hvalue, ?_⟩
      rw [stream, List.flatMap_nil, List.length_nil, Nat.zero_add]
      exact hle
    · refine ⟨e :: before, e', after, rfl, hvalue, ?_⟩
      rw [hlength]
      omega

/-- Of a stream that is cut, the events that are whole decode, and nothing else. -/
theorem decodes_take {events : List Event} {n : ℕ} :
    Decodes decode P ((stream events).take n) ↔ Within decode P events n := by
  induction events generalizing n with
  | nil =>
    have hnil : (stream []).take n = [] := List.take_nil
    rw [hnil, decodes_line List.not_mem_nil]
    constructor
    · rintro ⟨value, hvalue, -⟩
      cases hvalue
    · rintro ⟨before, e, after, heq, -⟩
      cases before <;> cases heq
  | cons e events ih =>
    rw [stream_cons, within_cons]
    have hline : 10 ∉ e.text ++ [13] := by
      simpa using e.one_line
    have hblank : ∀ c ∈ ([13] : Bytes), isSpace c = true := by
      simp [isSpace]
    by_cases hcut : n < e.text.length
    · -- The event is cut.
      rw [List.take_append_of_le_length hcut.le, decodes_line fun h => e.one_line (List.mem_of_mem_take h),
        unmarshal_take decode e hcut]
      refine iff_of_false (fun h => ?_) (fun h => ?_)
      · obtain ⟨value, hvalue, -⟩ := h
        cases hvalue
      · omega
    · obtain ⟨more, rfl⟩ := Nat.exists_eq_add_of_le (Nat.not_lt.mp hcut)
      rw [List.take_length_add_append]
      match more with
      | 0 =>
        rw [List.take_zero, decodes_line (by simpa using e.one_line),
          unmarshal_text decode e fun c hc => absurd hc List.not_mem_nil]
        refine ⟨fun h => .inl ⟨h, Nat.le_refl _⟩, fun h => ?_⟩
        rcases h with h | ⟨hle, -⟩
        · exact h.1
        · omega
      | 1 =>
        rw [List.take_succ_cons, List.take_zero, decodes_line hline, unmarshal_text decode e hblank]
        refine ⟨fun h => .inl ⟨h, Nat.le_add_right _ _⟩, fun h => ?_⟩
        rcases h with h | ⟨hle, -⟩
        · exact h.1
        · omega
      | more + 2 =>
        have hrest : e.text.length + (more + 2) - (e.text.length + 2) = more := by omega
        have hsplit : e.text ++ (13 :: 10 :: stream events).take (more + 2) =
            (e.text ++ [13]) ++ 10 :: (stream events).take more := by simp
        rw [hsplit, decodes_cons hline, unmarshal_text decode e hblank, ih, hrest]
        have hle : e.text.length ≤ e.text.length + (more + 2) := Nat.le_add_right _ _
        have hle' : e.text.length + 2 ≤ e.text.length + (more + 2) := by omega
        rw [and_iff_left hle, and_iff_right hle']

end LukePanel.Library.JsonLines
