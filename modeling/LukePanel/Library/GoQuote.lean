import LukePanel.Library.Yaml

/-! # Strings of Go in double quotes

`strconv.Quote`. Its escapes are some of YAML's, so what it writes is read back there. -/
namespace LukePanel.Library.GoQuote
open LukePanel.Library.Yaml
open LukePanel.Library.NetAddress (hexDigit hexDigit_digitChar)

/-- The table of `strconv.IsPrint` behind ASCII is left open. -/
def isPrint (table : Char → Bool) (c : Char) : Bool :=
  if c.toNat < 128 then ' ' ≤ c && c ≤ '~' else table c

/-- The escapes of one letter. -/
def letter (c : Char) : Option Char :=
  match c with
  | '\x07' => some 'a'
  | '\x08' => some 'b'
  | '\x0c' => some 'f'
  | '\n' => some 'n'
  | '\r' => some 'r'
  | '\t' => some 't'
  | '\x0b' => some 'v'
  | _ => none

/-- `strconv.appendEscapedRune`. -/
def quoteChar (table : Char → Bool) (c : Char) : Text :=
  if c = '"' ∨ c = '\\' then ['\\', c]
  else if isPrint table c then [c]
  else match letter c with
    | some e => ['\\', e]
    | none =>
      if c < ' ' ∨ c = '\x7f' then '\\' :: 'x' :: hexDigits 2 c.toNat
      else if c.toNat < 65536 then '\\' :: 'u' :: hexDigits 4 c.toNat
      else '\\' :: 'U' :: hexDigits 8 c.toNat

def quote (table : Char → Bool) (text : Text) : Text := '"' :: text.flatMap (quoteChar table) ++ ['"']

example : quote (fun _ => false) "a\"\x01é😀".toList = "\"a\\\"\\x01\\u00e9\\U0001f600\"".toList := by
  decide +kernel

variable {table : Char → Bool} {c : Char}

theorem le_of_isPrint (h : isPrint table c = true) : ' ' ≤ c := by
  unfold isPrint at h
  split at h
  · simp only [Bool.and_eq_true, decide_eq_true_eq] at h
    exact h.1
  · rename_i hc
    rw [Char.le_def, UInt32.le_iff_toNat_le]
    change 32 ≤ c.toNat
    omega

theorem unquote_escape {e : Char} (digits : ℕ) (hescaped : escaped e = none)
    (hlength : hexLength e = some (digits + 1)) (hc : c.toNat < 16 ^ (digits + 1)) (rest : Text) :
    unquote .text ('\\' :: e :: hexDigits (digits + 1) c.toNat ++ rest) =
      prepend c (unquote .text rest) := by
  have hvalue : 0 * 16 ^ (digits + 1) + c.toNat % 16 ^ (digits + 1) = c.toNat := by
    rw [Nat.zero_mul, Nat.zero_add, Nat.mod_eq_of_lt hc]
  have hread := unquote_hex (n := c.toNat) c.valid digits 0 rest hvalue
  rw [Char.ofNat_toNat] at hread
  rw [List.cons_append, List.cons_append, unquote, if_neg (by decide), if_pos rfl, unquote, hescaped,
    hlength]
  exact hread

theorem unquote_char {e : Char} (he : escaped e = some c) (rest : Text) :
    unquote .text (['\\', e] ++ rest) = prepend c (unquote .text rest) := by
  rw [List.cons_append, List.singleton_append, unquote, if_neg (by decide), if_pos rfl, unquote, he]

theorem escaped_of_letter {e : Char} (h : letter c = some e) : escaped e = some c := by
  unfold letter at h
  split at h <;> cases h <;> rfl

theorem toNat_lt_of_control (h : c < ' ' ∨ c = '\x7f') : c.toNat < 256 := by
  rcases h with h | rfl
  · rw [Char.lt_def, UInt32.lt_iff_toNat_lt] at h
    have hspace : c.toNat < 32 := h
    omega
  · decide

theorem toNat_lt (c : Char) : c.toNat < 1114112 := by
  have hvalid : c.toNat.isValidChar := c.valid
  rw [Nat.isValidChar] at hvalid
  omega

theorem unquote_quoteChar (rest : Text) :
    unquote .text (quoteChar table c ++ rest) = prepend c (unquote .text rest) := by
  rw [quoteChar]
  by_cases hquote : c = '"' ∨ c = '\\'
  · rw [if_pos hquote]
    refine unquote_char ?_ rest
    rcases hquote with rfl | rfl <;> rfl
  rw [if_neg hquote]
  by_cases hprint : isPrint table c = true
  · have hc := le_of_isPrint hprint
    rw [not_or] at hquote
    rw [if_pos hprint, List.singleton_append, unquote, if_neg hquote.1, if_neg hquote.2,
      if_neg fun h => absurd h.1 (Char.not_lt.mpr hc)]
  rw [if_neg hprint]
  cases hletter : letter c with
  | some e => exact unquote_char (escaped_of_letter hletter) rest
  | none =>
    dsimp only
    by_cases hx : c < ' ' ∨ c = '\x7f'
    · rw [if_pos hx]
      exact unquote_escape 1 rfl rfl (toNat_lt_of_control hx) rest
    rw [if_neg hx]
    by_cases hu : c.toNat < 65536
    · rw [if_pos hu]
      exact unquote_escape 3 rfl rfl hu rest
    · rw [if_neg hu]
      exact unquote_escape 7 rfl rfl (Nat.lt_of_lt_of_le (toNat_lt c) (by decide)) rest

/-- YAML reads back what was quoted. -/
theorem scalar_quote (text : Text) : scalar (quote table text) = some (.str text, []) := by
  rw [quote, List.cons_append, scalar, if_pos rfl,
    unquote_flatMap (fun c _ => unquote_quoteChar) []]
  rfl

/-! ## One line -/

theorem isBreak_of_le (h : ' ' ≤ c) : isBreak c = false :=
  isBreak_of_test (fun c => ' ' ≤ c) (by decide) (by decide) (decide_eq_true h)

theorem isBreak_of_hexDigits {digits n : ℕ} (h : c ∈ hexDigits digits n) : isBreak c = false := by
  induction digits with
  | zero => cases h
  | succ digits ih =>
    rcases List.mem_cons.mp h with rfl | h
    · have hdigit := hexDigit_digitChar (d := n / 16 ^ digits % 16) (Nat.mod_lt _ (by decide))
      exact isBreak_of_test (fun c => (hexDigit c).isSome) (by decide) (by decide)
        (Option.isSome_of_eq_some hdigit)
    · exact ih h

theorem isBreak_of_letter {e : Char} (h : letter c = some e) : isBreak e = false := by
  unfold letter at h
  split at h <;> cases h <;> rfl

theorem isBreak_of_quoteChar {d : Char} (h : d ∈ quoteChar table c) : isBreak d = false := by
  rw [quoteChar] at h
  split at h
  · rename_i hquote
    rcases hquote with rfl | rfl <;> rcases List.mem_cons.mp h with rfl | h <;>
      first | rfl | (rw [List.mem_singleton.mp h]; rfl)
  · split at h
    · rename_i hprint
      rw [List.mem_singleton.mp h]
      exact isBreak_of_le (le_of_isPrint hprint)
    · split at h
      · rename_i e hletter
        rcases List.mem_cons.mp h with rfl | h
        · rfl
        · rw [List.mem_singleton.mp h]
          exact isBreak_of_letter hletter
      · have hhex : ∀ {x : Char} {digits : ℕ}, isBreak x = false →
            d ∈ '\\' :: x :: hexDigits digits c.toNat → isBreak d = false := by
          intro x digits hx hd
          rcases List.mem_cons.mp hd with rfl | hd
          · rfl
          · rcases List.mem_cons.mp hd with rfl | hd
            · exact hx
            · exact isBreak_of_hexDigits hd
        split at h
        · exact hhex rfl h
        · split at h
          · exact hhex rfl h
          · exact hhex rfl h

theorem isBreak_of_quote {text : Text} (h : c ∈ quote table text) : isBreak c = false := by
  rw [quote, List.cons_append, List.mem_cons, List.mem_append, List.mem_flatMap,
    List.mem_singleton] at h
  rcases h with rfl | ⟨d, -, h⟩ | rfl
  · rfl
  · exact isBreak_of_quoteChar h
  · rfl

end LukePanel.Library.GoQuote
