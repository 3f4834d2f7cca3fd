import LukePanel.AptAdmin.Simulation
import LukePanel.Library.Words
import Mathlib.Tactic.IntervalCases
import Mathlib.Tactic.Positivity

/-! # The size of the download -/
namespace LukePanel.AptAdmin.DownloadSize
open LukePanel.Library LukePanel.Library.GoStrings LukePanel.Library.Doubles LukePanel.Library.Words
open LukePanel.AptAdmin.Simulation

/-! ## Amounts that `apt` prints -/

inductive SizeUnit where
  | bytes
  | kilo
  | mega
  | giga
  | tera
  | peta
  | exa
  | zetta
  | yotta
  deriving DecidableEq

def SizeUnit.text : SizeUnit → Text
  | .bytes => ['B']
  | .kilo => ['k', 'B']
  | .mega => ['M', 'B']
  | .giga => ['G', 'B']
  | .tera => ['T', 'B']
  | .peta => ['P', 'B']
  | .exa => ['E', 'B']
  | .zetta => ['Z', 'B']
  | .yotta => ['Y', 'B']

/-- The power of 1000. -/
def SizeUnit.power : SizeUnit → ℕ
  | .bytes => 0
  | .kilo => 1
  | .mega => 2
  | .giga => 3
  | .tera => 4
  | .peta => 5
  | .exa => 6
  | .zetta => 7
  | .yotta => 8

/-- Up to four digits, in groups or not, and one more behind a point unless bytes are counted. -/
structure Amount where
  shown : Text
  whole : ℕ
  tenth : Option ℕ
  unit : SizeUnit
  shown_eq : shown.filter (· ≠ ',') = Nat.toDigits 10 whole
  whole_lt : whole < 10000
  tenth_lt : ∀ d ∈ tenth, d < 10
  whole_bytes : unit = .bytes → tenth = none

def tenthText : Option ℕ → Text
  | none => []
  | some d => ['.', d.digitChar]

namespace Amount

def number (a : Amount) : Text := a.shown ++ tenthText a.tenth

def text (a : Amount) : Text := a.number ++ ' ' :: a.unit.text

def value (a : Amount) : ℚ := a.whole + a.tenth.getD 0 / 10

def inBytes (a : Amount) : ℚ := a.value * 1000 ^ a.unit.power

end Amount

/-- What is fetched, of which total if some of it is there already. -/
def needBody (fetch : Amount) : Option Amount → Text
  | none => fetch.text
  | some total => fetch.text ++ '/' :: total.text

def needText (fetch : Amount) (total : Option Amount) : Text :=
  "Need to get ".toList ++ (needBody fetch total ++ " of archives.".toList)

/-! ## Characters of amounts -/

def isAmountChar (c : Char) : Bool :=
  c.isDigit || c ∈ [',', '.', ' ', '/', 'B', 'k', 'M', 'G', 'T', 'P', 'E', 'Z', 'Y']

variable (a : Amount)

theorem isDigit_of_mem_toDigits {c : Char} {n : ℕ} (h : c ∈ Nat.toDigits 10 n) : c.isDigit = true :=
  Nat.isDigit_of_mem_toDigits (by decide) (by decide) h

theorem amountChar_of_isDigit {c : Char} (h : c.isDigit = true) : isAmountChar c = true := by
  rw [isAmountChar, h]
  rfl

theorem isDigit_digitChar {d : ℕ} (h : d < 10) : d.digitChar.isDigit = true := by
  rw [Nat.isDigit_digitChar]
  exact decide_eq_true h

theorem amountChar_shown : ∀ c ∈ a.shown, isAmountChar c = true := by
  intro c hc
  by_cases hcomma : c = ','
  · rw [hcomma]
    decide
  · have hmem : c ∈ a.shown.filter (· ≠ ',') := List.mem_filter.mpr ⟨hc, by simpa using hcomma⟩
    rw [a.shown_eq] at hmem
    exact amountChar_of_isDigit (isDigit_of_mem_toDigits hmem)

theorem amountChar_tenth : ∀ c ∈ tenthText a.tenth, isAmountChar c = true := by
  intro c hc
  cases htenth : a.tenth with
  | none =>
    rw [htenth] at hc
    cases hc
  | some d =>
    rw [htenth, tenthText, List.mem_cons, List.mem_singleton] at hc
    rcases hc with rfl | rfl
    · decide
    · exact amountChar_of_isDigit (isDigit_digitChar (a.tenth_lt d htenth))

theorem amountChar_unit (unit : SizeUnit) : unit.text.all isAmountChar = true := by
  cases unit <;> decide

theorem amountChar_text : ∀ c ∈ a.text, isAmountChar c = true := by
  refine List.forall_mem_append.mpr ⟨?_, ?_⟩
  · exact List.forall_mem_append.mpr ⟨amountChar_shown a, amountChar_tenth a⟩
  · exact List.forall_mem_cons.mpr ⟨by decide, List.all_eq_true.mp (amountChar_unit a.unit)⟩

theorem amountChar_body (total : Option Amount) : ∀ c ∈ needBody a total, isAmountChar c = true := by
  cases total with
  | none => exact amountChar_text a
  | some total =>
    have hslash : isAmountChar '/' = true := by decide
    exact List.forall_mem_append.mpr
      ⟨amountChar_text a, List.forall_mem_cons.mpr ⟨hslash, amountChar_text total⟩⟩

/-! ## The number -/

/-- The number without its groups. -/
def plain : Text := Nat.toDigits 10 a.whole ++ tenthText a.tenth

theorem filter_of_not_mem {text : Text} (h : ',' ∉ text) : text.filter (· ≠ ',') = text :=
  List.filter_eq_self.mpr fun c hc => by
    rw [decide_eq_true_iff]
    rintro rfl
    exact h hc

theorem comma_not_mem_tenth : ',' ∉ tenthText a.tenth := by
  cases htenth : a.tenth with
  | none => exact List.not_mem_nil
  | some d =>
    rw [tenthText, List.mem_cons, List.mem_singleton, not_or]
    refine ⟨by decide, fun heq => ?_⟩
    have hdigit := isDigit_digitChar (a.tenth_lt d htenth)
    rw [← heq] at hdigit
    exact absurd hdigit (by decide)

theorem filter_number : a.number.filter (· ≠ ',') = plain a := by
  rw [Amount.number, List.filter_append, a.shown_eq, filter_of_not_mem (comma_not_mem_tenth a), plain]

theorem comma_not_mem_unit (unit : SizeUnit) : ',' ∉ unit.text := by
  cases unit <;> decide

theorem filter_text : a.text.filter (· ≠ ',') = plain a ++ ' ' :: a.unit.text := by
  rw [Amount.text, List.filter_append, filter_number, List.filter_cons_of_pos (by decide),
    filter_of_not_mem (comma_not_mem_unit a.unit)]

theorem readSign_digit {first : Char} (h : first.isDigit = true) (rest : Text) :
    readSign (first :: rest) = (false, first :: rest) := by
  rw [readSign]
  · rintro rest heq
    rw [(List.cons.inj heq).1] at h
    exact absurd h (by decide)
  · rintro rest heq
    rw [(List.cons.inj heq).1] at h
    exact absurd h (by decide)

/-- `fmt.Sscanf` reads the number that was printed. -/
theorem scanFloat_plain : scanFloat (plain a) = some a.value := by
  have hdigits : ∀ c ∈ Nat.toDigits 10 a.whole, c.isDigit = true := fun c => isDigit_of_mem_toDigits
  have hne : Nat.toDigits 10 a.whole ≠ [] := Nat.toDigits_ne_nil
  have hsign : readSign (plain a) = (false, plain a) := by
    obtain ⟨first, rest, hfirst⟩ := List.exists_cons_of_ne_nil hne
    rw [plain, hfirst, List.cons_append]
    exact readSign_digit (hdigits first (hfirst ▸ List.mem_cons_self)) _
  have htail : (tenthText a.tenth).takeWhile Char.isDigit = [] ∧
      (tenthText a.tenth).dropWhile Char.isDigit = tenthText a.tenth := by
    cases a.tenth <;> exact ⟨rfl, rfl⟩
  have htake : (plain a).takeWhile Char.isDigit = Nat.toDigits 10 a.whole := by
    rw [plain, List.takeWhile_append_of_pos hdigits, htail.1, List.append_nil]
  have hdrop : (plain a).dropWhile Char.isDigit = tenthText a.tenth := by
    rw [plain, List.dropWhile_append_of_pos hdigits, htail.2]
  rw [scanFloat, hsign]
  dsimp only
  rw [htake, hdrop, Amount.value]
  cases htenth : a.tenth with
  | none =>
    simp [tenthText, readExponent, signed, hne]
  | some d =>
    have hd := isDigit_digitChar (a.tenth_lt d htenth)
    have hvalue : Nat.ofDigitChars 10 (Nat.toDigits 10 a.whole ++ [d.digitChar]) 0 =
        10 * a.whole + d := by
      rw [Nat.ofDigitChars_append, Nat.ofDigitChars_ten_toDigits,
        Nat.ofDigitChars_cons_digitChar_of_lt_ten (a.tenth_lt d htenth), Nat.ofDigitChars_nil]
    simp [tenthText, readExponent, signed, hd, hvalue]
    ring

/-! ## What the line is read as -/

theorem isSpace_of_plain : ∀ c ∈ plain a, isSpace c = false := by
  refine List.forall_mem_append.mpr ⟨fun c hc => ?_, fun c hc => ?_⟩
  · exact isSpace_eq_false_of_isDigit (isDigit_of_mem_toDigits hc)
  · cases htenth : a.tenth with
    | none =>
      rw [htenth] at hc
      cases hc
    | some d =>
      rw [htenth, tenthText, List.mem_cons, List.mem_singleton] at hc
      rcases hc with rfl | rfl
      · decide
      · exact isSpace_eq_false_of_isDigit (isDigit_digitChar (a.tenth_lt d htenth))

theorem plain_ne_nil : plain a ≠ [] := by
  have hne : Nat.toDigits 10 a.whole ≠ [] := Nat.toDigits_ne_nil
  exact List.append_ne_nil_of_left_ne_nil hne _

theorem isSpace_of_unit (unit : SizeUnit) : ∀ c ∈ unit.text, isSpace c = false := by
  have hall : unit.text.all (fun c => !isSpace c) = true := by cases unit <;> decide
  intro c hc
  simpa using List.all_eq_true.mp hall c hc

theorem unit_ne_nil (unit : SizeUnit) : unit.text ≠ [] := by cases unit <;> decide

/-- The second word: the unit, with a slash and the next number behind it if a total is given. -/
def unitWord (unit : SizeUnit) : Option Amount → Text
  | none => unit.text
  | some total => unit.text ++ '/' :: plain total

theorem words_body (total : Option Amount) : ∃ more,
    words isSpace ((needBody a total).filter (· ≠ ',')) = plain a :: unitWord a.unit total :: more := by
  have hspace : isSpace ' ' = true := by decide
  have hslash : isSpace '/' = false := by decide
  cases total with
  | none =>
    refine ⟨[], ?_⟩
    rw [needBody, filter_text, words_word_cons (plain_ne_nil a) (isSpace_of_plain a) hspace,
      words_word (unit_ne_nil _) (isSpace_of_unit _)]
    rfl
  | some total =>
    refine ⟨[total.unit.text], ?_⟩
    have hword : ∀ c ∈ unitWord a.unit (some total), isSpace c = false :=
      List.forall_mem_append.mpr
        ⟨isSpace_of_unit _, List.forall_mem_cons.mpr ⟨hslash, isSpace_of_plain total⟩⟩
    have hne : unitWord a.unit (some total) ≠ [] := List.append_ne_nil_of_left_ne_nil (unit_ne_nil _) _
    have hfilter : (needBody a (some total)).filter (· ≠ ',') =
        plain a ++ ' ' :: (unitWord a.unit (some total) ++ ' ' :: total.unit.text) := by
      rw [needBody, List.filter_append, filter_text, List.filter_cons_of_pos (by decide), filter_text,
        unitWord]
      simp only [List.append_assoc, List.cons_append]
    rw [hfilter, words_word_cons (plain_ne_nil a) (isSpace_of_plain a) hspace,
      words_word_cons hne hword hspace, words_word (unit_ne_nil _) (isSpace_of_unit _)]

/-- The factor that is taken for the second word. -/
def factor (unit : SizeUnit) (total : Option Amount) : ℚ :=
  multiplier (toUpper (String.ofList (unitWord unit total)))

theorem parse_need (total : Option Amount) :
    parseHumanBytesBetween (String.ofList (needText a total)) "Need to get " " of archives" =
      truncate (double (double a.value * factor a.unit total)) := by
  have hcut : Substrings.cut "Need to get ".toList (needText a total) =
      some ([], needBody a total ++ " of archives.".toList) := Substrings.cut_prefix _
  have hbody : 'o' ∉ needBody a total :=
    fun hmem => absurd (amountChar_body a total 'o' hmem) (by decide)
  have hbefore : before " of archives".toList (needBody a total ++ " of archives.".toList) =
      needBody a total := by
    have hstop : Substrings.cut " of archives".toList (needBody a total ++ " of archives.".toList) =
        some (needBody a total, ['.']) := Substrings.cut_append (by decide) hbody ['.']
    rw [before, hstop]
    rfl
  obtain ⟨more, hwords⟩ := words_body a total
  have hfields : fields (String.ofList ((needBody a total).filter (· ≠ ','))) =
      (plain a :: unitWord a.unit total :: more).map String.ofList := by
    rw [← hwords, fields, String.toList_ofList, words]
  have hline : (String.ofList (needText a total)).toList = needText a total := String.toList_ofList
  have hnumber : (String.ofList (plain a)).toList = plain a := String.toList_ofList
  rw [parseHumanBytesBetween, hline, hcut]
  dsimp only
  rw [hbefore, hfields, List.map_cons, List.map_cons, if_neg (by simp), List.headD_cons,
    List.tail_cons, List.headD_cons, bytesOf, hnumber, scanFloat_plain]
  rfl

/-! ## When the size is right -/

theorem toUpper_slash {s : String} (h : '/' ∈ s.toList) : '/' ∈ (toUpper s).toList := by
  rw [toUpper, String.toList_ofList, List.mem_map]
  exact ⟨'/', h, by decide⟩

/-- A slash in the word is in no name of a unit. -/
theorem multiplier_slash {s : String} (h : '/' ∈ s.toList) : multiplier s = 1 := by
  have hne : ∀ name : String, '/' ∉ name.toList → s ≠ name := by
    rintro name hname rfl
    exact hname h
  simp only [multiplier, hne _ (by decide : '/' ∉ "KB".toList), hne _ (by decide : '/' ∉ "KIB".toList),
    hne _ (by decide : '/' ∉ "MB".toList), hne _ (by decide : '/' ∉ "MIB".toList),
    hne _ (by decide : '/' ∉ "GB".toList), hne _ (by decide : '/' ∉ "GIB".toList),
    hne _ (by decide : '/' ∉ "TB".toList), hne _ (by decide : '/' ∉ "TIB".toList), or_self, if_false]

/-- The factor is one, or the power of 1024 in place of that of 1000. -/
theorem factor_cases (unit : SizeUnit) (total : Option Amount) : factor unit total = 1 ∨
    0 < unit.power ∧ unit.power ≤ 4 ∧ factor unit total = 1024 ^ unit.power := by
  cases total with
  | none => cases unit <;> decide +kernel
  | some total =>
    refine .inl (multiplier_slash (toUpper_slash ?_))
    rw [String.toList_ofList]
    exact List.mem_append_right _ List.mem_cons_self

theorem factor_bytes (total : Option Amount) : factor .bytes total = 1 := by
  rcases factor_cases .bytes total with h | ⟨h, -⟩
  · exact h
  · exact absurd h (by decide)

theorem value_bytes (h : a.unit = .bytes) : a.value = a.whole := by
  rw [Amount.value, a.whole_bytes h]
  simp

theorem value_ge (h : a.value ≠ 0) : 1 / 10 ≤ a.value := by
  rw [Amount.value] at h ⊢
  by_cases hwhole : a.whole = 0
  · have htenth : a.tenth.getD 0 ≠ 0 := by
      intro hzero
      rw [hwhole, hzero] at h
      exact h (by simp)
    have hone : (1 : ℚ) ≤ (a.tenth.getD 0 : ℕ) := by exact_mod_cast Nat.one_le_iff_ne_zero.mpr htenth
    rw [hwhole, Nat.cast_zero, zero_add]
    linarith
  · have hone : (1 : ℚ) ≤ (a.whole : ℕ) := by exact_mod_cast Nat.one_le_iff_ne_zero.mpr hwhole
    have htenth : (0 : ℚ) ≤ (a.tenth.getD 0 : ℕ) := Nat.cast_nonneg _
    linarith

theorem power_pos {unit : SizeUnit} (h : unit ≠ .bytes) : 1 ≤ unit.power := by
  cases unit with
  | bytes => exact absurd rfl h
  | _ => decide

/-- What is read off the line. -/
def downloaded (total : Option Amount) : ℤ := truncate (double (double a.value * factor a.unit total))

theorem downloaded_ne {total : Option Amount} (hunit : a.unit ≠ .bytes) (hvalue : a.value ≠ 0) :
    (downloaded a total : ℚ) ≠ a.inBytes := by
  have hge := value_ge a hvalue
  have hpower := power_pos hunit
  have hnonneg : 0 ≤ a.value := le_trans (by norm_num) hge
  have hfactor : 0 ≤ factor a.unit total := by
    rcases factor_cases a.unit total with h | ⟨-, -, h⟩ <;> rw [h] <;> positivity
  obtain ⟨hlow, hhigh⟩ := double_product_bounds hnonneg hfactor
  have hproduct : 0 ≤ double (double a.value * factor a.unit total) :=
    le_trans (mul_nonneg (mul_nonneg hnonneg hfactor) (by norm_num)) hlow
  obtain ⟨htrunc, htrunc'⟩ := truncate_bounds hproduct
  rw [downloaded, Amount.inBytes]
  rcases factor_cases a.unit total with h | ⟨-, hfour, h⟩
  · -- below the amount
    refine ne_of_lt (lt_of_le_of_lt htrunc (lt_of_le_of_lt hhigh ?_))
    have hthousand : (1000 : ℚ) ≤ 1000 ^ a.unit.power := le_self_pow₀ (by norm_num) (by omega)
    have hscaled := mul_le_mul_of_nonneg_left hthousand hnonneg
    rw [h, mul_one]
    linarith
  · -- above it
    refine ne_of_gt (lt_of_le_of_lt ?_ htrunc')
    rw [h] at hlow ⊢
    refine le_trans ?_ (sub_le_sub_right hlow 1)
    generalize a.unit.power = power at hpower hfour
    interval_cases power <;> linarith

/-- It is the amount that was stated, if and only if that is nothing or counted in bytes. -/
theorem downloaded_eq_iff (total : Option Amount) :
    (downloaded a total : ℚ) = a.inBytes ↔ a.unit = .bytes ∨ a.value = 0 := by
  constructor
  · intro h
    by_contra hnot
    rw [not_or] at hnot
    exact downloaded_ne a hnot.1 hnot.2 h
  · rintro (hunit | hvalue)
    · have hlt : a.whole < 2 ^ 53 := lt_trans a.whole_lt (by norm_num)
      rw [downloaded, Amount.inBytes, value_bytes a hunit, hunit, factor_bytes, mul_one,
        double_natCast hlt, double_natCast hlt, truncate_natCast, SizeUnit.power, pow_zero, mul_one, Int.cast_natCast]
    · have hzero := truncate_natCast 0
      rw [Nat.cast_zero] at hzero
      rw [downloaded, Amount.inBytes, hvalue, double_zero, zero_mul, double_zero, hzero, zero_mul]
      rfl

end LukePanel.AptAdmin.DownloadSize
