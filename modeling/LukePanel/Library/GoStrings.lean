import LukePanel.Library.SplitLists
import Mathlib.Data.List.Basic
import Mathlib.Data.List.DropRight
import Mathlib.Data.List.Infix

/-! # Strings as the Go standard library treats them -/
namespace LukePanel.Library.GoStrings

/-- `unicode.IsSpace`. -/
def isSpace (c : Char) : Bool :=
  c ∈ ['\t', '\n', '\x0b', '\x0c', '\r', ' ', '\u0085', '\u00a0', '\u1680', '\u2028', '\u2029',
    '\u202f', '\u205f', '\u3000'] || ('\u2000' ≤ c && c ≤ '\u200a')

/-- `strings.TrimSpace`. -/
def trimSpace (s : String) : String :=
  String.ofList ((s.toList.dropWhile isSpace).reverse.dropWhile isSpace).reverse

example : trimSpace " \t42\n" = "42" := by decide

/-- `unicode.ToLower` as far as the result is ASCII: two letters outside it map into it. -/
def lowerChar (c : Char) : Char :=
  if c.toNat = 304 then 'i' else if c.toNat = 8490 then 'k' else c.toLower

/-- `strings.ToLower`, as far as the result is ASCII. -/
def toLower (s : String) : String := String.ofList (s.toList.map lowerChar)

/-- `strings.ContainsAny`. -/
def containsAny (s : String) (chars : List Char) : Bool := s.toList.any (· ∈ chars)

/-- `strings.Contains`. -/
def contains (s part : String) : Bool := decide (part.toList <:+: s.toList)

/-- `strings.HasPrefix`. -/
def hasPrefix (s start : String) : Bool := start.toList.isPrefixOf s.toList

/-- `strings.HasSuffix`. -/
def hasSuffix (s suffix : String) : Bool := suffix.toList.isSuffixOf s.toList

/-- `strconv.Atoi`, on 64 bits. -/
def parseInt (s : String) : Option Int :=
  let (negative, digits) : Bool × List Char :=
    match s.toList with
    | '-' :: rest => (true, rest)
    | '+' :: rest => (false, rest)
    | rest => (false, rest)
  let n : Int := Nat.ofDigitChars 10 digits 0
  let n := if negative then -n else n
  if digits ≠ [] ∧ digits.all Char.isDigit ∧ -9223372036854775808 ≤ n ∧ n ≤ 9223372036854775807 then
    some n
  else none

/-- `strings.Split` at one character. -/
def split (sep : Char) (s : String) : List String := (s.toList.splitOn sep).map String.ofList

/-- `strings.Join` with one character. -/
def join (sep : Char) (parts : List String) : String :=
  String.ofList ([sep].intercalate (parts.map String.toList))

/-- `strings.Fields`. -/
def fields (s : String) : List String :=
  ((s.toList.splitOnP isSpace).filter (· ≠ [])).map String.ofList

theorem isSpace_eq_false_of_isDigit {c : Char} (h : c.isDigit = true) : isSpace c = false := by
  simp only [Char.isDigit, Bool.and_eq_true, decide_eq_true_eq] at h
  rw [isSpace, Bool.or_eq_false_iff]
  refine ⟨?_, ?_⟩
  · refine decide_eq_false fun hmem => ?_
    simp only [List.mem_cons, List.not_mem_nil, or_false] at hmem
    rcases hmem with rfl | rfl | rfl | rfl | rfl | rfl | rfl | rfl | rfl | rfl | rfl | rfl | rfl |
      rfl <;> revert h <;> decide
  · have hlt : ¬ '\u2000' ≤ c := by
      rw [Char.le_def]
      exact fun hc => absurd (UInt32.le_trans hc h.2) (by decide)
    simp [hlt]

/-! ## Bytes -/

theorem utf8ByteSize_ofList {chars : List Char} (h : ∀ c ∈ chars, c.utf8Size = 1) :
    (String.ofList chars).utf8ByteSize = chars.length := by
  induction chars with
  | nil => rfl
  | cons c rest ih =>
    rw [List.forall_mem_cons] at h
    rw [String.ofList_cons, String.utf8ByteSize_append, String.utf8ByteSize_singleton, h.1, ih h.2,
      List.length_cons, Nat.add_comm]

theorem utf8ByteSize_of_ascii {s : String} (h : ∀ c ∈ s.toList, c.utf8Size = 1) :
    s.utf8ByteSize = s.toList.length := by
  rw [← utf8ByteSize_ofList h, String.ofList_toList]

theorem utf8Size_of_isDigit {c : Char} (h : c.isDigit = true) : c.utf8Size = 1 := by
  simp only [Char.isDigit, Bool.and_eq_true, decide_eq_true_eq] at h
  have hle : c.val ≤ 0x7f := UInt32.le_trans h.2 (by decide)
  exact if_pos hle

/-! ## Trimming -/

theorem trimSpace_eq_self {s : String} (hfirst : ∀ c, s.toList.head? = some c → isSpace c = false)
    (hlast : ∀ c, s.toList.getLast? = some c → isSpace c = false) : trimSpace s = s := by
  have hdrop : s.toList.dropWhile isSpace = s.toList := by
    cases hs : s.toList with
    | nil => rfl
    | cons c rest => exact List.dropWhile_cons_of_neg (by simp [hfirst c (by simp [hs])])
  have hrdrop : s.toList.rdropWhile isSpace = s.toList :=
    List.rdropWhile_eq_self_iff.mpr fun hl => by simp [hlast _ (List.getLast?_eq_some_getLast hl)]
  unfold trimSpace
  rw [hdrop]
  exact (congrArg String.ofList hrdrop).trans String.ofList_toList

theorem isSpace_of_trimSpace_eq_empty {s : String} (h : trimSpace s = "") :
    ∀ c ∈ s.toList, isSpace c = true := by
  have hnil : (s.toList.dropWhile isSpace).rdropWhile isSpace = [] :=
    String.ofList_injective (h.trans String.ofList_nil.symm)
  cases hl : s.toList.dropWhile isSpace with
  | nil => exact List.dropWhile_eq_nil_iff.mp hl
  | cons c rest =>
    have hc : isSpace c = false := by simpa [hl] using List.head?_dropWhile_not isSpace s.toList
    rw [hl, List.rdropWhile_eq_nil_iff] at hnil
    simp [hnil c List.mem_cons_self] at hc

theorem toList_trimSpace (s : String) :
    (trimSpace s).toList = (s.toList.dropWhile isSpace).rdropWhile isSpace := String.toList_ofList

/-- What is trimmed is space. -/
theorem trimSpace_parts (s : String) : ∃ before after, s.toList = before ++ (trimSpace s).toList ++ after ∧
    (∀ c ∈ before, isSpace c = true) ∧ ∀ c ∈ after, isSpace c = true := by
  refine ⟨s.toList.takeWhile isSpace, (s.toList.dropWhile isSpace).rtakeWhile isSpace, ?_,
    fun c hc => List.mem_takeWhile_imp hc, fun c hc => List.mem_rtakeWhile_imp hc⟩
  rw [toList_trimSpace, List.append_assoc, List.rdropWhile_append_rtakeWhile,
    List.takeWhile_append_dropWhile]

/-- What is trimmed stands before and after what is left. -/
theorem append_trimSpace_append (s : String) : ∃ before after, s = before ++ trimSpace s ++ after := by
  obtain ⟨before, after, heq, -⟩ := trimSpace_parts s
  refine ⟨String.ofList before, String.ofList after, String.toList_injective ?_⟩
  rw [String.toList_append, String.toList_append, String.toList_ofList, String.toList_ofList, heq]

/-- Space in front is trimmed. -/
theorem trimSpace_append {before : String} (h : ∀ c ∈ before.toList, isSpace c = true) (s : String) :
    trimSpace (before ++ s) = trimSpace s := by
  unfold trimSpace
  rw [String.toList_append, List.dropWhile_append_of_pos h]

theorem mem_of_mem_trimSpace {s : String} {c : Char} (h : c ∈ (trimSpace s).toList) :
    c ∈ s.toList := by
  obtain ⟨before, after, heq⟩ := append_trimSpace_append s
  rw [heq]
  simp [h]

theorem utf8ByteSize_trimSpace_le (s : String) : (trimSpace s).utf8ByteSize ≤ s.utf8ByteSize := by
  obtain ⟨before, after, heq⟩ := append_trimSpace_append s
  have hsize := congrArg String.utf8ByteSize heq
  simp only [String.utf8ByteSize_append] at hsize
  omega

theorem isSpace_of_head?_trimSpace {s : String} {c : Char}
    (h : (trimSpace s).toList.head? = some c) : isSpace c = false := by
  rw [toList_trimSpace] at h
  have hhead : (s.toList.dropWhile isSpace).head? = some c := by
    obtain ⟨rest, hrest⟩ := List.rdropWhile_prefix isSpace (l := s.toList.dropWhile isSpace)
    rw [← hrest, List.head?_append, h, Option.some_or]
  simpa [hhead] using List.head?_dropWhile_not isSpace s.toList

theorem isSpace_of_getLast?_trimSpace {s : String} {c : Char}
    (h : (trimSpace s).toList.getLast? = some c) : isSpace c = false := by
  rw [toList_trimSpace] at h
  have hne : (s.toList.dropWhile isSpace).rdropWhile isSpace ≠ [] := by
    intro hnil
    simp [hnil] at h
  have hlast := List.rdropWhile_last_not isSpace (s.toList.dropWhile isSpace) hne
  rw [List.getLast?_eq_some_getLast hne, Option.some.injEq] at h
  simpa [h] using hlast

theorem trimSpace_trimSpace (s : String) : trimSpace (trimSpace s) = trimSpace s :=
  trimSpace_eq_self (fun _ => isSpace_of_head?_trimSpace) fun _ => isSpace_of_getLast?_trimSpace

/-! ## Splitting and joining -/

theorem fields_of_no_space {s : String} (hne : s ≠ "") (h : ∀ c ∈ s.toList, isSpace c = false) :
    fields s = [s] := by
  simp [fields, List.splitOnP_eq_singleton h, hne]

theorem split_join {sep : Char} {parts : List String} (hne : parts ≠ [])
    (h : ∀ s ∈ parts, sep ∉ s.toList) : split sep (join sep parts) = parts := by
  have hsplit : ([sep].intercalate (parts.map String.toList)).splitOn sep =
      parts.map String.toList :=
    List.splitOn_intercalate sep (by simpa using h) (by simpa using hne)
  simp [split, join, hsplit]

theorem join_split (sep : Char) (s : String) : join sep (split sep s) = s := by
  simp [join, split, List.intercalate_splitOn]

theorem split_join_concat {sep : Char} {parts : List String} (last : String)
    (h : ∀ s ∈ parts, sep ∉ s.toList) :
    split sep (join sep (parts ++ [last])) = parts ++ split sep last := by
  induction parts with
  | nil => simp [join]
  | cons part rest ih =>
    rw [List.forall_mem_cons] at h
    have hne : (rest ++ [last]).map String.toList ≠ [] := by simp
    have hjoin : (join sep (part :: rest ++ [last])).toList =
        part.toList ++ sep :: (join sep (rest ++ [last])).toList := by
      simp only [join, List.cons_append, List.map_cons, String.toList_ofList]
      rw [List.intercalate_cons_of_ne_nil hne]
      simp
    have hsplit := List.splitOn_append_cons_self_of_not_mem h.1 (join sep (rest ++ [last])).toList
    unfold split at ih ⊢
    rw [hjoin, hsplit, List.map_cons, ih h.2, String.ofList_toList, List.cons_append]

theorem split_append_sep (sep : Char) (s : String) :
    split sep (s ++ String.ofList [sep]) = split sep s ++ [""] := by
  simp [split, List.splitOn_append_cons_self]

theorem sep_not_mem_of_mem_split {sep : Char} {s part : String} (h : part ∈ split sep s) :
    sep ∉ part.toList := by
  obtain ⟨l, hl, rfl⟩ := List.mem_map.mp h
  rw [String.toList_ofList]
  exact SplitLists.not_mem_of_mem_splitOn l hl

theorem mem_join {sep c : Char} {parts : List String} (h : c ∈ (join sep parts).toList) :
    c = sep ∨ ∃ part ∈ parts, c ∈ part.toList := by
  rw [join, String.toList_ofList] at h
  induction parts with
  | nil => cases h
  | cons part rest ih =>
    by_cases hrest : rest.map String.toList = []
    · rw [List.map_cons, hrest, List.intercalate_singleton] at h
      exact .inr ⟨part, List.mem_cons_self, h⟩
    · rw [List.map_cons, List.intercalate_cons_of_ne_nil hrest, List.mem_append, List.mem_append,
        List.mem_singleton] at h
      rcases h with (h | h) | h
      · exact .inr ⟨part, List.mem_cons_self, h⟩
      · exact .inl h
      · rcases ih h with hc | ⟨p, hp, hc⟩
        · exact .inl hc
        · exact .inr ⟨p, List.mem_cons_of_mem _ hp, hc⟩

theorem infix_of_mem_split {sep : Char} {s part : String} (h : part ∈ split sep s) :
    part.toList <:+: s.toList := by
  obtain ⟨l, hl, rfl⟩ := List.mem_map.mp h
  rw [String.toList_ofList]
  exact SplitLists.infix_of_mem_splitOn hl

end LukePanel.Library.GoStrings
