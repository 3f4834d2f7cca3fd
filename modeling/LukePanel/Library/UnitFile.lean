import Mathlib.Data.List.DropRight
import Mathlib.Data.Option.Basic

/-! # Unit files

The syntax systemd reads unit files by: lines that end at a newline, a carriage return or a null
character, comments, lines that go on after a trailing backslash, lines that are dropped for a
noncharacter, sections and assignments, specifiers in values, and the words of a command line.
There is no limit on the length of a line. -/
namespace LukePanel.Library.UnitFile

abbrev Text := List Char

/-! ## Lines -/

def isEol (c : Char) : Bool := c ∈ ['\n', '\r', '\x00']

/-- The rest of a line begun with `read`, and the lines after it; `ends` are the ends of line just
read, of which different ones make up one. -/
def readLines (read : Text) (ends : List Char) : Text → List Text
  | [] => if read = [] ∧ ends = [] then [] else [read]
  | c :: rest =>
    if isEol c then
      if '\x00' ∈ ends ∨ c ∈ ends then read :: readLines [] [c] rest
      else readLines read (c :: ends) rest
    else if ends ≠ [] then read :: readLines [c] [] rest
    else readLines (read ++ [c]) [] rest

def isWhitespace (c : Char) : Bool := c ∈ [' ', '\t', '\n', '\r']

def strip (l : Text) : Text := (l.dropWhile isWhitespace).rdropWhile isWhitespace

def isComment (line : Text) : Bool := (line.dropWhile isWhitespace).head?.any (· ∈ ['#', ';'])

/-- The last backslash is not itself escaped. -/
def isEscaped (line : Text) : Bool := (line.rtakeWhile (· = '\\')).length % 2 = 1

/-- The lines with those joined that go on. -/
def joinLines (pending : Option Text) : List Text → List Text
  | [] => pending.toList
  | line :: rest =>
    if isComment line then joinLines pending rest
    else
      let whole := pending.getD [] ++ line
      if isEscaped whole then joinLines (some (whole.dropLast ++ [' '])) rest
      else whole :: joinLines none rest

/-! ## Items -/

inductive Item where
  | header (name : Text)
  | assignment (key value : Text)
  | invalid (line : Text)
deriving DecidableEq

/-- A code point of no character: the last two of each plane and 32 of the first. -/
def isNonchar (c : Char) : Bool :=
  0xfdd0 ≤ c.toNat && c.toNat ≤ 0xfdef || 0xfffe ≤ c.toNat % 0x10000

/-- A character that a line can hold. -/
def isKept (c : Char) : Bool := !isEol c && !isNonchar c

def item (line : Text) : Option Item :=
  match strip line with
  | [] => none
  | c :: rest =>
    -- the line is dropped with a warning
    if (c :: rest).any isNonchar then none
    else if c = '[' then
      if rest.getLast? = some ']' then some (.header rest.dropLast) else some (.invalid (c :: rest))
    else if c = '=' ∨ '=' ∉ rest then some (.invalid (c :: rest))
    else some (.assignment (strip ((c :: rest).takeWhile (· ≠ '=')))
      (strip ((c :: rest).dropWhile (· ≠ '=')).tail))

def items (text : Text) : List Item := (joinLines none (readLines [] [] text)).filterMap item

/-! ## Values -/

/-- A value with its specifiers resolved; one that is not known stays. -/
def expand (resolve : Char → Option Text) : Text → Text
  | [] => []
  | [c] => [c]
  | c :: d :: rest =>
    if c ≠ '%' then c :: expand resolve (d :: rest)
    else if d = '%' then '%' :: expand resolve rest
    else
      match resolve d with
      | some value => value ++ expand resolve rest
      | none => c :: d :: expand resolve rest

/-- The escapes of one letter. -/
def unescape (c : Char) : Option Char :=
  match c with
  | 'a' => some '\x07'
  | 'b' => some '\x08'
  | 'f' => some '\x0c'
  | 'n' => some '\n'
  | 'r' => some '\r'
  | 't' => some '\t'
  | 'v' => some '\x0b'
  | 's' => some ' '
  | '\\' => some '\\'
  | '"' => some '"'
  | '\'' => some '\''
  | _ => none

/-- The words of one command; none are read where an escape is not known, a quote stays open or
a semicolon begins another command. -/
def words (current : Option Text) (quote : Option Char) : Text → Option (List Text)
  | [] => if quote.isSome then none else some current.toList
  | '\\' :: c :: rest =>
    (unescape c).bind fun c => words (some (current.getD [] ++ [c])) quote rest
  | c :: rest =>
    if c = '\\' then none
    else if quote.isSome then
      if quote = some c then words (some (current.getD [])) none rest
      else words (some (current.getD [] ++ [c])) quote rest
    else if isWhitespace c then (words none none rest).map (current.toList ++ ·)
    else if c = '"' ∨ c = '\'' then words (some (current.getD [])) (some c) rest
    else if c = ';' ∧ current = none then none
    else words (some (current.getD [] ++ [c])) none rest

/-- The argument vector of a command line. -/
def argv (resolve : Char → Option Text) (value : Text) : Option (List Text) :=
  (words none none value).map (·.map (expand resolve))

/-! ## Texts of lines -/

/-- Lines, each with its end. -/
def unlines (lines : List Text) : Text := lines.flatMap (· ++ ['\n'])

theorem readLines_append {line : Text} (hline : ∀ c ∈ line, isEol c = false) (read rest : Text) :
    readLines read [] (line ++ rest) = readLines (read ++ line) [] rest := by
  induction line generalizing read with
  | nil => rw [List.nil_append, List.append_nil]
  | cons c line ih =>
    rw [List.forall_mem_cons] at hline
    rw [List.cons_append, readLines, hline.1]
    simp only [Bool.false_eq_true, if_false, ne_eq, not_true_eq_false]
    rw [ih hline.2, List.append_assoc, List.singleton_append]

theorem readLines_newline (read rest : Text) :
    readLines read [] ('\n' :: rest) = readLines read ['\n'] rest := by
  simp [readLines, isEol]

/-- Behind the end of a line. -/
theorem readLines_unlines {lines : List Text} (hlines : ∀ line ∈ lines, ∀ c ∈ line, isEol c = false)
    (read : Text) : readLines read ['\n'] (unlines lines) = read :: lines := by
  induction lines generalizing read with
  | nil => simp [unlines, readLines]
  | cons line lines ih =>
    rw [List.forall_mem_cons] at hlines
    have hunlines : unlines (line :: lines) = line ++ '\n' :: unlines lines := by
      simp [unlines]
    rw [hunlines]
    cases line with
    | nil => simp [readLines, isEol, ih hlines.2]
    | cons c line =>
      obtain ⟨hc, hline⟩ := List.forall_mem_cons.mp hlines.1
      rw [List.cons_append, readLines, hc]
      simp only [Bool.false_eq_true, if_false, ne_eq, List.cons_ne_nil, not_false_eq_true, if_true]
      rw [readLines_append hline, readLines_newline, ih hlines.2, List.singleton_append]

theorem lines_unlines {lines : List Text} (hlines : ∀ line ∈ lines, ∀ c ∈ line, isEol c = false) :
    readLines [] [] (unlines lines) = lines := by
  cases lines with
  | nil => rfl
  | cons line lines =>
    rw [List.forall_mem_cons] at hlines
    have hunlines : unlines (line :: lines) = line ++ '\n' :: unlines lines := by
      simp [unlines]
    rw [hunlines, readLines_append hlines.1, List.nil_append, readLines_newline,
      readLines_unlines hlines.2]

theorem joinLines_cons {line : Text} (hcomment : isComment line = false)
    (hescaped : isEscaped line = false) (rest : List Text) :
    joinLines none (line :: rest) = line :: joinLines none rest := by
  simp [joinLines, hcomment, hescaped]

/-- A line that goes on with the next one. -/
theorem joinLines_pair {line next : Text} (hcomment : isComment line = false)
    (hescaped : isEscaped line = true) (hnext : isComment next = false)
    (hwhole : isEscaped (line.dropLast ++ [' '] ++ next) = false) (rest : List Text) :
    joinLines none (line :: next :: rest) =
      (line.dropLast ++ [' '] ++ next) :: joinLines none rest := by
  simp only [joinLines, hcomment, Option.getD_none, List.nil_append, hescaped, hnext,
    Option.getD_some, hwhole, Bool.false_eq_true, if_false, if_true]

theorem isEscaped_append {line : Text} {c : Char} (hc : c ≠ '\\') :
    isEscaped (line ++ [c]) = false := by
  rw [isEscaped, List.rtakeWhile_concat_neg _ _ _ (by simpa using hc)]
  rfl

theorem isComment_cons {c : Char} (hspace : isWhitespace c = false) (hsharp : c ≠ '#')
    (hsemicolon : c ≠ ';') (rest : Text) : isComment (c :: rest) = false := by
  simp [isComment, hspace, hsharp, hsemicolon]

theorem isKept_iff {c : Char} : isKept c = true ↔ isEol c = false ∧ isNonchar c = false := by
  simp [isKept]

theorem isEol_of_isKept {l : Text} (h : ∀ c ∈ l, isKept c = true) : ∀ c ∈ l, isEol c = false :=
  fun c hc => (isKept_iff.mp (h c hc)).1

/-- Letters are kept, and have no meaning in a line. -/
theorem isKept_of_isAlpha {c : Char} (h : c.isAlpha = true) :
    isKept c = true ∧ isWhitespace c = false := by
  have hlt : c.toNat < 128 := by
    delta Char.isAlpha Char.isUpper Char.isLower at h
    simp only [Bool.or_eq_true, Bool.and_eq_true, decide_eq_true_eq] at h
    rcases h with ⟨-, h⟩ | ⟨-, h⟩
    · exact Nat.lt_of_le_of_lt (UInt32.le_iff_toNat_le.mp h) (by decide)
    · exact Nat.lt_of_le_of_lt (UInt32.le_iff_toNat_le.mp h) (by decide)
  have hall : ∀ n < 128, (Char.ofNat n).isAlpha = true →
      isKept (Char.ofNat n) = true ∧ isWhitespace (Char.ofNat n) = false := by decide +kernel
  have hc := hall c.toNat hlt
  rw [Char.ofNat_toNat] at hc
  exact hc h

/-! ## Stripped values -/

theorem strip_eq_self {l : Text} (hfirst : ∀ c, l.head? = some c → isWhitespace c = false)
    (hlast : ∀ c, l.getLast? = some c → isWhitespace c = false) : strip l = l := by
  have hdrop : l.dropWhile isWhitespace = l := by
    cases l with
    | nil => rfl
    | cons c rest => exact List.dropWhile_cons_of_neg (by simp [hfirst c rfl])
  rw [strip, hdrop]
  exact List.rdropWhile_eq_self_iff.mpr fun hl => by
    simp [hlast _ (List.getLast?_eq_some_getLast hl)]

theorem item_assignment {key value : Text} (hkey : key ≠ []) (hequals : '=' ∉ key)
    (hbracket : key.head? ≠ some '[') (hstrip : ∀ c ∈ key, isWhitespace c = false)
    (hfirst : ∀ c, value.head? = some c → isWhitespace c = false)
    (hlast : ∀ c, value.getLast? = some c → isWhitespace c = false)
    (hkept : ∀ c ∈ key ++ '=' :: value, isNonchar c = false) :
    item (key ++ '=' :: value) = some (.assignment key value) := by
  have hkeystrip : strip key = key := strip_eq_self
    (fun c hc => hstrip c (List.mem_of_mem_head? hc)) fun c hc => hstrip c (List.mem_of_getLast? hc)
  have hline : strip (key ++ '=' :: value) = key ++ '=' :: value := by
    refine strip_eq_self (fun c hc => ?_) fun c hc => ?_
    · rw [List.head?_append_of_ne_nil _ hkey] at hc
      exact hstrip c (List.mem_of_mem_head? hc)
    · rw [List.getLast?_append, List.getLast?_cons] at hc
      cases hv : value.getLast? with
      | none =>
        rw [hv] at hc
        simp only [Option.getD_none, Option.some_or, Option.some.injEq] at hc
        rw [← hc]
        rfl
      | some d =>
        rw [hv] at hc
        simp only [Option.getD_some, Option.some_or, Option.some.injEq] at hc
        exact hlast c (hc ▸ hv)
  cases key with
  | nil => exact absurd rfl hkey
  | cons k key =>
    have hk : k ≠ '[' := fun hk => hbracket (congrArg some hk)
    obtain ⟨hke, hequals'⟩ := not_or.mp (mt List.mem_cons.mpr hequals)
    have hall : ∀ c ∈ k :: key, (decide (c ≠ '=')) = true := fun c hc =>
      decide_eq_true fun heq => hequals (heq ▸ hc)
    have hany : ((k :: key) ++ '=' :: value).any isNonchar = false :=
      List.any_eq_false.mpr fun c hc => by rw [hkept c hc]; exact Bool.false_ne_true
    rw [item, hline]
    simp only [List.cons_append] at hany ⊢
    rw [if_neg (by rw [hany]; exact Bool.false_ne_true), if_neg hk, if_neg (by simp [Ne.symm hke])]
    rw [← List.cons_append, List.takeWhile_append_of_pos hall, List.dropWhile_append_of_pos hall]
    simp [hkeystrip, strip_eq_self hfirst hlast]

/-- A line on its own, and the item it is. -/
structure Reads (line : Text) (i : Option Item) : Prop where
  ends : ∀ c ∈ line, isEol c = false
  comment : isComment line = false
  escaped : isEscaped line = false
  item : item line = i

instance (line : Text) (i : Option Item) : Decidable (Reads line i) :=
  decidable_of_iff ((line.any isEol = false ∧ isComment line = false) ∧
      isEscaped line = false ∧ item line = i)
    ⟨fun h => ⟨by simpa using h.1.1, h.1.2, h.2.1, h.2.2⟩,
      fun h => ⟨⟨by simpa using h.ends, h.comment⟩, h.escaped, h.item⟩⟩

/-- A key of letters and a value that is stripped. -/
theorem reads_assignment {key value : Text} (hkey : key ≠ []) (hletters : key.all Char.isAlpha = true)
    (hvalue : ∀ c ∈ value, isKept c = true)
    (hfirst : ∀ c, value.head? = some c → isWhitespace c = false)
    (hlast : ∀ c, value.getLast? = some c → isWhitespace c = false)
    (hescaped : isEscaped (key ++ '=' :: value) = false) :
    Reads (key ++ '=' :: value) (some (.assignment key value)) := by
  have halpha (c : Char) (hc : c ∈ key) := isKept_of_isAlpha (List.all_eq_true.mp hletters c hc)
  have hother {c d : Char} (hc : c ∈ key) (hd : d.isAlpha = false) : c ≠ d := fun heq =>
    absurd (List.all_eq_true.mp hletters c hc) (by simp [heq, hd])
  have hkept : ∀ c ∈ key ++ '=' :: value, isKept c = true := by
    rw [List.forall_mem_append, List.forall_mem_cons]
    exact ⟨fun c hc => (halpha c hc).1, rfl, hvalue⟩
  refine ⟨isEol_of_isKept hkept, ?_, hescaped, item_assignment hkey ?_ ?_
    (fun c hc => (halpha c hc).2) hfirst hlast fun c hc => (isKept_iff.mp (hkept c hc)).2⟩
  · cases key with
    | nil => exact absurd rfl hkey
    | cons c key =>
      exact isComment_cons (halpha c List.mem_cons_self).2
        (hother List.mem_cons_self (by decide)) (hother List.mem_cons_self (by decide)) _
  · exact fun hmem => hother hmem (by decide) rfl
  · intro hhead
    exact hother (List.mem_of_mem_head? hhead) (by decide) rfl

/-- A line with a noncharacter behind its key is dropped. -/
theorem reads_dropped {key value : Text} (hkey : key ≠ []) (hletters : key.all Char.isAlpha = true)
    (hends : ∀ c ∈ value, isEol c = false)
    (hlast : ∀ c, value.getLast? = some c → isWhitespace c = false)
    (hescaped : isEscaped (key ++ '=' :: value) = false) (hdropped : value.any isNonchar = true) :
    Reads (key ++ '=' :: value) none := by
  have halpha (c : Char) (hc : c ∈ key) := isKept_of_isAlpha (List.all_eq_true.mp hletters c hc)
  obtain ⟨k, rest, rfl⟩ := List.exists_cons_of_ne_nil hkey
  have hk := List.all_eq_true.mp hletters k List.mem_cons_self
  refine ⟨?_, ?_, hescaped, ?_⟩
  · exact List.forall_mem_append.mpr ⟨isEol_of_isKept fun c hc => (halpha c hc).1,
      List.forall_mem_cons.mpr ⟨rfl, hends⟩⟩
  · exact isComment_cons (halpha k List.mem_cons_self).2 (fun heq => by rw [heq] at hk; cases hk)
      (fun heq => by rw [heq] at hk; cases hk) _
  · have hvalue : value ≠ [] := by
      rintro rfl
      cases hdropped
    have hline : strip (k :: rest ++ '=' :: value) = k :: (rest ++ '=' :: value) := by
      refine strip_eq_self (fun c hc => ?_) fun c hc => ?_
      · obtain rfl : k = c := Option.some.inj hc
        exact (halpha k List.mem_cons_self).2
      · rw [List.getLast?_append, List.getLast?_cons, List.getLast?_eq_some_getLast hvalue] at hc
        exact hlast c ((List.getLast?_eq_some_getLast hvalue).trans hc)
    rw [item, hline]
    exact if_pos (by rw [List.any_cons, List.any_append, List.any_cons, hdropped]; simp)

theorem items_unlines {lines : List Text} (h : ∀ line ∈ lines, ∀ c ∈ line, isEol c = false) :
    items (unlines lines) = (joinLines none lines).filterMap item := by
  rw [items, lines_unlines h]

section
variable {lines : List Text} {is : List (Option Item)} (h : List.Forall₂ Reads lines is)
include h

theorem isEol_of_reads : ∀ line ∈ lines, ∀ c ∈ line, isEol c = false := by
  induction h with
  | nil => exact fun line hline => absurd hline List.not_mem_nil
  | cons hread _ ih => exact List.forall_mem_cons.mpr ⟨hread.ends, ih⟩

theorem filterMap_of_reads : (joinLines none lines).filterMap item = is.filterMap id := by
  induction h with
  | nil => rfl
  | cons hread _ ih =>
    rw [joinLines_cons hread.comment hread.escaped, List.filterMap_cons, List.filterMap_cons,
      hread.item, ih]
    rfl

theorem items_of_reads : items (unlines lines) = is.filterMap id := by
  rw [items_unlines (isEol_of_reads h), filterMap_of_reads h]

/-- The second line goes on with the third. -/
theorem items_pair {first line next : Text} {i j : Option Item} (hfirst : Reads first i)
    (hends : ∀ c ∈ line, isEol c = false) (hcomment : isComment line = false)
    (hescaped : isEscaped line = true) (hnext : Reads next j)
    (hwhole : isEscaped (line.dropLast ++ [' '] ++ next) = false) :
    items (unlines (first :: line :: next :: lines)) =
      (i :: item (line.dropLast ++ [' '] ++ next) :: is).filterMap id := by
  have hall : ∀ l ∈ first :: line :: next :: lines, ∀ c ∈ l, isEol c = false := by
    rw [List.forall_mem_cons, List.forall_mem_cons, List.forall_mem_cons]
    exact ⟨hfirst.ends, hends, hnext.ends, isEol_of_reads h⟩
  rw [items_unlines hall, joinLines_cons hfirst.comment hfirst.escaped,
    joinLines_pair hcomment hescaped hnext.comment hwhole, List.filterMap_cons, List.filterMap_cons,
    filterMap_of_reads h, hfirst.item, List.filterMap_cons, List.filterMap_cons]
  rfl

end

/-! ## Specifiers -/

variable (resolve : Char → Option Text)

def escapeSpecifiers (value : Text) : Text := value.flatMap fun c => if c = '%' then ['%', '%'] else [c]

theorem expand_cons {c : Char} (hc : c ≠ '%') (rest : Text) :
    expand resolve (c :: rest) = c :: expand resolve rest := by
  cases rest with
  | nil => rfl
  | cons d rest => simp [expand, hc]

theorem expand_escapeSpecifiers (value : Text) : expand resolve (escapeSpecifiers value) = value := by
  induction value with
  | nil => rfl
  | cons c value ih =>
    by_cases hc : c = '%'
    · have hcons : escapeSpecifiers (c :: value) = '%' :: '%' :: escapeSpecifiers value := by
        simp [escapeSpecifiers, hc]
      rw [hcons, expand, if_neg (by simp), if_pos rfl, ih, hc]
    · have hcons : escapeSpecifiers (c :: value) = c :: escapeSpecifiers value := by
        simp [escapeSpecifiers, hc]
      rw [hcons, expand_cons resolve hc, ih]

theorem expand_append {before : Text} (hbefore : '%' ∉ before) (rest : Text) :
    expand resolve (before ++ rest) = before ++ expand resolve rest := by
  induction before with
  | nil => rfl
  | cons c before ih =>
    obtain ⟨hc, hbefore⟩ := not_or.mp (mt List.mem_cons.mpr hbefore)
    rw [List.cons_append, expand_cons resolve (Ne.symm hc), ih hbefore, List.cons_append]

theorem expand_eq_self {value : Text} (h : '%' ∉ value) : expand resolve value = value := by
  have happend := expand_append resolve h []
  rwa [List.append_nil, expand, List.append_nil] at happend

/-- Specifiers are escaped without a change to the backslashes at the end. -/
theorem isEscaped_escapeSpecifiers {before : Text} {last : Char} (hlast : before.getLast? = some last)
    (hslash : last ≠ '\\') (value : Text) :
    isEscaped (before ++ escapeSpecifiers value) = isEscaped value := by
  have htake : (before ++ escapeSpecifiers value).rtakeWhile (· = '\\') =
      value.rtakeWhile (· = '\\') := by
    induction value using List.reverseRecOn with
    | nil =>
      obtain ⟨start, rfl⟩ := List.getLast?_eq_some_iff.mp hlast
      rw [escapeSpecifiers, List.flatMap_nil, List.append_nil,
        List.rtakeWhile_concat_neg _ _ _ (by simpa using hslash)]
      rfl
    | append_singleton value c ih =>
      have happend : escapeSpecifiers (value ++ [c]) =
          escapeSpecifiers value ++ if c = '%' then ['%', '%'] else [c] := by
        simp [escapeSpecifiers]
      rw [happend]
      by_cases hc : c = '\\'
      · rw [if_neg (by simp [hc]), ← List.append_assoc,
          List.rtakeWhile_concat_pos _ _ _ (by simp [hc]), ih,
          List.rtakeWhile_concat_pos _ _ _ (by simp [hc])]
      · rw [List.rtakeWhile_concat_neg _ _ _ (by simpa using hc)]
        split
        · have hend : before ++ (escapeSpecifiers value ++ ['%', '%']) =
              before ++ (escapeSpecifiers value ++ ['%']) ++ ['%'] := by simp
          rw [hend, List.rtakeWhile_concat_neg _ _ _ (by decide)]
        · rw [← List.append_assoc, List.rtakeWhile_concat_neg _ _ _ (by simpa using hc)]
  rw [isEscaped, isEscaped, htake]

theorem getLast?_escapeSpecifiers (value : Text) :
    (escapeSpecifiers value).getLast? = value.getLast? := by
  induction value using List.reverseRecOn with
  | nil => rfl
  | append_singleton value c ih =>
    simp only [escapeSpecifiers, List.flatMap_append, List.flatMap_singleton]
    split <;> simp_all

/-! ## Words between quotes -/

def escapeQuoted (word : Text) : Text :=
  word.flatMap fun c => if c = '\\' ∨ c = '"' then ['\\', c] else [c]

def quoted (word : Text) : Text := '"' :: escapeQuoted word ++ ['"']

theorem words_escapeQuoted (word current rest : Text) :
    words (some current) (some '"') (escapeQuoted word ++ '"' :: rest) =
      words (some (current ++ word)) none rest := by
  induction word generalizing current with
  | nil =>
    rw [escapeQuoted, List.flatMap_nil, List.nil_append, List.append_nil, words]
    · simp
    · simp
  | cons c word ih =>
    have hcons : escapeQuoted (c :: word) =
        (if c = '\\' ∨ c = '"' then ['\\', c] else [c]) ++ escapeQuoted word := rfl
    have hword : current ++ c :: word = current ++ [c] ++ word := by simp
    rw [hcons, hword, ← ih]
    split
    · rename_i hc
      rcases hc with rfl | rfl <;> simp [words, unescape]
    · rename_i hc
      obtain ⟨hslash, hquote⟩ := not_or.mp hc
      rw [List.cons_append, List.nil_append, List.cons_append, words]
      · simp [hslash, Ne.symm hquote]
      · exact fun d _ h => absurd h hslash

/-- Quoted words with a space between them. -/
def commandLine (words : List Text) : Text := [' '].intercalate (words.map quoted)

theorem words_quoted (word after : Text) :
    words none none (quoted word ++ after) = words (some word) none after := by
  rw [quoted, List.cons_append, List.cons_append, List.append_assoc, List.singleton_append, words]
  · simpa [isWhitespace] using words_escapeQuoted word [] after
  · exact fun d _ h => absurd h (by decide)

theorem commandLine_cons (word next : Text) (rest : List Text) :
    commandLine (word :: next :: rest) = quoted word ++ ' ' :: commandLine (next :: rest) := by
  rw [commandLine, List.map_cons, List.intercalate_cons_of_ne_nil (by simp)]
  simp [commandLine]

theorem words_commandLine (word : Text) (rest : List Text) :
    words none none (commandLine (word :: rest)) = some (word :: rest) := by
  induction rest generalizing word with
  | nil =>
    have hline : commandLine [word] = quoted word ++ [] := by simp [commandLine]
    rw [hline, words_quoted]
    rfl
  | cons next rest ih =>
    rw [commandLine_cons, words_quoted, words]
    · simp [isWhitespace, ih]
    · exact fun d _ h => absurd h (by decide)

theorem head?_commandLine (word : Text) (rest : List Text) :
    (commandLine (word :: rest)).head? = some '"' := by
  cases rest with
  | nil => simp [commandLine, quoted]
  | cons next rest => simp [commandLine_cons, quoted]

theorem getLast?_commandLine (word : Text) (rest : List Text) :
    (commandLine (word :: rest)).getLast? = some '"' := by
  induction rest generalizing word with
  | nil =>
    have hline : commandLine [word] = quoted word := by simp [commandLine]
    rw [hline]
    exact List.getLast?_concat
  | cons next rest ih =>
    rw [commandLine_cons, ← List.singleton_append, ← List.append_assoc, List.getLast?_append, ih next,
      Option.some_or]

theorem isKept_quoted {word : Text} (h : ∀ c ∈ word, isKept c = true) :
    ∀ c ∈ quoted word, isKept c = true := by
  intro c hc
  rw [quoted, List.cons_append, List.mem_cons, List.mem_append, List.mem_singleton] at hc
  rcases hc with rfl | hc | rfl
  · rfl
  · obtain ⟨d, hd, hmem⟩ := List.mem_flatMap.mp hc
    split at hmem
    · simp only [List.mem_cons, List.not_mem_nil, or_false] at hmem
      rcases hmem with rfl | rfl
      · rfl
      · exact h _ hd
    · exact List.mem_singleton.mp hmem ▸ h d hd
  · rfl

theorem isKept_commandLine {ws : List Text} (h : ∀ w ∈ ws, ∀ c ∈ w, isKept c = true) :
    ∀ c ∈ commandLine ws, isKept c = true := by
  induction ws with
  | nil => exact fun c hc => absurd hc List.not_mem_nil
  | cons word rest ih =>
    rw [List.forall_mem_cons] at h
    cases rest with
    | nil =>
      have hline : commandLine [word] = quoted word := by simp [commandLine]
      rw [hline]
      exact isKept_quoted h.1
    | cons next rest =>
      rw [commandLine_cons, List.forall_mem_append, List.forall_mem_cons]
      exact ⟨isKept_quoted h.1, rfl, ih h.2⟩

theorem argv_commandLine {word : Text} {rest : List Text} (h : ∀ w ∈ word :: rest, '%' ∉ w) :
    argv resolve (commandLine (word :: rest)) = some (word :: rest) := by
  rw [argv, words_commandLine, Option.map_some, Option.some.injEq]
  exact List.map_congr_left (fun w hw => expand_eq_self resolve (h w hw)) |>.trans (List.map_id _)

/-! ## The null character -/

theorem not_isEol_of_mem_readLines {line text read : Text} {ends : List Char}
    (hread : ∀ c ∈ read, isEol c = false) (h : line ∈ readLines read ends text) :
    ∀ c ∈ line, isEol c = false := by
  induction text generalizing read ends with
  | nil =>
    rw [readLines] at h
    split at h
    · cases h
    · rwa [List.mem_singleton.mp h]
  | cons c text ih =>
    rw [readLines] at h
    split at h
    · split at h
      · rcases List.mem_cons.mp h with rfl | h
        · exact hread
        · exact ih (fun d hd => absurd hd List.not_mem_nil) h
      · exact ih hread h
    · rename_i hc
      rw [Bool.not_eq_true] at hc
      split at h
      · rcases List.mem_cons.mp h with rfl | h
        · exact hread
        · exact ih (by simpa using hc) h
      · refine ih (fun d hd => ?_) h
        rcases List.mem_append.mp hd with hd | hd
        · exact hread d hd
        · rwa [List.mem_singleton.mp hd]

theorem forall_of_mem_joinLines {P : Char → Prop} (hspace : P ' ') {pending : Option Text}
    {lines : List Text} (hpending : ∀ l, pending = some l → ∀ c ∈ l, P c)
    (hlines : ∀ l ∈ lines, ∀ c ∈ l, P c) {line : Text} (h : line ∈ joinLines pending lines) :
    ∀ c ∈ line, P c := by
  induction lines generalizing pending with
  | nil => exact hpending line (Option.mem_toList.mp h)
  | cons l lines ih =>
    rw [List.forall_mem_cons] at hlines
    have hwhole : ∀ c ∈ pending.getD [] ++ l, P c := by
      intro c hc
      rcases List.mem_append.mp hc with hc | hc
      · cases hp : pending with
        | none => simp [hp] at hc
        | some p => exact hpending p hp c (by simpa [hp] using hc)
      · exact hlines.1 c hc
    rw [joinLines] at h
    split at h
    · exact ih hpending hlines.2 h
    · dsimp only at h
      split at h
      · refine ih (fun p hp c hc => ?_) hlines.2 h
        rw [← Option.some.inj hp] at hc
        rcases List.mem_append.mp hc with hc | hc
        · exact hwhole c (List.dropLast_subset _ hc)
        · rwa [List.mem_singleton.mp hc]
      · rcases List.mem_cons.mp h with rfl | h
        · exact hwhole
        · exact ih (fun p hp => absurd hp (Option.some_ne_none p).symm) hlines.2 h

theorem mem_of_mem_strip {c : Char} {l : Text} (h : c ∈ strip l) : c ∈ l :=
  (List.dropWhile_sublist _).subset ((List.rdropWhile_prefix _ _).subset h)

theorem mem_of_item {line key value : Text} (h : item line = some (.assignment key value)) {c : Char}
    (hc : c ∈ value) : c ∈ line := by
  unfold item at h
  split at h
  · cases h
  · rename_i first rest hstrip
    obtain ⟨-, h⟩ := Option.ite_none_left_eq_some.mp h
    split at h
    · split at h <;> cases h
    · split at h
      · cases h
      · simp only [Option.some.injEq, Item.assignment.injEq] at h
        obtain ⟨-, rfl⟩ := h
        refine mem_of_mem_strip (hstrip ▸ ?_)
        exact (List.dropWhile_sublist _).subset (List.mem_of_mem_tail (mem_of_mem_strip hc))

/-- No value has an end of line in it. -/
theorem not_isEol_of_mem_items {text key value : Text} (h : .assignment key value ∈ items text) :
    ∀ c ∈ value, isEol c = false := by
  obtain ⟨line, hline, hitem⟩ := List.mem_filterMap.mp h
  have hall : ∀ c ∈ line, isEol c = false :=
    forall_of_mem_joinLines (P := fun c => isEol c = false) rfl
      (fun p hp => absurd hp (Option.some_ne_none p).symm)
      (fun l hl => not_isEol_of_mem_readLines (fun c hc => absurd hc List.not_mem_nil) hl) hline
  exact fun c hc => hall c (mem_of_item hitem hc)

theorem not_mem_expand {c : Char} (hresolve : ∀ d value, resolve d = some value → c ∉ value)
    {value : Text} (h : c ∉ value) : c ∉ expand resolve value := by
  induction value using expand.induct resolve with
  | case1 => exact h
  | case2 => exact h
  | case3 d e rest hd ih =>
    rw [expand, if_pos hd, List.mem_cons, not_or]
    exact ⟨fun heq => h (heq ▸ List.mem_cons_self), ih fun hmem => h (List.mem_cons_of_mem _ hmem)⟩
  | case4 d rest hd ih =>
    rw [not_not] at hd
    rw [expand, if_neg (by simp [hd]), if_pos rfl, List.mem_cons, not_or]
    exact ⟨fun heq => h (by simp [heq]), ih fun hmem =>
      h (List.mem_cons_of_mem _ (List.mem_cons_of_mem _ hmem))⟩
  | case5 d e rest hd he value hvalue ih =>
    rw [expand, if_neg hd, if_neg he, hvalue]
    simp only [List.mem_append, not_or]
    exact ⟨hresolve _ _ hvalue, ih fun hmem => h (List.mem_cons_of_mem _ (List.mem_cons_of_mem _ hmem))⟩
  | case6 d e rest hd he hvalue ih =>
    rw [expand, if_neg hd, if_neg he, hvalue]
    simp only [List.mem_cons, not_or] at h ⊢
    exact ⟨h.1, h.2.1, ih h.2.2⟩

end LukePanel.Library.UnitFile
