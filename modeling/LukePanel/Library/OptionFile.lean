import LukePanel.Library.GoStrings
import LukePanel.Library.Words

/-! # Option files as Python's `configparser` reads them

Sections of options. A value goes on on the lines that are indented deeper than its own, and ends at a
semicolon behind white space. The lines are those of a text whose only line ends are newlines, or carriage
returns before them. -/
namespace LukePanel.Library.OptionFile
open LukePanel.Library.GoStrings

/-! ## Lines -/

/-- What stands before a comment; `blank` at the start of a line and behind white space. -/
def uncommented (blank : Bool) : List Char → List Char
  | [] => []
  | c :: rest => if blank ∧ c = ';' then [] else c :: uncommented (isSpace c) rest

def isComment (line : String) : Bool := (trimSpace line).toList.head?.any (· ∈ ['#', ';'])

def content (line : String) : String :=
  if isComment line then "" else trimSpace (String.ofList (uncommented true line.toList))

def indent (line : String) : ℕ := (line.toList.takeWhile isSpace).length

/-- What stands between the bracket at the start and the last one. -/
def header (content : String) : Option String :=
  match content.toList with
  | '[' :: rest =>
    let name := (rest.rdropWhile (· ≠ ']')).dropLast
    if name = [] then none else some (String.ofList name)
  | _ => none

def isDelimiter (c : Char) : Bool := c ∈ ['=', ':']

def assignment (content : String) : Option (String × String) :=
  match content.toList.dropWhile (!isDelimiter ·) with
  | [] => none
  | _ :: value =>
    let key := (content.toList.takeWhile (!isDelimiter ·)).rdropWhile isSpace
    if key = [] then none
    else some (String.ofList (key.map Char.toLower), trimSpace (String.ofList value))

/-! ## Files -/

/-- An option with the lines of its value. -/
structure Entry where
  sectionName : String
  key : String
  value : List String

/-- The sections so far, the options, the last one first, and whether its value may go on. -/
structure Reader where
  sections : List String
  entries : List Entry
  place : Option String
  current : Bool
  level : ℕ

def Reader.start : Reader := ⟨[], [], none, false, 0⟩

def Entry.extend (text : String) (e : Entry) : Entry := { e with value := e.value ++ [text] }

def Reader.extend (text : String) (r : Reader) : Reader :=
  { r with entries := r.entries.modifyHead (Entry.extend text) }

def Entry.IsFor (name key : String) (e : Entry) : Prop := e.sectionName = name ∧ e.key = key

instance (name key : String) (e : Entry) : Decidable (e.IsFor name key) :=
  inferInstanceAs (Decidable (_ ∧ _))

def Reader.enter (r : Reader) (line name : String) : Option Reader :=
  if name ∈ r.sections ∧ name ≠ "DEFAULT" then none
  else
    some { r with
      sections := name :: r.sections, place := some name, current := false, level := indent line }

def Reader.assign (r : Reader) (line name key value : String) : Option Reader :=
  if ∃ e ∈ r.entries, e.IsFor name key then none
  else some { r with entries := ⟨name, key, [value]⟩ :: r.entries, current := true, level := indent line }

/-- A section or an option that is there twice is an error, and so is any other line. -/
def step (r : Reader) (line : String) : Option Reader :=
  if content line = "" then some (if isComment line = false ∧ r.current then r.extend "" else r)
  else if r.current ∧ r.level < indent line then some (r.extend (content line))
  else
    match header (content line), r.place, assignment (content line) with
    | some name, _, _ => r.enter line name
    | none, some name, some (key, value) => r.assign line name key value
    | none, _, _ => none

def run (r : Reader) : List String → Option Reader
  | [] => some r
  | line :: rest => (step r line).bind fun r => run r rest

def Reader.value (r : Reader) (name key : String) : Option (List String) :=
  (r.entries.find? fun e => e.IsFor name key).map (·.value)

theorem run_append (r : Reader) (before after : List String) :
    run r (before ++ after) = (run r before).bind fun r => run r after := by
  induction before generalizing r with
  | nil => rfl
  | cons line before ih =>
    rw [List.cons_append, run, run, Option.bind_assoc]
    exact Option.bind_congr fun s _ => ih s

/-! ## An option on its line -/

/-- A line that sets an option to a value, and is not indented. -/
structure Sets (line key value : String) : Prop where
  content_ne : content line ≠ ""
  header_eq : header (content line) = none
  assignment_eq : assignment (content line) = some (key, value)
  indent_eq : indent line = 0

theorem step_sets {r : Reader} {line key value : String} (h : Sets line key value) :
    step r line = r.place.bind fun name => r.assign line name key value := by
  have hindent : ¬ (r.current = true ∧ r.level < indent line) := fun hdeeper => by
    rw [h.indent_eq] at hdeeper
    exact Nat.not_lt_zero _ hdeeper.2
  rw [step, if_neg h.content_ne, if_neg hindent, h.header_eq, h.assignment_eq]
  cases r.place with
  | none => rfl
  | some name => rfl

section
variable {l before rest : List Char} {blank : Bool} {c : Char}

theorem uncommented_append_cons (hbefore : ';' ∉ before) (hc : c ≠ ';') :
    uncommented blank (before ++ c :: rest) = before ++ c :: uncommented (isSpace c) rest := by
  induction before generalizing blank with
  | nil => rw [List.nil_append, List.nil_append, uncommented, if_neg fun h => hc h.2]
  | cons d before ih =>
    rw [List.mem_cons, not_or] at hbefore
    rw [List.cons_append, uncommented, if_neg fun h => hbefore.1 h.2.symm, ih hbefore.2, List.cons_append]

/-- A comment that is cut off stands at the start or behind white space. -/
theorem exists_of_uncommented_ne (h : uncommented blank l ≠ l) : ∃ before after, l = before ++ ';' :: after ∧
    (before = [] → blank = true) ∧ ∀ c, before.getLast? = some c → isSpace c = true := by
  induction l generalizing blank with
  | nil => exact absurd rfl h
  | cons d l ih =>
    rw [uncommented] at h
    by_cases hd : blank = true ∧ d = ';'
    · obtain ⟨hblank, rfl⟩ := hd
      exact ⟨[], l, rfl, fun _ => hblank, nofun⟩
    · rw [if_neg hd] at h
      obtain ⟨before, after, rfl, hempty, hlast⟩ := ih fun heq => h (congrArg (d :: ·) heq)
      refine ⟨d :: before, after, rfl, nofun, fun c hc => ?_⟩
      rw [List.getLast?_cons] at hc
      cases hbefore : before.getLast? with
      | none =>
        rw [hbefore] at hc
        obtain rfl : d = c := Option.some.inj hc
        exact hempty (List.getLast?_eq_none_iff.mp hbefore)
      | some e =>
        rw [hbefore] at hc
        obtain rfl : e = c := Option.some.inj hc
        exact hlast e hbefore

theorem uncommented_eq_self (h : ∀ word ∈ Words.words isSpace l, word.head? ≠ some ';') :
    uncommented false l = l := by
  by_contra hne
  obtain ⟨before, after, rfl, hempty, hlast⟩ := exists_of_uncommented_ne hne
  rcases List.eq_nil_or_concat before with rfl | ⟨init, c, rfl⟩
  · cases hempty rfl
  · have hspace : isSpace c = true := hlast c (by simp)
    have hsemicolon : isSpace ';' = false := by decide
    obtain ⟨word, hword, hhead⟩ := Words.exists_mem_words_cons hsemicolon after
    refine h word ?_ hhead
    rw [List.concat_eq_append, List.append_assoc, List.singleton_append, Words.words_append_cons _ hspace]
    exact List.mem_append_right _ hword

theorem rdropWhile_append_cons {p : Char → Bool} (hc : p c = false) :
    (before ++ c :: rest).rdropWhile p = before ++ c :: rest.rdropWhile p := by
  induction rest using List.reverseRecOn with
  | nil => rw [List.rdropWhile_concat_neg _ _ _ (by simp [hc]), List.rdropWhile_nil]
  | append_singleton rest d ih =>
    rw [← List.cons_append, ← List.append_assoc, List.rdropWhile_concat, List.rdropWhile_concat, ih]
    split
    · rfl
    · rw [List.append_assoc, List.cons_append]

end

/-- A name in its plain spelling. -/
structure IsKey (key : String) : Prop where
  first : ∃ c rest, key.toList = c :: rest ∧ c ∉ ['[', '#', ';']
  chars : ∀ c ∈ key.toList, isSpace c = false ∧ isDelimiter c = false ∧ c ≠ ';' ∧ c.toLower = c

/-- The line of an option: its name and, behind an equals sign, the value. -/
def optionLine (key blank value : String) : String := key ++ blank ++ "=" ++ value

section
variable {key blank value : String}

theorem toList_optionLine :
    (optionLine key blank value).toList = (key.toList ++ blank.toList) ++ '=' :: value.toList := by
  simp [optionLine]

theorem trimSpace_optionLine (hkey : IsKey key) : (trimSpace (optionLine key blank value)).toList =
    (key.toList ++ blank.toList) ++ '=' :: value.toList.rdropWhile isSpace := by
  obtain ⟨c, rest, hfirst, -⟩ := hkey.first
  have hc : ¬ isSpace c = true := by simp [(hkey.chars c (by rw [hfirst]; exact List.mem_cons_self)).1]
  rw [toList_trimSpace, toList_optionLine, hfirst, List.cons_append, List.cons_append,
    List.dropWhile_cons_of_neg hc, ← List.cons_append, ← List.cons_append,
    rdropWhile_append_cons (by decide)]

/-- The value ends where the line does if none of its words opens a comment. -/
theorem content_optionLine (hkey : IsKey key) (hblank : ∀ c ∈ blank.toList, isSpace c = true)
    (hvalue : ∀ word ∈ fields value, word.toList.head? ≠ some ';') :
    content (optionLine key blank value) = trimSpace (optionLine key blank value) := by
  obtain ⟨c, rest, hfirst, hc⟩ := hkey.first
  have hcomment : isComment (optionLine key blank value) = false := by
    rw [isComment, trimSpace_optionLine hkey, hfirst]
    simp only [List.mem_cons, List.not_mem_nil, or_false, not_or] at hc
    simp [hc.2]
  have hbefore : ';' ∉ key.toList ++ blank.toList := by
    rw [List.mem_append, not_or]
    exact ⟨fun hmem => (hkey.chars _ hmem).2.2.1 rfl, fun hmem => absurd (hblank _ hmem) (by decide)⟩
  have hrest : uncommented false value.toList = value.toList := by
    refine uncommented_eq_self fun word hword => ?_
    have hhead := hvalue (String.ofList word) (List.mem_map_of_mem hword)
    rwa [String.toList_ofList] at hhead
  have huncommented : uncommented true (optionLine key blank value).toList =
      (optionLine key blank value).toList := by
    rw [toList_optionLine, uncommented_append_cons hbefore (by decide)]
    exact congrArg (fun l => (key.toList ++ blank.toList) ++ '=' :: l) hrest
  rw [content, hcomment, if_neg Bool.false_ne_true, huncommented, String.ofList_toList]

theorem fields_trimSpace (s : String) : fields (trimSpace s) = fields s := by
  obtain ⟨before, after, heq, hbefore, hafter⟩ := trimSpace_parts s
  have hwords : Words.words isSpace s.toList = Words.words isSpace (trimSpace s).toList := by
    rw [heq, Words.words_append_right _ hafter, Words.words_append_left hbefore]
  exact (congrArg (List.map String.ofList) hwords).symm

theorem fields_rdropWhile (l : List Char) :
    fields (String.ofList (l.rdropWhile isSpace)) = fields (String.ofList l) := by
  have hwords : Words.words isSpace (l.rdropWhile isSpace) = Words.words isSpace l := by
    conv_rhs => rw [← List.rdropWhile_append_rtakeWhile (p := isSpace) (l := l)]
    exact (Words.words_append_right _ fun c hc => List.mem_rtakeWhile_imp hc).symm
  unfold fields
  rw [String.toList_ofList, String.toList_ofList]
  exact congrArg (List.map String.ofList) hwords

/-- The line sets the option to the words behind the equals sign. -/
theorem sets_optionLine (hkey : IsKey key) (hblank : ∀ c ∈ blank.toList, isSpace c = true)
    (hvalue : ∀ word ∈ fields value, word.toList.head? ≠ some ';') :
    ∃ text, Sets (optionLine key blank value) key text ∧ fields text = fields value := by
  obtain ⟨c, rest, hfirst, hc⟩ := hkey.first
  have hcontent := content_optionLine hkey hblank hvalue
  have htext := @trimSpace_optionLine key blank value hkey
  have hname : ∀ c ∈ key.toList ++ blank.toList, (!isDelimiter c) = true := by
    intro d hd
    rcases List.mem_append.mp hd with hd | hd
    · rw [(hkey.chars d hd).2.1]
      rfl
    · have hspace := hblank d hd
      rw [Bool.not_eq_true', isDelimiter, decide_eq_false_iff_not]
      intro hmem
      rcases List.mem_cons.mp hmem with rfl | hmem
      · exact absurd hspace (by decide)
      · obtain rfl := List.mem_singleton.mp hmem
        exact absurd hspace (by decide)
  have hstrip : (key.toList ++ blank.toList).rdropWhile isSpace = key.toList := by
    have hlast : key.toList.rdropWhile isSpace = key.toList :=
      List.rdropWhile_eq_self_iff.mpr fun hne => by
        rw [(hkey.chars _ (List.getLast_mem hne)).1]
        exact Bool.false_ne_true
    rw [List.rdropWhile, List.reverse_append, List.dropWhile_append_of_pos (by simpa using hblank)]
    exact hlast
  have hlower : key.toList.map Char.toLower = key.toList :=
    (List.map_congr_left fun d hd => (hkey.chars d hd).2.2.2).trans (List.map_id _)
  have hne : key.toList ≠ [] := by
    rw [hfirst]
    exact List.cons_ne_nil _ _
  refine ⟨trimSpace (String.ofList (value.toList.rdropWhile isSpace)), ⟨?_, ?_, ?_, ?_⟩, ?_⟩
  · rw [hcontent]
    intro hempty
    rw [hempty, hfirst] at htext
    cases htext
  · rw [hcontent, header, htext, hfirst]
    split
    · rename_i heq
      obtain rfl := (List.cons.inj heq).1
      exact absurd List.mem_cons_self hc
    · rfl
  · rw [hcontent, assignment, htext, List.dropWhile_append_of_pos hname,
      List.takeWhile_append_of_pos hname, List.dropWhile_cons_of_neg (by decide),
      List.takeWhile_cons_of_neg (by decide), List.append_nil, hstrip]
    dsimp only
    rw [if_neg hne, hlower, String.ofList_toList]
  · have hspace : ¬ isSpace c = true := by simp [(hkey.chars c (by rw [hfirst]; exact List.mem_cons_self)).1]
    rw [indent, toList_optionLine, hfirst, List.cons_append, List.cons_append,
      List.takeWhile_cons_of_neg hspace, List.length_nil]
  · rw [fields_trimSpace, fields_rdropWhile, String.ofList_toList]

end

/-! ## Another value for an option -/

/-- Two readers that differ in the first line of one value. -/
inductive Differ (name key value value' : String) : Reader → Reader → Prop
  | mk (sections : List String) (top : List Entry) (more : List String) (below : List Entry)
      (place : Option String) (current : Bool) (level : ℕ)
      (htop : ∀ e ∈ top, ¬ e.IsFor name key) :
      Differ name key value value'
        ⟨sections, top ++ ⟨name, key, value :: more⟩ :: below, place, current, level⟩
        ⟨sections, top ++ ⟨name, key, value' :: more⟩ :: below, place, current, level⟩

section
variable {name key value value' : String} {r r' s : Reader}

theorem Differ.extend (h : Differ name key value value' r r') (text : String) :
    Differ name key value value' (r.extend text) (r'.extend text) := by
  obtain ⟨sections, top, more, below, place, current, level, htop⟩ := h
  cases top with
  | nil => exact .mk sections [] (more ++ [text]) below place current level nofun
  | cons e top =>
    rw [List.forall_mem_cons] at htop
    exact .mk sections (e.extend text :: top) more below place current level
      (List.forall_mem_cons.mpr ⟨htop.1, htop.2⟩)

theorem Differ.enter (h : Differ name key value value' r r') {line place : String}
    (hstep : r.enter line place = some s) :
    ∃ s', r'.enter line place = some s' ∧ Differ name key value value' s s' := by
  obtain ⟨sections, top, more, below, old, current, level, htop⟩ := h
  unfold Reader.enter at hstep ⊢
  dsimp only at hstep ⊢
  split at hstep
  · cases hstep
  · rename_i hnew
    obtain rfl := Option.some.inj hstep
    rw [if_neg hnew]
    exact ⟨_, rfl, .mk _ top more below _ _ _ htop⟩

/-- An option that is there already cannot be set again. -/
theorem Differ.assign (h : Differ name key value value' r r') {line place other text : String}
    (hstep : r.assign line place other text = some s) :
    ∃ s', r'.assign line place other text = some s' ∧ Differ name key value value' s s' := by
  obtain ⟨sections, top, more, below, old, current, level, htop⟩ := h
  unfold Reader.assign at hstep ⊢
  dsimp only at hstep ⊢
  split at hstep
  · cases hstep
  · rename_i hnew
    obtain rfl := Option.some.inj hstep
    have hother : ¬ (⟨place, other, [text]⟩ : Entry).IsFor name key := by
      rintro ⟨hname, hkey⟩
      exact hnew ⟨⟨name, key, value :: more⟩, by simp, hname.symm, hkey.symm⟩
    have hnew' : ¬ ∃ e ∈ top ++ ⟨name, key, value' :: more⟩ :: below, e.IsFor place other := by
      rintro ⟨e, he, hfor⟩
      rcases List.mem_append.mp he with he | he
      · exact hnew ⟨e, by simp [he], hfor⟩
      · rcases List.mem_cons.mp he with rfl | he
        · exact hother ⟨hfor.1.symm, hfor.2.symm⟩
        · exact hnew ⟨e, by simp [he], hfor⟩
    rw [if_neg hnew']
    exact ⟨_, rfl, .mk sections (⟨place, other, [text]⟩ :: top) more below _ _ _
      (List.forall_mem_cons.mpr ⟨hother, htop⟩)⟩

theorem Differ.fields (h : Differ name key value value' r r') :
    r'.place = r.place ∧ r'.current = r.current ∧ r'.level = r.level := by
  obtain ⟨⟩ := h
  exact ⟨rfl, rfl, rfl⟩

theorem Differ.step (h : Differ name key value value' r r') {line : String}
    (hstep : OptionFile.step r line = some s) :
    ∃ s', OptionFile.step r' line = some s' ∧ Differ name key value value' s s' := by
  obtain ⟨hplace, hcurrent, hlevel⟩ := h.fields
  unfold OptionFile.step at hstep ⊢
  rw [hplace, hcurrent, hlevel]
  split at hstep
  · rename_i hempty
    obtain rfl := Option.some.inj hstep
    rw [if_pos hempty]
    split
    · exact ⟨_, rfl, h.extend ""⟩
    · exact ⟨_, rfl, h⟩
  · rename_i hempty
    rw [if_neg hempty]
    split at hstep
    · rename_i hdeeper
      obtain rfl := Option.some.inj hstep
      rw [if_pos hdeeper]
      exact ⟨_, rfl, h.extend _⟩
    · rename_i hdeeper
      rw [if_neg hdeeper]
      split at hstep
      · exact h.enter hstep
      · exact h.assign hstep
      · cases hstep

theorem Differ.run (h : Differ name key value value' r r') {lines : List String}
    (hrun : OptionFile.run r lines = some s) :
    ∃ s', OptionFile.run r' lines = some s' ∧ Differ name key value value' s s' := by
  induction lines generalizing r r' with
  | nil =>
    obtain rfl := Option.some.inj hrun
    exact ⟨r', rfl, h⟩
  | cons line lines ih =>
    obtain ⟨t, hstep, hrest⟩ := Option.bind_eq_some_iff.mp hrun
    obtain ⟨t', hstep', ht⟩ := h.step hstep
    obtain ⟨s', hrun', hs⟩ := ih ht hrest
    exact ⟨s', Option.bind_eq_some_iff.mpr ⟨t', hstep', hrun'⟩, hs⟩

theorem Differ.lookups (h : Differ name key value value' r r') :
    ∃ more, r.value name key = some (value :: more) ∧ r'.value name key = some (value' :: more) := by
  obtain ⟨sections, top, more, below, place, current, level, htop⟩ := h
  have hfind (e : Entry) (he : e.IsFor name key) :
      ((top ++ e :: below).find? fun e => e.IsFor name key) = some e := by
    rw [List.find?_append, List.find?_eq_none.mpr fun e' he' => by simpa using htop e' he', Option.none_or,
      List.find?_cons_of_pos (by simpa using he)]
  refine ⟨more, ?_, ?_⟩
  · rw [Reader.value, hfind _ ⟨rfl, rfl⟩]
    rfl
  · rw [Reader.value, hfind _ ⟨rfl, rfl⟩]
    rfl

/-- The line of an option is written over: the rest of its value stays. -/
theorem run_replace {before after : List String} {line line' : String} (hline : Sets line key value)
    (hline' : Sets line' key value') (hbefore : OptionFile.run .start before = some r)
    (hplace : r.place = some name) (hrun : OptionFile.run .start (before ++ line :: after) = some s) :
    ∃ s' more, OptionFile.run .start (before ++ line' :: after) = some s' ∧
      s.value name key = some (value :: more) ∧ s'.value name key = some (value' :: more) := by
  rw [run_append, hbefore, Option.bind_some] at hrun
  obtain ⟨t, hstep, hafter⟩ := Option.bind_eq_some_iff.mp hrun
  rw [step_sets hline, hplace, Option.bind_some, Reader.assign] at hstep
  split at hstep
  · cases hstep
  · rename_i hnew
    obtain rfl := Option.some.inj hstep
    have hdiffer : Differ name key value value'
        { r with entries := ⟨name, key, [value]⟩ :: r.entries, current := true, level := indent line }
        { r with entries := ⟨name, key, [value']⟩ :: r.entries, current := true, level := indent line' } := by
      rw [hline.indent_eq, hline'.indent_eq]
      exact .mk r.sections [] [] r.entries r.place true 0 nofun
    obtain ⟨s', hrun', hs⟩ := hdiffer.run hafter
    obtain ⟨more, hvalue, hvalue'⟩ := hs.lookups
    refine ⟨s', more, ?_, hvalue, hvalue'⟩
    rw [run_append, hbefore, Option.bind_some, OptionFile.run, step_sets hline', hplace, Option.bind_some,
      Reader.assign, if_neg hnew, Option.bind_some]
    exact hrun'

end

end LukePanel.Library.OptionFile
