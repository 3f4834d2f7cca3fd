import LukePanel.HostAdmin.Fail2ban
import LukePanel.Library.AddressZones
import LukePanel.Library.Coverage
import LukePanel.Library.OptionFile

/-! # Addresses that Fail2ban ignores

Fail2ban reads the option as Python's `configparser` does: it may go on on further lines, and comments end
its lines. The code edits the first line that begins with the option's name. -/
namespace LukePanel.HostAdmin.Fail2banIgnore
open LukePanel.Library LukePanel.Library.GoStrings LukePanel.Library.NetAddress
open LukePanel.Library.OptionFile LukePanel.Library.Coverage LukePanel.Library.Attempt LukePanel.Library.Attempt.Prog
open LukePanel.HostAdmin.Fail2ban

/-! ## An update that is right -/

/-- The addresses Fail2ban takes an entry for: those of an address or a network in any spelling the
Go library knows, and of whatever else it reads. -/
structure Reads (read : String → Set IP) : Prop where
  address : ∀ s ip, parseIP s = some ip → read s = {ip}
  network : ∀ s ip network, parseCIDR s = some (ip, network) → read s = {ip | network.contains ip = true}

/-- The lines of the option's value. -/
def ignoreValue (config : String) : Option (List String) :=
  (run .start (split '\n' config)).bind (·.value "sshd" "ignoreip")

/-- The words that Fail2ban reads. -/
def ignoreList (config : String) : Option (List String) :=
  (ignoreValue config).map (·.flatMap fields)

/-- Those on the lines behind the option's own one. -/
def continued (config : String) : List String :=
  (ignoreValue config).elim [] fun value => value.tail.flatMap fields

/-- The entries of a word, which commas may separate. -/
def parts (word : String) : List String := (Words.words (· = ',') word.toList).map String.ofList

/-- The sets of addresses that a word stands for. -/
def meaning (read : String → Set IP) (word : String) : Set (Set IP) := {A | ∃ part ∈ parts word, read part = A}

/-- The address of a client. -/
def clientAddr (protectedIP : String) : Option Addr := parseAddr (trimBrackets (trimSpace protectedIP))

/-- An ignore list before and after a successful update. -/
structure Updated (read : String → Set IP) (action entry protectedIP : String) (old new : List String) :
    Prop where
  sets : family (meaning read) new =
    (if action = "add" then insert (read entry) (family (meaning read) old)
      else family (meaning read) old \ {read entry}) ∪ family (meaning read) required
  outside : action = "remove" → ∀ ip ∈ covered (meaning read) old, ip ∉ read entry →
    ip ∈ covered (meaning read) new
  client : action = "remove" → ∀ addr, clientAddr protectedIP = some addr →
    addr.ip ∈ covered (meaning read) old → addr.ip ∈ covered (meaning read) new

/-- How an update ends: the list is updated, or, unless the write itself failed, the configuration is
as before. -/
structure Right (read : String → Set IP) (a : Answers) (entry action protectedIP original : String) :
    Prop where
  updated : ∀ file, updateFail2BanIgnore a entry action protectedIP (some original) = (.ok (), file) →
    ∃ config old new, file = some config ∧ ignoreList original = some old ∧
      ignoreList config = some new ∧ Updated read action (trimSpace entry) protectedIP old new
  restored : ∀ err file,
    updateFail2BanIgnore a entry action protectedIP (some original) = (.error err, file) →
      a.write = none → file = some original

/-- The update passes its checks; `e` is the entry as it is written, `line` the one that is edited. -/
structure Passes (entry action protectedIP original e line : String) : Prop where
  normal : normalizeIPOrCIDR entry = .ok e
  known : action = "add" ∨ action = "remove"
  allowed : action = "remove" → ipEntryContains e protectedIP = false
  found : (split '\n' original).find? isIgnoreLine = some line

/-- Fail2ban accepts the configuration and starts with it. -/
structure Starts (a : Answers) : Prop where
  test : a.test = none
  restart : a.restart = none

/-- The line that is edited is the one of the option: it is not indented, stands in the section of the
jail, and has no comment. Fail2ban reads the file, in which no return stands inside a line, no separator
is what only Python takes for space, and no word needs an interpolation. -/
structure Plain (original line : String) : Prop where
  option : ∃ blank value, line = optionLine "ignoreip" blank value ∧
    ∀ c ∈ blank.toList, isSpace c = true
  place : (run .start ((split '\n' original).takeWhile (!isIgnoreLine ·))).bind (·.place) = some "sshd"
  parsed : run .start (split '\n' original) ≠ none
  words : ∀ word ∈ fields (afterEquals line) ++ continued original,
    word.toList.head? ≠ some ';' ∧ word.toList.head? ≠ some '#' ∧ '%' ∉ word.toList
  returns : ∀ l ∈ split '\n' original, '\r' ∉ l.toList.dropLast
  separators : ∀ c ∈ original.toList, c.toNat < 28 ∨ 31 < c.toNat

/-- What Fail2ban reads but for the entry on the line that is edited. -/
def others (original e line : String) : List String :=
  (fields (afterEquals line)).filter (· ≠ e) ++ continued original

/-- An entry that is removed has no other spelling, and a client with a zone that it covers is covered by
what stays; what Fail2ban does not take is written back. -/
structure Sound (read : String → Set IP) (a : Answers) (action protectedIP original e line : String) :
    Prop where
  spelled : Starts a → action = "remove" → read e ∈ family (meaning read) required ∨
    read e ∉ family (meaning read) (others original e line)
  zoned : Starts a → action = "remove" → ∀ addr, clientAddr protectedIP = some addr →
    addr.zone ≠ "" → addr.ip ∈ read e →
    addr.ip ∈ covered (meaning read) (fields (afterEquals line) ++ continued original) →
    addr.ip ∈ covered (meaning read) (others original e line ++ required)
  rollback : ¬ Starts a → a.rollback = none ∨ a.rollback = some (some original)

/-! ## Entries -/

variable {read : String → Set IP} {a : Answers} {entry action protectedIP original e line word : String}

/-- An entry as it is written: one word without a comma or a semicolon. -/
structure Written (e : String) : Prop where
  nonempty : e ≠ ""
  space : ∀ c ∈ e.toList, isSpace c = false
  comma : ',' ∉ e.toList
  semicolon : ';' ∉ e.toList

theorem written_of_chars (hne : e ≠ "") (h : ∀ c ∈ e.toList, AddressChar c ∨ c = '/') : Written e where
  nonempty := hne
  space c hc := by
    rcases h c hc with hc | rfl
    · exact isSpace_of_addressChar hc
    · decide
  comma hmem := by
    rcases h ',' hmem with (hc | hc | hc) | hc
    · cases hc
    · cases hc
    · cases hc
    · cases hc
  semicolon hmem := by
    rcases h ';' hmem with (hc | hc | hc) | hc
    · cases hc
    · cases hc
    · cases hc
    · cases hc

theorem written_of_normalize (h : normalizeIPOrCIDR entry = .ok e) : Written e := by
  rw [normalizeIPOrCIDR] at h
  split at h
  · obtain rfl := Except.ok.inj h
    refine written_of_chars ?_ fun c hc => .inl (addressChar_of_mem_string hc)
    intro hempty
    have hread := parseIP_string (by assumption)
    rw [hempty] at hread
    cases hread
  · split at h
    · rename_i hcidr
      obtain rfl := Except.ok.inj h
      refine written_of_chars ?_ fun c hc => addressChar_of_mem_network hc
      intro hempty
      have hread := parseCIDR_string (masked_of_parseCIDR hcidr)
      rw [hempty] at hread
      cases hread
    · cases h

theorem written_required : ∀ word ∈ required, Written word := by
  have hchars : ∀ word ∈ required, word ≠ "" ∧ word.toList.all (fun c => !isSpace c) = true ∧
      ',' ∉ word.toList ∧ ';' ∉ word.toList := by decide
  intro word hword
  obtain ⟨hne, hspace, hcomma, hsemicolon⟩ := hchars word hword
  exact ⟨hne, fun c hc => by simpa using List.all_eq_true.mp hspace c hc, hcomma, hsemicolon⟩

theorem meaning_of_written (h : Written word) : meaning read word = {read word} := by
  have hne : word.toList ≠ [] := fun hnil => h.nonempty (String.toList_eq_nil_iff.mp hnil)
  have hparts : parts word = [word] := by
    rw [parts, Words.words_word hne fun c hc => decide_eq_false (ne_of_mem_of_not_mem hc h.comma)]
    simp
  ext A
  rw [Set.mem_singleton_iff, meaning, Set.mem_ofPred_eq, hparts]
  simp [eq_comm]

/-- The entry as it is written stands for the same addresses. -/
theorem read_of_normalize (hread : Reads read) (h : normalizeIPOrCIDR entry = .ok e) :
    read e = read (trimSpace entry) := by
  rw [normalizeIPOrCIDR] at h
  split at h
  · rename_i ip hip
    obtain rfl := Except.ok.inj h
    rw [hread.address _ _ (parseIP_string ip), hread.address _ _ hip]
  · split at h
    · rename_i addr network hcidr
      obtain rfl := Except.ok.inj h
      rw [hread.network _ _ _ (parseCIDR_string (masked_of_parseCIDR hcidr)),
        hread.network _ _ _ hcidr]
    · cases h

/-- A client that is not in the entry, as far as the check sees, is not in what it stands for. -/
theorem not_mem_of_ipEntryContains (hread : Reads read) (h : normalizeIPOrCIDR entry = .ok e)
    (hallowed : ipEntryContains e protectedIP = false) {addr : Addr}
    (haddr : clientAddr protectedIP = some addr) (hzone : addr.zone = "") : addr.ip ∉ read e := by
  have hclient := parseIP_of_parseAddr haddr hzone
  rw [ipEntryContains, hclient] at hallowed
  rw [normalizeIPOrCIDR] at h
  split at h
  · rename_i ip hip
    obtain rfl := Except.ok.inj h
    have he := parseIP_string ip
    rw [hread.address _ _ he]
    simp only [he, decide_eq_false_iff_not] at hallowed
    exact fun hmem => hallowed (Set.mem_singleton_iff.mp hmem).symm
  · split at h
    · rename_i addr' network hcidr
      obtain rfl := Except.ok.inj h
      have he := parseCIDR_string (masked_of_parseCIDR hcidr)
      have hnone := parseIP_of_parseCIDR he
      rw [hread.network _ _ _ he, Set.mem_ofPred_eq]
      simp only [hnone, he, Option.any_some] at hallowed
      rw [hallowed]
      exact Bool.false_ne_true
    · cases h

/-! ## The line -/

theorem fields_eq (s : String) : fields s = (Words.words isSpace s.toList).map String.ofList := rfl

theorem written_of_fields {s : String} (h : word ∈ fields s) :
    word ≠ "" ∧ ∀ c ∈ word.toList, isSpace c = false := by
  rw [fields_eq] at h
  obtain ⟨chars, hchars, rfl⟩ := List.mem_map.mp h
  rw [String.toList_ofList]
  refine ⟨fun hempty => Words.ne_nil_of_mem_words hchars ?_, fun c hc => Words.sep_of_mem_words hchars hc⟩
  have hnil := congrArg String.toList hempty
  rwa [String.toList_ofList] at hnil

theorem mem_cleanIPEntries {s : String} : word ∈ cleanIPEntries (fields s) ↔ word ∈ fields s := by
  have htrim : (fields s).map trimSpace = fields s := by
    refine (List.map_congr_left fun w hw => ?_).trans (List.map_id _)
    have hspace := (written_of_fields hw).2
    exact trimSpace_eq_self (fun c hc => hspace c (List.mem_of_head? hc))
      fun c hc => hspace c (List.mem_of_getLast? hc)
  rw [cleanIPEntries, List.mem_insertionSort, List.mem_dedup, List.mem_filter, htrim]
  simp only [decide_eq_true_eq, and_iff_left_iff_imp]
  exact fun hw => (written_of_fields hw).1

theorem mem_updatedEntries {s : String} :
    word ∈ updatedEntries action e (cleanIPEntries (fields s)) ↔
      (if action = "add" then word ∈ fields s ∨ word = e else word ∈ fields s ∧ word ≠ e) ∨
        word ∈ required := by
  rw [updatedEntries, List.mem_insertionSort, List.mem_dedup, List.mem_append]
  split
  · rw [List.mem_append, List.mem_singleton, mem_cleanIPEntries]
  · rw [List.mem_filter, mem_cleanIPEntries, decide_eq_true_eq]

/-- The words of the line that is written. -/
theorem fields_ignoreLine {words : List String} (hne : ∀ word ∈ words, word ≠ "")
    (h : ∀ word ∈ words, ∀ c ∈ word.toList, isSpace c = false) :
    fields (afterEquals (ignoreLine words)) = words := by
  have hafter : (afterEquals (ignoreLine words)).toList = ' ' :: (join ' ' words).toList := by
    rw [afterEquals, ignoreLine, String.toList_append, String.toList_ofList]
    rfl
  rw [fields_eq, hafter, Words.words_cons (by decide), join, String.toList_ofList,
    Words.words_intercalate _ _ (by decide)]
  · simp
  · intro piece hpiece
    obtain ⟨word, hword, rfl⟩ := List.mem_map.mp hpiece
    exact fun hnil => hne word hword (String.toList_eq_nil_iff.mp hnil)
  · intro piece hpiece
    obtain ⟨word, hword, rfl⟩ := List.mem_map.mp hpiece
    exact h word hword

/-! ## The file -/

theorem replaceFirst_eq {p : String → Bool} {lines : List String} (new : String)
    (h : lines.find? p = some line) : ∃ after, lines = lines.takeWhile (!p ·) ++ line :: after ∧
      replaceFirst p new lines = lines.takeWhile (!p ·) ++ new :: after := by
  induction lines with
  | nil => cases h
  | cons l lines ih =>
    rw [replaceFirst]
    cases hp : p l with
    | true =>
      rw [List.find?_cons_of_pos hp] at h
      obtain rfl := Option.some.inj h
      rw [List.takeWhile_cons_of_neg (by simp [hp])]
      exact ⟨lines, rfl, rfl⟩
    | false =>
      rw [List.find?_cons_of_neg (by simp [hp])] at h
      obtain ⟨after, hlines, hreplace⟩ := ih h
      rw [List.takeWhile_cons_of_pos (by simp [hp]), if_neg Bool.false_ne_true, hreplace]
      refine ⟨after, ?_, rfl⟩
      rw [List.cons_append, ← hlines]

/-- The configuration that is written. -/
def updatedConfig (action e original line : String) : String :=
  join '\n' (replaceFirst isIgnoreLine
    (ignoreLine (updatedEntries action e (cleanIPEntries (fields (afterEquals line)))))
    (split '\n' original))

theorem newline_ignoreLine {words : List String} (h : ∀ word ∈ words, ∀ c ∈ word.toList, isSpace c = false) :
    '\n' ∉ (ignoreLine words).toList := by
  rw [ignoreLine, String.toList_append, List.mem_append, join, String.toList_ofList]
  rintro (hmem | hmem)
  · revert hmem
    decide
  · rcases mem_join hmem with hc | ⟨word, hword, hc⟩
    · cases hc
    · exact absurd (h word hword _ hc) (by decide)

theorem isKey_ignoreip : IsKey "ignoreip" where
  first := ⟨'i', "gnoreip".toList, by decide, by decide⟩
  chars c hc := by
    have hall : ("ignoreip".toList.all fun c =>
        !isSpace c && !isDelimiter c && c != ';' && c.toLower == c) = true := by decide
    simpa [and_assoc] using List.all_eq_true.mp hall c hc

theorem isSpace_blank : ∀ c ∈ (" " : String).toList, isSpace c = true :=
  List.all_eq_true.mp (by decide : (" ".toList.all isSpace) = true)

theorem ignoreLine_eq (words : List String) :
    ignoreLine words = optionLine "ignoreip" " " (" " ++ join ' ' words) := by
  refine String.toList_injective ?_
  rw [toList_optionLine, ignoreLine, String.toList_append, String.toList_append]
  rfl

theorem afterEquals_optionLine {blank value : String} (h : ∀ c ∈ blank.toList, isSpace c = true) :
    afterEquals (optionLine "ignoreip" blank value) = value := by
  have hbefore : ∀ c ∈ "ignoreip".toList ++ blank.toList, decide (c ≠ '=') = true := by
    intro c hc
    rw [decide_eq_true_eq]
    rintro rfl
    rcases List.mem_append.mp hc with hc | hc
    · exact absurd hc (by decide)
    · exact absurd (h _ hc) (by decide)
  rw [afterEquals, toList_optionLine, List.dropWhile_append_of_pos hbefore,
    List.dropWhile_cons_of_neg (by decide), List.tail_cons, String.ofList_toList]

/-- The words that are written. -/
theorem written_updatedEntries (he : Written e) :
    ∀ word ∈ updatedEntries action e (cleanIPEntries (fields (afterEquals line))),
      (word ≠ "" ∧ ∀ c ∈ word.toList, isSpace c = false) ∧
      (word ∈ fields (afterEquals line) ∨ ';' ∉ word.toList) := by
  intro word hword
  rcases mem_updatedEntries.mp hword with hmem | hmem
  · split at hmem
    · rcases hmem with hmem | rfl
      · exact ⟨written_of_fields hmem, .inl hmem⟩
      · exact ⟨⟨he.nonempty, he.space⟩, .inr he.semicolon⟩
    · exact ⟨written_of_fields hmem.1, .inl hmem.1⟩
  · have hwritten := written_required word hmem
    exact ⟨⟨hwritten.nonempty, hwritten.space⟩, .inr hwritten.semicolon⟩

/-- The line before and after sets the option to the words on it. -/
theorem sets_of_plain (hplain : Plain original line) (he : Written e) : ∃ old new,
    Sets line "ignoreip" old ∧ fields old = fields (afterEquals line) ∧
    Sets (ignoreLine (updatedEntries action e (cleanIPEntries (fields (afterEquals line)))))
      "ignoreip" new ∧
    fields new = updatedEntries action e (cleanIPEntries (fields (afterEquals line))) := by
  have hwords : ∀ word ∈ fields (afterEquals line), word.toList.head? ≠ some ';' := fun word hword =>
    (hplain.words word (List.mem_append_left _ hword)).1
  have hwritten := @written_updatedEntries action e line he
  have hnew := fields_ignoreLine (fun word hword => (hwritten word hword).1.1)
    fun word hword => (hwritten word hword).1.2
  rw [ignoreLine_eq, afterEquals_optionLine isSpace_blank] at hnew
  obtain ⟨blank, value, hline, hblank⟩ := hplain.option
  have hvalue : afterEquals line = value := by rw [hline, afterEquals_optionLine hblank]
  rw [hvalue] at hwords hwritten hnew ⊢
  obtain ⟨old, hold, holdWords⟩ := sets_optionLine isKey_ignoreip hblank hwords
  have hupdated : ∀ word ∈ fields (" " ++ join ' ' (updatedEntries action e (cleanIPEntries (fields value)))),
      word.toList.head? ≠ some ';' := by
    rw [hnew]
    intro word hword
    rcases (hwritten word hword).2 with hmem | hsemicolon
    · exact hwords word hmem
    · exact fun hhead => hsemicolon (List.mem_of_head? hhead)
  obtain ⟨new, hset, hnewWords⟩ := sets_optionLine isKey_ignoreip isSpace_blank hupdated
  rw [← hline] at hold
  rw [← ignoreLine_eq] at hset
  exact ⟨old, new, hold, holdWords, hset, hnewWords.trans hnew⟩

/-- The ignore list before and after: the words that are edited, and those that go on. -/
theorem ignoreLists_of_plain (hplain : Plain original line) (he : Written e)
    (hline : (split '\n' original).find? isIgnoreLine = some line) :
    ignoreList original = some (fields (afterEquals line) ++ continued original) ∧
    ignoreList (updatedConfig action e original line) =
      some (updatedEntries action e (cleanIPEntries (fields (afterEquals line))) ++
        continued original) := by
  obtain ⟨old, new, hold, holdWords, hset, hnewWords⟩ := @sets_of_plain action original e line hplain he
  have hnewline := newline_ignoreLine fun word hword =>
    ((@written_updatedEntries action e line he) word hword).1.2
  obtain ⟨after, hlines, hreplace⟩ := replaceFirst_eq
    (ignoreLine (updatedEntries action e (cleanIPEntries (fields (afterEquals line))))) hline
  obtain ⟨r, hbefore, hplace⟩ := Option.bind_eq_some_iff.mp hplain.place
  obtain ⟨s, hrun⟩ := Option.ne_none_iff_exists'.mp hplain.parsed
  have hsplit : split '\n' (updatedConfig action e original line) =
      (split '\n' original).takeWhile (!isIgnoreLine ·) ++
        ignoreLine (updatedEntries action e (cleanIPEntries (fields (afterEquals line)))) :: after := by
    rw [updatedConfig, hreplace]
    have hmem {l : String} (hl : l ∈ (split '\n' original).takeWhile (!isIgnoreLine ·) ∨ l ∈ after) :
        '\n' ∉ l.toList := by
      refine @sep_not_mem_of_mem_split _ original l ?_
      rw [hlines, List.mem_append, List.mem_cons]
      exact hl.imp_right .inr
    refine split_join (by simp) fun l hl => ?_
    rcases List.mem_append.mp hl with hl | hl
    · exact hmem (.inl hl)
    rcases List.mem_cons.mp hl with rfl | hl
    · exact hnewline
    · exact hmem (.inr hl)
  rw [hlines] at hrun
  obtain ⟨s', more, hrun', hvalue, hvalue'⟩ := run_replace hold hset hbefore hplace hrun
  have hbeforeValue : ignoreValue original = some (old :: more) := by
    rw [ignoreValue, hlines, hrun, Option.bind_some, hvalue]
  have hafterValue : ignoreValue (updatedConfig action e original line) = some (new :: more) := by
    rw [ignoreValue, hsplit, hrun', Option.bind_some, hvalue']
  have hcontinued : continued original = more.flatMap fields := by
    rw [continued, hbeforeValue]
    rfl
  rw [ignoreList, ignoreList, hbeforeValue, hafterValue, hcontinued, ← hnewWords, ← holdWords]
  exact ⟨rfl, rfl⟩

/-! ## How an update ends -/

/-- What is left when Fail2ban does not take the configuration. -/
theorem restartWith_of_not_starts (h : ¬ Starts a) (original : String) (file : Option String) :
    ∃ err, restartWith a original file = (.error err, a.rollback.getD (some original)) := by
  cases htest : a.test with
  | some output =>
    simp only [restartWith, htest]
    exact ⟨_, rfl⟩
  | none =>
    cases hrestart : a.restart with
    | some output =>
      simp only [restartWith, htest, hrestart]
      exact ⟨_, rfl⟩
    | none => exact absurd ⟨htest, hrestart⟩ h

theorem restartWith_of_starts (h : Starts a) (original : String) (file : Option String) :
    restartWith a original file = (.ok (), file) := by
  simp only [restartWith, h.test, h.restart]
  rfl

theorem run_readConfig {α : Type} (original : String) (k : String → Prog (Option String) String α) :
    (readConfig >>= k) (some original) = k original (some original) := rfl

/-- The configuration is written and Fail2ban restarted. -/
theorem update_of_passes (h : Passes entry action protectedIP original e line) :
    updateFail2BanIgnore a entry action protectedIP (some original) =
      andThen (writeConfig a.write (updatedConfig action e original line))
        (fun _ => restartWith a original) (some original) := by
  have hknown : ¬ (action ≠ "add" ∧ action ≠ "remove") := by
    rcases h.known with h | h <;> simp [h]
  have hallowed : ¬ (action = "remove" ∧ ipEntryContains e protectedIP = true) := by
    rintro ⟨haction, hcontains⟩
    cases hcontains.symm.trans (h.allowed haction)
  unfold updateFail2BanIgnore
  rw [run_read (fun _ => normalizeIPOrCIDR entry) h.normal, run_check hknown, run_check hallowed,
    run_readConfig]
  dsimp only
  rw [h.found, run_read (fun _ => Except.ok line) rfl]
  rfl

/-- What does not get there leaves the configuration. -/
theorem update_of_not_passes (h : ∀ e line, ¬ Passes entry action protectedIP original e line) :
    ∃ err, updateFail2BanIgnore a entry action protectedIP (some original) =
      (.error err, some original) := by
  unfold updateFail2BanIgnore
  cases hnormal : normalizeIPOrCIDR entry with
  | error err => exact ⟨err, run_read_error (fun _ => .error err) rfl _⟩
  | ok e =>
    rw [run_read (fun _ => .ok e) rfl]
    by_cases hknown : action ≠ "add" ∧ action ≠ "remove"
    · exact ⟨_, run_check_error hknown _ _ _⟩
    rw [run_check hknown]
    by_cases hallowed : action = "remove" ∧ ipEntryContains e protectedIP = true
    · exact ⟨_, run_check_error hallowed _ _ _⟩
    rw [run_check hallowed, run_readConfig]
    dsimp only
    cases hfound : (split '\n' original).find? isIgnoreLine with
    | none => exact ⟨_, run_read_error (fun _ => .error _) rfl _⟩
    | some line =>
      refine absurd ⟨hnormal, ?_, ?_, hfound⟩ (h e line)
      · by_contra hnot
        exact hknown (not_or.mp hnot)
      · intro haction
        rw [← Bool.not_eq_true]
        exact fun hcontains => hallowed ⟨haction, hcontains⟩

/-- When the list is updated, whatever words go on behind it. -/
theorem updated_iff (hread : Reads read) (h : Passes entry action protectedIP original e line) :
    Updated read action (trimSpace entry) protectedIP (fields (afterEquals line) ++ continued original)
        (updatedEntries action e (cleanIPEntries (fields (afterEquals line))) ++ continued original) ↔
      (action = "remove" → read e ∈ family (meaning read) required ∨
        read e ∉ family (meaning read) (others original e line)) ∧
      (action = "remove" → ∀ addr, clientAddr protectedIP = some addr → addr.zone ≠ "" →
        addr.ip ∈ read e →
        addr.ip ∈ covered (meaning read) (fields (afterEquals line) ++ continued original) →
        addr.ip ∈ covered (meaning read) (others original e line ++ required)) := by
  have hsame := read_of_normalize hread h.normal
  have hmeaning : meaning read e = {read e} := meaning_of_written (written_of_normalize h.normal)
  have hmem := @mem_updatedEntries action e
  rcases h.known with rfl | rfl
  · have hremove : "add" ≠ "remove" := by decide
    refine ⟨fun _ => ⟨fun heq => absurd heq hremove, fun heq => absurd heq hremove⟩, fun _ =>
      ⟨?_, fun heq => absurd heq hremove, fun heq => absurd heq hremove⟩⟩
    rw [if_pos rfl, ← hsame]
    refine family_add hmeaning fun w => ?_
    rw [List.mem_append, List.mem_append, hmem, if_pos rfl]
    simp only [or_assoc, or_left_comm, or_comm]
  · have hadd : ¬ "remove" = "add" := by decide
    have hold : ∀ w ∈ fields (afterEquals line) ++ continued original,
        w ∈ others original e line ∨ w = e := by
      intro w hw
      by_cases hwe : w = e
      · exact .inr hwe
      · refine .inl (List.mem_append.mpr ((List.mem_append.mp hw).imp_left fun hw => ?_))
        exact List.mem_filter.mpr ⟨hw, decide_eq_true hwe⟩
    have hothers : others original e line ⊆ fields (afterEquals line) ++ continued original :=
      fun w hw => List.mem_append.mpr ((List.mem_append.mp hw).imp_left List.mem_of_mem_filter)
    have hnew (w : String) :
        w ∈ updatedEntries "remove" e (cleanIPEntries (fields (afterEquals line))) ++ continued original ↔
          w ∈ others original e line ∨ w ∈ required := by
      rw [List.mem_append, hmem, if_neg hadd, others, List.mem_append, List.mem_filter, decide_eq_true_eq]
      exact or_right_comm
    have hcovered : covered (meaning read)
          (updatedEntries "remove" e (cleanIPEntries (fields (afterEquals line))) ++ continued original) =
        covered (meaning read) (others original e line ++ required) :=
      covered_congr fun w => by rw [hnew, List.mem_append]
    have hsets := family_remove_iff hmeaning hold hothers hnew
    constructor
    · intro hupdated
      refine ⟨fun _ => hsets.mp ?_, fun heq addr haddr _ _ hbefore => ?_⟩
      · have hright := hupdated.sets
        rwa [if_neg hadd, ← hsame] at hright
      · rw [← hcovered]
        exact hupdated.client heq addr haddr hbefore
    · rintro ⟨hspelled, hzoned⟩
      refine ⟨?_, fun _ ip hip hout => ?_, fun heq addr haddr hbefore => ?_⟩
      · rw [if_neg hadd, ← hsame]
        exact hsets.mpr (hspelled rfl)
      · exact covered_remove hmeaning hold hnew hip (hsame ▸ hout)
      · by_cases hin : addr.ip ∈ read e
        · have hzone : addr.zone ≠ "" := fun hzone =>
            not_mem_of_ipEntryContains hread h.normal (h.allowed heq) haddr hzone hin
          rw [hcovered]
          exact hzoned heq addr haddr hzone hin hbefore
        · exact covered_remove hmeaning hold hnew hbefore hin

/-- The write succeeds. -/
theorem update_of_write (h : Passes entry action protectedIP original e line) (hwrite : a.write = none) :
    updateFail2BanIgnore a entry action protectedIP (some original) =
      restartWith a original (some (updatedConfig action e original line)) := by
  rw [update_of_passes h, hwrite]
  rfl

theorem sound_of_right (hread : Reads read) (hright : Right read a entry action protectedIP original)
    (h : Passes entry action protectedIP original e line) (hwrite : a.write = none)
    (hplain : Starts a → Plain original line) : Sound read a action protectedIP original e line := by
  have hrun := update_of_write h hwrite
  by_cases hstarts : Starts a
  · obtain ⟨hbefore, hafter⟩ := @ignoreLists_of_plain action original e line (hplain hstarts)
      (written_of_normalize h.normal) h.found
    rw [restartWith_of_starts hstarts] at hrun
    obtain ⟨config, old, new, hconfig, hold, hnew, hupdated⟩ := hright.updated _ hrun
    obtain rfl := Option.some.inj hconfig
    obtain rfl := Option.some.inj (hbefore.symm.trans hold)
    obtain rfl := Option.some.inj (hafter.symm.trans hnew)
    obtain ⟨hspelled, hzoned⟩ := (updated_iff hread h).mp hupdated
    exact ⟨fun _ => hspelled, fun _ => hzoned, fun hnot => absurd hstarts hnot⟩
  · obtain ⟨err, hrestart⟩ :=
      restartWith_of_not_starts hstarts original (some (updatedConfig action e original line))
    have hfile := hright.restored _ _ (hrun.trans hrestart) hwrite
    refine ⟨fun hs => absurd hs hstarts, fun hs => absurd hs hstarts, fun _ => ?_⟩
    cases hrollback : a.rollback with
    | none => exact .inl rfl
    | some left =>
      rw [hrollback, Option.getD_some] at hfile
      exact .inr (congrArg some hfile)

theorem right_of_sound (hread : Reads read) (h : Passes entry action protectedIP original e line)
    (hplain : a.write = none → Starts a → Plain original line)
    (hsound : a.write = none → Sound read a action protectedIP original e line) :
    Right read a entry action protectedIP original := by
  cases hwrite : a.write with
  | some left =>
    refine ⟨fun file hok => ?_, fun err file _ hnone => ?_⟩
    · rw [update_of_passes h, hwrite] at hok
      cases hok
    · cases hwrite.symm.trans hnone
  | none =>
    have hline := hsound hwrite
    have hrun := update_of_write h hwrite
    by_cases hstarts : Starts a
    · obtain ⟨hbefore, hafter⟩ := @ignoreLists_of_plain action original e line (hplain hwrite hstarts)
        (written_of_normalize h.normal) h.found
      rw [restartWith_of_starts hstarts] at hrun
      refine ⟨fun file hok => ?_, fun err file herr _ => ?_⟩
      · obtain rfl := (Prod.mk.inj (hrun.symm.trans hok)).2
        exact ⟨_, _, _, rfl, hbefore, hafter,
          (updated_iff hread h).mpr ⟨hline.spelled hstarts, hline.zoned hstarts⟩⟩
      · cases hrun.symm.trans herr
    · obtain ⟨err, hrestart⟩ :=
        restartWith_of_not_starts hstarts original (some (updatedConfig action e original line))
      rw [hrestart] at hrun
      refine ⟨fun file hok => ?_, fun err file herr _ => ?_⟩
      · cases hrun.symm.trans hok
      · rw [← (Prod.mk.inj (hrun.symm.trans herr)).2]
        rcases hline.rollback hstarts with hrollback | hrollback <;> rw [hrollback] <;> rfl

def goContains (s : String) (ip : IP) : Bool :=
  match parseIP s with
  | some parsed => parsed = ip
  | none => (parseCIDR s).any (·.2.contains ip)

def goRead (s : String) : Set IP := {ip | goContains s ip = true}

theorem reads_goRead : Reads goRead where
  address s ip h := by
    ext other
    simp [goRead, goContains, h, eq_comm]
  network s ip network h := by
    simp [goRead, goContains, parseIP_of_parseCIDR h, h]

/-- Every call succeeds. -/
def succeeding : Answers := ⟨none, none, none, none⟩

/-- The line that `InstallFail2Ban` writes for one client. -/
def installed : String :=
  "ignoreip = 127.0.0.1/8 ::1 10.0.0.0/8 172.16.0.0/12 192.168.0.0/16 203.0.113.7/32"

def installedLines : List String :=
  ["# Managed by LukePanel", "[sshd]", "enabled = true", "backend = systemd", "maxretry = 5",
    "findtime = 10m", "bantime = 1h", installed, ""]

theorem split_installed : split '\n' (installContent "203.0.113.7" []) = installedLines := by
  decide +kernel

theorem plain_installed : Plain (installContent "203.0.113.7" []) installed where
  option := ⟨" ", " 127.0.0.1/8 ::1 10.0.0.0/8 172.16.0.0/12 192.168.0.0/16 203.0.113.7/32", by
    decide +kernel, isSpace_blank⟩
  place := by
    rw [split_installed]
    decide +kernel
  parsed := by
    rw [split_installed]
    exact Option.isSome_iff_ne_none.mp (by decide +kernel)
  words := by
    unfold continued ignoreValue
    rw [split_installed]
    decide +kernel
  returns := by
    rw [split_installed]
    decide +kernel
  separators := by
    rw [← join_split '\n' (installContent "203.0.113.7" []), split_installed]
    exact fun c hc => of_decide_eq_true (List.all_eq_true.mp
      (by decide +kernel : (String.toList _).all (fun c => decide (c.toNat < 28 ∨ 31 < c.toNat)) = true) c hc)

theorem found_installed :
    (split '\n' (installContent "203.0.113.7" [])).find? isIgnoreLine = some installed := by
  rw [split_installed]
  decide +kernel

theorem goRead_host : goRead "203.0.113.7/32" = goRead "203.0.113.7" := by
  have hnetwork : parseCIDR "203.0.113.7/32" = some (IP.ofV4 203 0 113 7, .v4 3405803783#32 32) := by
    decide +kernel
  have haddress : parseIP "203.0.113.7" = some (IP.ofV4 203 0 113 7) := by decide +kernel
  rw [reads_goRead.network _ _ _ hnetwork, reads_goRead.address _ _ haddress]
  ext ip
  rw [Set.mem_ofPred_eq, contains_host, Set.mem_singleton_iff]
  rfl

end LukePanel.HostAdmin.Fail2banIgnore
