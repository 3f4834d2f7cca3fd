import LukePanel.HostAdmin.SoftwareSources
import LukePanel.Library.PlainSources

/-! # Sources switched off and on again -/
namespace LukePanel.HostAdmin.SourceToggle
open LukePanel.Library LukePanel.Library.GoStrings LukePanel.Library.SourceLists
open LukePanel.Library.Attempt LukePanel.Library.Attempt.Prog
open LukePanel.HostAdmin.SoftwareSources

variable {E : Type} (apt : Apt E)

/-! ## Off and on again -/

/-- What `apt` reads in `sources.list`. -/
def entries (content : String) : List E :=
  (split '\n' content).filterMap fun line => apt.entry line.toList

/-- The contents of `sources.list` after it was switched off, and on again. -/
structure Toggled (content disabled enabled : String) : Prop where
  inactive : entries apt disabled = []
  restored : entries apt enabled = entries apt content
  length : (split '\n' disabled).length = (split '\n' content).length ∧
    (split '\n' enabled).length = (split '\n' content).length
  kept : ∀ (i : ℕ) (line : String), (split '\n' content)[i]? = some line →
    apt.entry line.toList = none →
      (split '\n' disabled)[i]? = some line ∧ (split '\n' enabled)[i]? = some line

/-- Whatever the switches answer: when both succeed, the file has been toggled. -/
def Switches (off on : String) (disk : Disk) (content : String) : Prop :=
  ∀ (write write' renamed renamed' : Option String) (path path' : String) (disk' disk'' : Disk),
    setSoftwareSourceEnabled write renamed off false disk = (.ok path, disk') →
    setSoftwareSourceEnabled write' renamed' on true disk' = (.ok path', disk'') →
    ∃ disabled enabled, disk' sourcesList = some disabled ∧ disk'' sourcesList = some enabled ∧
      Toggled apt content disabled enabled

/-- The panel and `apt` take the line for the same: it begins with a type and a space exactly if it
is an entry, and then `apt` reads the same entry without the white space around it. -/
structure Clear (line : String) : Prop where
  typed : (apt.entry line.toList).isSome = isEntry (trimSpace line)
  trimmed : isEntry (trimSpace line) = true → apt.entry (trimSpace line).toList = apt.entry line.toList

/-! ## A line -/

variable {line : String}

/-- The blanks a line begins with. -/
def start (line : String) : String := String.ofList (line.toList.takeWhile (· ∈ [' ', '\t']))

theorem mem_start {c : Char} (h : c ∈ (start line).toList) : c = ' ' ∨ c = '\t' := by
  rw [start, String.toList_ofList] at h
  simpa using List.mem_takeWhile_imp h

theorem blank_start : ∀ c ∈ (start line).toList, isBlank c = true := by
  intro c hc
  rcases mem_start hc with rfl | rfl <;> decide

theorem space_start : ∀ c ∈ (start line).toList, isSpace c = true := by
  intro c hc
  rcases mem_start hc with rfl | rfl <;> decide

theorem rewriteLine_false (line : String) : rewriteLine false line =
    if isEntry (trimSpace line) = true then start line ++ marker ++ trimSpace line else line := by
  simp [rewriteLine, start]

theorem rewriteLine_true (line : String) : rewriteLine true line =
    if hasPrefix (trimSpace line) marker = true then start line ++ dropPrefix (trimSpace line) marker
    else line := by
  simp [rewriteLine, start]

theorem toList_marked (line trim : String) : (start line ++ marker ++ trim).toList =
    (start line).toList ++ '#' :: (" lukepanel-disabled ".toList ++ trim.toList) := by
  rw [String.toList_append, String.toList_append, List.append_assoc]
  rfl

theorem trimSpace_marked (h : trimSpace line ≠ "") :
    trimSpace (start line ++ marker ++ trimSpace line) = marker ++ trimSpace line := by
  rw [String.append_assoc, trimSpace_append space_start]
  refine trimSpace_eq_self ?_ ?_
  · intro c hc
    rw [String.toList_append] at hc
    obtain rfl : '#' = c := Option.some.inj hc
    decide
  · intro c hc
    have hne : (trimSpace line).toList ≠ [] := fun hnil => h (String.toList_eq_nil_iff.mp hnil)
    rw [String.toList_append, List.getLast?_append_of_ne_nil _ hne] at hc
    exact isSpace_of_getLast?_trimSpace hc

theorem start_marked (line trim : String) : start (start line ++ marker ++ trim) = start line := by
  rw [start, toList_marked, List.takeWhile_append_of_pos]
  · simp
  · intro c hc
    simpa using mem_start hc

theorem ne_empty_of_isEntry {trim : String} (h : isEntry trim = true) : trim ≠ "" := by
  rintro rfl
  revert h
  decide

/-- Switched on, a line that was switched off is as before, up to space. -/
theorem rewriteLine_marked (h : isEntry (trimSpace line) = true) :
    rewriteLine true (start line ++ marker ++ trimSpace line) = start line ++ trimSpace line := by
  have hstarts : hasPrefix (marker ++ trimSpace line) marker = true := by
    rw [hasPrefix, List.isPrefixOf_iff_prefix, String.toList_append]
    exact List.prefix_append _ _
  have hdrop : dropPrefix (marker ++ trimSpace line) marker = trimSpace line := by
    rw [dropPrefix, String.toList_append, List.drop_left, String.ofList_toList]
  rw [rewriteLine_true, trimSpace_marked (ne_empty_of_isEntry h), if_pos hstarts, hdrop, start_marked]

/-- A line that was switched off is a comment. -/
theorem entry_marked (line trim : String) : apt.entry (start line ++ marker ++ trim).toList = none := by
  rw [toList_marked]
  exact apt.comment_line blank_start _

/-- The entry is found where the panel trims the line. -/
theorem entry_start_trim (line : String) :
    apt.entry (start line ++ trimSpace line).toList = apt.entry (trimSpace line).toList := by
  rw [String.toList_append]
  exact apt.indent _ _ blank_start

theorem newline_rewriteLine (enabled : Bool) (h : '\n' ∉ line.toList) :
    '\n' ∉ (rewriteLine enabled line).toList := by
  have hstart : '\n' ∉ (start line).toList := fun hmem => by rcases mem_start hmem with h | h <;> cases h
  have htrim : '\n' ∉ (trimSpace line).toList := fun hmem => h (mem_of_mem_trimSpace hmem)
  cases enabled with
  | false =>
    rw [rewriteLine_false]
    split
    · rw [String.toList_append, String.toList_append, List.mem_append, List.mem_append]
      rintro ((hmem | hmem) | hmem)
      · exact hstart hmem
      · revert hmem
        decide
      · exact htrim hmem
    · exact h
  | true =>
    rw [rewriteLine_true]
    split
    · rw [String.toList_append, dropPrefix, String.toList_ofList, List.mem_append]
      rintro (hmem | hmem)
      · exact hstart hmem
      · exact htrim (List.mem_of_mem_drop hmem)
    · exact h

theorem split_rewrite (enabled : Bool) (data : String) :
    split '\n' (rewrite enabled data) = (split '\n' data).map (rewriteLine enabled) := by
  refine split_join ?_ ?_
  · simp [split]
  · intro line hline
    obtain ⟨before, hbefore, rfl⟩ := List.mem_map.mp hline
    exact newline_rewriteLine enabled (sep_not_mem_of_mem_split hbefore)

/-! ## The file -/

/-- What a switch makes of `sources.list`. -/
theorem set_sourcesList {path content : String} {disk : Disk}
    (hpath : (SlashPath.clean (trimSpace path)).text = sourcesList)
    (hcontent : disk sourcesList = some content) (write renamed : Option String) (enabled : Bool) :
    setSoftwareSourceEnabled write renamed path enabled disk =
      match write with
      | none => (.ok sourcesList,
          Function.update disk sourcesList (some (rewrite enabled content)))
      | some err => (.error err, disk) := by
  have hchecked : ¬ (sourcesList ≠ sourcesList ∧
      hasPrefix sourcesList "/etc/apt/sources.list.d/" = false) := fun h => h.1 rfl
  have hplain : ¬ containsAny sourcesList ['\x00', '\r', '\n'] = true := by decide
  have hread : readFile sourcesList disk = (.ok content, disk) := by
    simp only [readFile, Prog.read, hcontent]
  unfold setSoftwareSourceEnabled
  rw [hpath]
  simp only [check, if_neg hchecked, if_neg hplain, if_pos]
  change andThen (readFile sourcesList) _ disk = _
  rw [andThen, hread]
  cases write <;> rfl

variable {content : String}

theorem on_off (hmarker : hasPrefix (trimSpace line) marker = false) :
    rewriteLine true (rewriteLine false line) =
      if isEntry (trimSpace line) = true then start line ++ trimSpace line else line := by
  rw [rewriteLine_false]
  split
  · exact rewriteLine_marked ‹_›
  · rw [rewriteLine_true, hmarker, if_neg Bool.false_ne_true]

/-- One list of results is another one only result by result, when it has none that the other has
not. -/
theorem eq_of_filterMap_eq {α β : Type} {f g : α → Option β} {l : List α}
    (hsome : ∀ a ∈ l, f a = none → g a = none) (h : l.filterMap g = l.filterMap f) :
    ∀ a ∈ l, g a = f a := by
  have hle {l : List α} (hsome : ∀ a ∈ l, f a = none → g a = none) :
      (l.filterMap g).length ≤ (l.filterMap f).length := by
    induction l with
    | nil => exact Nat.le_refl _
    | cons a l ih =>
      rw [List.forall_mem_cons] at hsome
      have hrest := ih hsome.2
      cases hf : f a with
      | none => rwa [List.filterMap_cons_none hf, List.filterMap_cons_none (hsome.1 hf)]
      | some b =>
        rw [List.filterMap_cons_some hf, List.length_cons]
        cases hg : g a with
        | none =>
          rw [List.filterMap_cons_none hg]
          omega
        | some c =>
          rw [List.filterMap_cons_some hg, List.length_cons]
          omega
  induction l with
  | nil => exact fun a ha => absurd ha List.not_mem_nil
  | cons a l ih =>
    rw [List.forall_mem_cons] at hsome ⊢
    cases hf : f a with
    | none =>
      rw [List.filterMap_cons_none hf, List.filterMap_cons_none (hsome.1 hf)] at h
      exact ⟨hsome.1 hf, ih hsome.2 h⟩
    | some b =>
      rw [List.filterMap_cons_some hf] at h
      cases hg : g a with
      | none =>
        rw [List.filterMap_cons_none hg] at h
        have hlength := congrArg List.length h
        have hrest := hle hsome.2
        rw [List.length_cons] at hlength
        omega
      | some c =>
        rw [List.filterMap_cons_some hg] at h
        obtain ⟨rfl, hrest⟩ := List.cons.inj h
        exact ⟨rfl, ih hsome.2 hrest⟩

variable {apt}

theorem isNone_of_clear (h : Clear apt line) :
    apt.entry line.toList = none ↔ isEntry (trimSpace line) = false := by
  rw [← h.typed, Option.isSome_eq_false_iff, Option.isNone_iff_eq_none]

theorem toggled_of_clear (hmarkers : ∀ line ∈ split '\n' content, hasPrefix (trimSpace line) marker = false)
    (hclear : ∀ line ∈ split '\n' content, Clear apt line) :
    Toggled apt content (rewrite false content) (rewrite true (rewrite false content)) := by
  have hunchanged {line : String} (hline : line ∈ split '\n' content)
      (hnone : apt.entry line.toList = none) :
      rewriteLine false line = line ∧ rewriteLine true (rewriteLine false line) = line := by
    have htyped := (isNone_of_clear (hclear line hline)).mp hnone
    rw [on_off (hmarkers line hline), rewriteLine_false, htyped]
    exact ⟨rfl, rfl⟩
  constructor
  · rw [entries, split_rewrite, List.filterMap_map]
    refine List.filterMap_eq_nil_iff.mpr fun line hline => ?_
    rw [Function.comp_apply, rewriteLine_false]
    split
    · exact entry_marked apt line _
    · rename_i htyped
      exact (isNone_of_clear (hclear line hline)).mpr (Bool.not_eq_true _ |>.mp htyped)
  · rw [entries, split_rewrite, split_rewrite, List.filterMap_map, List.filterMap_map]
    refine List.filterMap_congr fun line hline => ?_
    have hline' := hclear line hline
    rw [Function.comp_apply, Function.comp_apply, on_off (hmarkers line hline)]
    split
    · rename_i htyped
      rw [entry_start_trim]
      exact hline'.trimmed htyped
    · rfl
  · simp [split_rewrite]
  · intro i line hi hnone
    have hline := hunchanged (List.mem_of_getElem? hi) hnone
    rw [split_rewrite, split_rewrite, split_rewrite, List.getElem?_map, List.getElem?_map,
      List.getElem?_map, hi]
    exact ⟨congrArg some hline.1, congrArg some hline.2⟩

theorem clear_of_toggled (hmarkers : ∀ line ∈ split '\n' content, hasPrefix (trimSpace line) marker = false)
    (h : Toggled apt content (rewrite false content) (rewrite true (rewrite false content))) :
    ∀ line ∈ split '\n' content, Clear apt line := by
  have htyped : ∀ line ∈ split '\n' content,
      (apt.entry line.toList).isSome = isEntry (trimSpace line) := by
    intro line hline
    cases htyped : isEntry (trimSpace line) with
    | false =>
      have hinactive := h.inactive
      rw [entries, split_rewrite, List.filterMap_map, List.filterMap_eq_nil_iff] at hinactive
      have hnone := hinactive line hline
      rw [Function.comp_apply, rewriteLine_false, htyped, if_neg Bool.false_ne_true] at hnone
      rw [hnone]
      rfl
    | true =>
      rw [Option.isSome_iff_ne_none]
      intro hnone
      obtain ⟨i, hi⟩ := List.getElem?_of_mem hline
      have hkept := (h.kept i line hi hnone).1
      rw [split_rewrite, List.getElem?_map, hi, Option.map_some, rewriteLine_false, htyped,
        if_pos rfl] at hkept
      -- The marker is not trimmed away.
      have htrim := trimSpace_marked (ne_empty_of_isEntry htyped)
      rw [Option.some.inj hkept] at htrim
      have hlength := congrArg (fun s : String => s.toList.length) htrim
      simp only [String.toList_append, List.length_append] at hlength
      have hmarker : 0 < marker.toList.length := by decide
      omega
  have hrestored := h.restored
  rw [entries, entries, split_rewrite, split_rewrite, List.filterMap_map, List.filterMap_map] at hrestored
  have hsame := eq_of_filterMap_eq (fun line hline hnone => ?_) hrestored
  · intro line hline
    refine ⟨htyped line hline, fun hentry => ?_⟩
    have hline' := hsame line hline
    rw [Function.comp_apply, Function.comp_apply, on_off (hmarkers line hline), if_pos hentry,
      entry_start_trim] at hline'
    exact hline'
  · have hentry : isEntry (trimSpace line) = false := by
      rw [← htyped line hline, hnone]
      rfl
    rw [Function.comp_apply, Function.comp_apply, on_off (hmarkers line hline), hentry,
      if_neg Bool.false_ne_true, hnone]

/-- `sources.list` without marks of the panel is switched off and on again, its other lines kept, exactly
if every line is clear. -/
theorem switches_iff {off on : String} (hoff : (SlashPath.clean (trimSpace off)).text = sourcesList)
    (hon : (SlashPath.clean (trimSpace on)).text = sourcesList) {disk : Disk}
    (hcontent : disk sourcesList = some content)
    (hmarkers : ∀ line ∈ split '\n' content, hasPrefix (trimSpace line) marker = false) :
    Switches apt off on disk content ↔ ∀ line ∈ split '\n' content, Clear apt line := by
  have hrewritten : Function.update disk sourcesList (some (rewrite false content)) sourcesList =
      some (rewrite false content) := Function.update_self ..
  constructor
  · intro h
    obtain ⟨disabled, enabled, hdisabled, henabled, htoggled⟩ := h none none none none _ _ _ _
      (set_sourcesList hoff hcontent none none false) (set_sourcesList hon hrewritten none none true)
    rw [hrewritten] at hdisabled
    rw [Function.update_self] at henabled
    obtain rfl := Option.some.inj hdisabled
    obtain rfl := Option.some.inj henabled
    exact clear_of_toggled hmarkers htoggled
  · intro hclear write write' renamed renamed' path path' disk' disk'' hfirst hsecond
    rw [set_sourcesList hoff hcontent] at hfirst
    cases write with
    | some err => cases hfirst
    | none =>
      obtain rfl := (Prod.mk.inj hfirst).2
      rw [set_sourcesList hon hrewritten] at hsecond
      cases write' with
      | some err => cases hsecond
      | none =>
        obtain rfl := (Prod.mk.inj hsecond).2
        exact ⟨_, _, hrewritten, Function.update_self .., toggled_of_clear hmarkers hclear⟩

/-- Clear lines are told from others by running the two readers. -/
instance [DecidableEq E] : DecidablePred (Clear apt) := fun line =>
  decidable_of_iff ((apt.entry line.toList).isSome = isEntry (trimSpace line) ∧
      (isEntry (trimSpace line) = true → apt.entry (trimSpace line).toList = apt.entry line.toList))
    ⟨fun h => ⟨h.1, h.2⟩, fun h => ⟨h.typed, h.trimmed⟩⟩

/-- The disk of a host with one source list. -/
def diskWith (content : String) : Disk := fun path => if path = sourcesList then some content else none

/-- Blanks around an entry, its options and a comment. -/
def mirrored : String :=
  "  deb [arch=amd64] https://deb.debian.org/debian stable main \t\n# deb http://old.example/ x y\n"

theorem mirrored_switched : (∀ line ∈ split '\n' mirrored, hasPrefix (trimSpace line) marker = false) ∧
    Switches PlainSources.plain sourcesList " /etc/apt//sources.list" (diskWith mirrored) mirrored := by
  have hmarkers : ∀ line ∈ split '\n' mirrored, hasPrefix (trimSpace line) marker = false := by decide
  exact ⟨hmarkers, (switches_iff (by decide) (by decide) (if_pos rfl) hmarkers).mpr (by decide +kernel)⟩

/-- A tab behind the type. -/
def tabbed : String := "deb\thttps://deb.debian.org/debian stable main\n"

/-- The entry stays active. -/
theorem tabbed_active : ¬ Switches PlainSources.plain sourcesList sourcesList (diskWith tabbed) tabbed := by
  intro h
  obtain ⟨disabled, _, hdisabled, -, htoggled⟩ := h none none none none _ _ _ _
    (set_sourcesList (by decide) (if_pos rfl) none none false)
    (set_sourcesList (by decide) (Function.update_self ..) none none true)
  rw [Function.update_self] at hdisabled
  have hinactive := htoggled.inactive
  rw [← Option.some.inj hdisabled] at hinactive
  revert hinactive
  decide

end LukePanel.HostAdmin.SourceToggle
