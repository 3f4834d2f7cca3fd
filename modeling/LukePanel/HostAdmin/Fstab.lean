import LukePanel.Library.GoStrings

/-! # The entry of the swap file in fstab

`appendFstabLine` and `removeFstabLine` of `internal/hostadmin/settings.go`, as `CreateSwap` and
`DeleteManagedSwap` call them: the content of `/etc/fstab` after a call that reads and writes it. -/
namespace LukePanel.HostAdmin.Fstab
open LukePanel.Library LukePanel.Library.GoStrings

/-- `strings.TrimRight` with a newline. -/
def trimNewlines (s : String) : String := String.ofList (s.toList.rdropWhile (· = '\n'))

def marker : String := "# Managed by LukePanel"

/-- What `CreateSwap` appends. -/
def swapLine : String := "/swapfile none swap sw 0 0"

def appendFstabLine (line data : String) : String :=
  if contains data "/swapfile" then data
  else trimNewlines data ++ "\n# Managed by LukePanel\n" ++ line ++ "\n"

/-- The loop of `removeFstabLine`: the lines that stay. -/
def staying (path : String) : Bool → List String → List String
  | _, [] => []
  | skipComment, line :: rest =>
    let trim := trimSpace line
    if trim = marker then staying path true rest
    else if hasPrefix trim (path ++ " ") then staying path skipComment rest
    else if skipComment && trim = "" then staying path false rest
    else line :: staying path false rest

def removeFstabLine (path data : String) : String :=
  trimNewlines (join '\n' (staying path false (split '\n' data))) ++ "\n"

/-! ## What fstab says

Fields are separated by blanks and tabs; blank lines and comments are no entries. -/

def isBlank (c : Char) : Bool := c = ' ' || c = '\t'

def firstField (line : String) : List Char :=
  (line.toList.dropWhile isBlank).takeWhile (!isBlank ·)

def isActive (line : String) : Bool :=
  decide (firstField line ≠ [] ∧ (firstField line).head? ≠ some '#')

/-- An entry of the device. -/
def isFor (path line : String) : Bool := firstField line = path.toList

def isOther (path line : String) : Bool := isActive line && !isFor path line

/-- The entries of the swap file. -/
def swapEntries (data : String) : List String := (split '\n' data).filter (isFor "/swapfile")

/-- The entries of all other devices. -/
def otherEntries (data : String) : List String := (split '\n' data).filter (isOther "/swapfile")

/-- What is asked of the two functions, for one content. -/
structure Right (data : String) : Prop where
  appended : (swapEntries (appendFstabLine swapLine data)).length = 1
  keptByAppend : otherEntries (appendFstabLine swapLine data) = otherEntries data
  removed : swapEntries (removeFstabLine "/swapfile" data) = []
  keptByRemove : otherEntries (removeFstabLine "/swapfile" data) = otherEntries data
  restored : swapEntries data = [] → (∀ line ∈ split '\n' data, trimSpace line ≠ marker) →
    trimNewlines (removeFstabLine "/swapfile" (appendFstabLine swapLine data)) = trimNewlines data

/-! ## The loop, line by line -/

variable {path line data : String} {lines before after : List String} {skip : Bool}
  {p gone : String → Bool}

/-- The line does not stay. -/
def dropped (path : String) (skip : Bool) (line : String) : Bool :=
  trimSpace line = marker || hasPrefix (trimSpace line) (path ++ " ") ||
    (skip && trimSpace line = "")

/-- `skipComment` behind the line. -/
def skips (path : String) (skip : Bool) (line : String) : Bool :=
  trimSpace line = marker || (hasPrefix (trimSpace line) (path ++ " ") && skip)

theorem staying_cons (path : String) (skip : Bool) (line : String) (rest : List String) :
    staying path skip (line :: rest) =
      (if dropped path skip line then [] else [line]) ++ staying path (skips path skip line) rest := by
  rw [staying]
  by_cases hmarker : trimSpace line = marker
  · simp [dropped, skips, hmarker]
  · cases hstarts : hasPrefix (trimSpace line) (path ++ " ") with
    | true => simp [dropped, skips, hmarker, hstarts]
    | false =>
      by_cases hblank : trimSpace line = ""
      · rw [hblank] at hmarker hstarts
        cases skip <;> simp [dropped, skips, hmarker, hstarts, hblank]
      · simp [dropped, skips, hmarker, hstarts, hblank]

theorem staying_append (path : String) (skip : Bool) (before after : List String) :
    staying path skip (before ++ after) =
      staying path skip before ++ staying path (before.foldl (skips path) skip) after := by
  induction before generalizing skip with
  | nil => rfl
  | cons line rest ih =>
    rw [List.cons_append, staying_cons, staying_cons, ih, List.append_assoc]
    rfl

theorem staying_sublist (path : String) (skip : Bool) (lines : List String) :
    (staying path skip lines).Sublist lines := by
  induction lines generalizing skip with
  | nil => exact List.Sublist.refl _
  | cons line rest ih =>
    rw [staying_cons]
    split
    · exact (ih _).cons line
    · exact (ih _).cons_cons line

/-- Lines of a kind that are dropped wherever they stand, or nowhere. -/
theorem filter_staying (h : ∀ skip line, p line = true → dropped path skip line = gone line) :
    (staying path skip lines).filter p = lines.filter fun line => p line && !gone line := by
  induction lines generalizing skip with
  | nil => rfl
  | cons line rest ih =>
    rw [staying_cons, List.filter_append, ih, List.filter_cons]
    cases hp : p line with
    | false => cases dropped path skip line <;> simp [hp]
    | true =>
      rw [h skip line hp]
      cases gone line <;> simp [hp]

/-- All lines of a kind stay: none of them is dropped where it stands. -/
theorem filter_staying_eq_iff : (staying path skip lines).filter p = lines.filter p ↔
    ∀ before line after, lines = before ++ line :: after → p line = true →
      dropped path (before.foldl (skips path) skip) line = false := by
  induction lines generalizing skip with
  | nil =>
    refine ⟨fun _ before line after h => ?_, fun _ => rfl⟩
    cases before <;> cases h
  | cons first rest ih =>
    have hrest : (∀ before line after, first :: rest = before ++ line :: after → p line = true →
        dropped path (before.foldl (skips path) skip) line = false) ↔
        (p first = true → dropped path skip first = false) ∧
          ∀ before line after, rest = before ++ line :: after → p line = true →
            dropped path (before.foldl (skips path) (skips path skip first)) line = false := by
      constructor
      · intro h
        refine ⟨h [] first rest rfl, fun before line after hsplit => ?_⟩
        exact h (first :: before) line after (by rw [hsplit, List.cons_append])
      · rintro ⟨hfirst, h⟩ before line after hsplit
        cases before with
        | nil =>
          obtain ⟨rfl, -⟩ := List.cons.inj hsplit
          exact hfirst
        | cons other before =>
          obtain ⟨rfl, hafter⟩ := List.cons.inj hsplit
          exact h before line after hafter
    rw [hrest, ← ih, staying_cons, List.filter_append, List.filter_cons]
    cases hp : p first with
    | false => cases dropped path skip first <;> simp [hp]
    | true =>
      cases hdropped : dropped path skip first with
      | false => simp [hp]
      | true =>
        have hlength := (((staying_sublist path (skips path skip first) rest).filter p).length_le)
        refine ⟨fun h => ?_, fun h => Bool.noConfusion (h.1 rfl)⟩
        have hlengths := congrArg List.length h
        simp only [if_true, List.filter_nil, List.nil_append, List.length_cons] at hlengths
        omega

/-- Behind a marker, with nothing but lines of the path between. -/
theorem foldl_skips_iff : before.foldl (skips path) false = true ↔
    ∃ earlier mark between, before = earlier ++ mark :: between ∧ trimSpace mark = marker ∧
      ∀ line ∈ between, hasPrefix (trimSpace line) (path ++ " ") = true := by
  induction before using List.reverseRecOn with
  | nil =>
    refine ⟨fun h => Bool.noConfusion h, ?_⟩
    rintro ⟨earlier, mark, between, h, -⟩
    cases earlier <;> cases h
  | append_singleton before line ih =>
    rw [List.foldl_append, List.foldl_cons, List.foldl_nil, skips, Bool.or_eq_true, Bool.and_eq_true,
      decide_eq_true_eq, ih]
    constructor
    · rintro (hmarker | ⟨hstarts, earlier, mark, between, rfl, hmark, hbetween⟩)
      · exact ⟨before, line, [], rfl, hmarker, fun _ h => absurd h List.not_mem_nil⟩
      · refine ⟨earlier, mark, between ++ [line], by simp, hmark, ?_⟩
        intro other hother
        rcases List.mem_append.mp hother with hother | hother
        · exact hbetween other hother
        · rw [List.mem_singleton.mp hother]
          exact hstarts
    · rintro ⟨earlier, mark, between, hsplit, hmark, hbetween⟩
      rcases List.eq_nil_or_concat between with rfl | ⟨init, last, rfl⟩
      · rw [List.append_singleton_inj] at hsplit
        rw [hsplit.2]
        exact Or.inl hmark
      · rw [List.concat_eq_append] at hsplit hbetween
        rw [← List.cons_append, ← List.append_assoc, List.append_singleton_inj] at hsplit
        obtain ⟨rfl, rfl⟩ := hsplit
        refine Or.inr ⟨hbetween line (by simp), earlier, mark, init, rfl, hmark, ?_⟩
        exact fun other hother => hbetween other (List.mem_append_left _ hother)

/-! ## Lines of a file -/

theorem toList_trimNewlines (s : String) :
    ∃ n, s.toList = (trimNewlines s).toList ++ List.replicate n '\n' := by
  refine ⟨(s.toList.rtakeWhile (· = '\n')).length, ?_⟩
  have hends : s.toList.rtakeWhile (· = '\n') =
      List.replicate (s.toList.rtakeWhile (· = '\n')).length '\n' := by
    refine List.eq_replicate_iff.mpr ⟨rfl, fun c hc => ?_⟩
    have hnewline := List.mem_rtakeWhile_imp hc
    exact of_decide_eq_true hnewline
  rw [trimNewlines, String.toList_ofList, ← hends]
  exact List.rdropWhile_append_rtakeWhile.symm

theorem split_trimNewlines (s : String) :
    ∃ n, split '\n' s = split '\n' (trimNewlines s) ++ List.replicate n "" := by
  obtain ⟨n, hn⟩ := toList_trimNewlines s
  refine ⟨n, ?_⟩
  rw [split, hn, SplitLists.splitOn_append_replicate, List.map_append, List.map_replicate, String.ofList_nil]
  rfl

/-- Newlines at the end make blank lines only. -/
theorem filter_split_trimNewlines (h : p "" = false) (s : String) :
    (split '\n' (trimNewlines s)).filter p = (split '\n' s).filter p := by
  obtain ⟨n, hn⟩ := split_trimNewlines s
  rw [hn, List.filter_append, List.filter_replicate_of_neg (by simp [h]), List.append_nil]

theorem trimNewlines_trimNewlines (s : String) : trimNewlines (trimNewlines s) = trimNewlines s := by
  unfold trimNewlines
  rw [String.toList_ofList, List.rdropWhile_idempotent]

theorem trimNewlines_concat (s : String) : trimNewlines (s ++ "\n") = trimNewlines s := by
  have htext : (s ++ "\n").toList = s.toList ++ ['\n'] := String.toList_append
  rw [trimNewlines, htext, List.rdropWhile_concat_pos _ _ _ (by simp)]
  rfl

theorem split_append_newline (s t : String) :
    split '\n' (s ++ "\n" ++ t) = split '\n' s ++ split '\n' t := by
  have htext : (s ++ "\n" ++ t).toList = s.toList ++ '\n' :: t.toList := by
    rw [String.toList_append, String.toList_append, List.append_assoc]
    rfl
  rw [split, htext, List.splitOn_append_cons_self, List.map_append]
  rfl

theorem filter_split_congr {s t : String} (hp : p "" = false) (h : trimNewlines s = trimNewlines t) :
    (split '\n' s).filter p = (split '\n' t).filter p := by
  rw [← filter_split_trimNewlines hp s, h, filter_split_trimNewlines hp]

/-- The lines that a removal writes are those that stay, and blank ones. -/
theorem filter_split_removeFstabLine (h : p "" = false) (path data : String) :
    (split '\n' (removeFstabLine path data)).filter p =
      (staying path false (split '\n' data)).filter p := by
  have hend : split '\n' (removeFstabLine path data) =
      split '\n' (trimNewlines (join '\n' (staying path false (split '\n' data)))) ++ [""] := by
    rw [removeFstabLine]
    exact split_append_sep '\n' _
  rw [hend, List.filter_append, List.filter_cons_of_neg (by simp [h]), List.filter_nil,
    List.append_nil, filter_split_trimNewlines h]
  by_cases hnil : staying path false (split '\n' data) = []
  · rw [hnil]
    simp [join, split, h]
  · rw [split_join hnil]
    exact fun line hline => sep_not_mem_of_mem_split ((staying_sublist _ _ _).subset hline)

/-! ## The entry of the swap file -/

theorem append_prefix_rdropWhile {q : Char → Bool} {l m : List Char} (h : ∀ c ∈ l, q c = false) :
    l <+: (l ++ m).rdropWhile q := by
  induction m using List.reverseRecOn with
  | nil =>
    have hself : l.rdropWhile q = l := by
      refine List.rdropWhile_eq_self_iff.mpr fun hl => ?_
      simp [h _ (List.getLast_mem hl)]
    exact ⟨[], by rw [List.append_nil, hself]⟩
  | append_singleton m c ih =>
    rw [← List.append_assoc]
    cases hc : q c with
    | true =>
      rw [List.rdropWhile_concat_pos _ _ _ hc]
      exact ih
    | false =>
      rw [List.rdropWhile_concat_neg _ _ _ (by simp [hc]), List.append_assoc]
      exact List.prefix_append _ _

/-- Trimming leaves the first field where it is. -/
theorem firstField_prefix_trimSpace (h : ∀ c ∈ firstField line, isSpace c = false) :
    firstField line <+: (trimSpace line).toList := by
  cases hfield : firstField line with
  | nil => exact List.nil_prefix
  | cons first rest =>
    rw [← hfield, toList_trimSpace]
    have hblanks : ∀ c ∈ line.toList.takeWhile isBlank, isSpace c = true := by
      intro c hc
      have hblank := List.mem_takeWhile_imp hc
      simp only [isBlank, Bool.or_eq_true, decide_eq_true_eq] at hblank
      rcases hblank with rfl | rfl <;> decide
    have hparts : line.toList.dropWhile isBlank =
        firstField line ++ (line.toList.dropWhile isBlank).dropWhile (!isBlank ·) :=
      List.takeWhile_append_dropWhile.symm
    have hdrop : line.toList.dropWhile isSpace = line.toList.dropWhile isBlank := by
      rw [← @List.takeWhile_append_dropWhile _ isBlank line.toList,
        List.dropWhile_append_of_pos hblanks, List.takeWhile_append_dropWhile, hparts, hfield,
        List.cons_append, List.dropWhile_cons_of_neg]
      rw [h first (by simp [hfield])]
      exact Bool.false_ne_true
    rw [hdrop, hparts]
    exact append_prefix_rdropWhile h

theorem swapfile_prefix_trimSpace (h : isFor "/swapfile" line = true) :
    "/swapfile".toList <+: (trimSpace line).toList := by
  have hfield : firstField line = "/swapfile".toList := of_decide_eq_true h
  have hname : "/swapfile".toList.all (!isSpace ·) = true := by decide
  rw [← hfield]
  refine firstField_prefix_trimSpace fun c hc => ?_
  rw [hfield] at hc
  simpa using List.all_eq_true.mp hname c hc

/-- An entry of the swap file goes if a blank stands behind the name. -/
theorem dropped_of_isFor (skip : Bool) (h : isFor "/swapfile" line = true) :
    dropped "/swapfile" skip line = hasPrefix (trimSpace line) "/swapfile " := by
  have hstarts := swapfile_prefix_trimSpace h
  have hmarker : trimSpace line ≠ marker := by
    intro heq
    rw [heq] at hstarts
    revert hstarts
    decide
  have hblank : trimSpace line ≠ "" := by
    intro heq
    rw [heq] at hstarts
    revert hstarts
    decide
  have hname : "/swapfile" ++ " " = "/swapfile " := by decide
  simp [dropped, hmarker, hblank, hname]

theorem infix_of_isFor (h : isFor path line = true) : path.toList <:+: line.toList := by
  have hfield : firstField line = path.toList := of_decide_eq_true h
  rw [← hfield]
  exact (List.takeWhile_prefix _).isInfix.trans (List.dropWhile_suffix _).isInfix

theorem isFor_blank : isFor "/swapfile" "" = false := by decide

theorem isOther_blank (path : String) : isOther path "" = false := rfl

theorem swapEntries_removeFstabLine (data : String) :
    swapEntries (removeFstabLine "/swapfile" data) =
      (swapEntries data).filter fun line => !hasPrefix (trimSpace line) "/swapfile " := by
  unfold swapEntries
  rw [filter_split_removeFstabLine isFor_blank, filter_staying fun skip line => dropped_of_isFor skip,
    List.filter_filter]
  refine List.filter_congr fun line _ => ?_
  rw [Bool.and_comm]

/-! ## Appending -/

theorem appendFstabLine_of_contains (h : contains data "/swapfile" = true) (line : String) :
    appendFstabLine line data = data := if_pos h

/-- The lines of a file that does not hold the name, after an append. -/
theorem split_appendFstabLine (h : contains data "/swapfile" = false) :
    split '\n' (appendFstabLine swapLine data) =
      split '\n' (trimNewlines data) ++ [marker, swapLine, ""] := by
  have htext : appendFstabLine swapLine data =
      trimNewlines data ++ "\n" ++ "# Managed by LukePanel\n/swapfile none swap sw 0 0\n" := by
    rw [appendFstabLine, h, if_neg Bool.false_ne_true]
    refine String.toList_injective ?_
    simp only [String.toList_append, List.append_assoc]
    rfl
  have hlast : split '\n' "# Managed by LukePanel\n/swapfile none swap sw 0 0\n" =
      [marker, swapLine, ""] := by decide +kernel
  rw [htext, split_append_newline, hlast]

theorem swapEntries_of_not_contains (h : contains data "/swapfile" = false) :
    swapEntries data = [] := by
  refine List.filter_eq_nil_iff.mpr fun line hline hfor => ?_
  have hinfix := (infix_of_isFor hfor).trans (infix_of_mem_split hline)
  rw [contains, decide_eq_true hinfix] at h
  cases h

/-- **After an append there is one entry** if and only if the file did not hold the name at all, or
held one entry. -/
theorem append_iff : (swapEntries (appendFstabLine swapLine data)).length = 1 ↔
    (contains data "/swapfile" = true → (swapEntries data).length = 1) := by
  cases hcontains : contains data "/swapfile" with
  | true =>
    rw [appendFstabLine_of_contains hcontains]
    exact ⟨fun h _ => h, fun h => h rfl⟩
  | false =>
    refine ⟨fun _ h => Bool.noConfusion h, fun _ => ?_⟩
    have hbefore : (split '\n' (trimNewlines data)).filter (isFor "/swapfile") = [] := by
      rw [filter_split_trimNewlines isFor_blank]
      exact swapEntries_of_not_contains hcontains
    have hnew : [marker, swapLine, ""].filter (isFor "/swapfile") = [swapLine] := by decide
    rw [swapEntries, split_appendFstabLine hcontains, List.filter_append, hbefore, hnew]
    rfl

/-- An append keeps all other entries. -/
theorem otherEntries_appendFstabLine (data : String) :
    otherEntries (appendFstabLine swapLine data) = otherEntries data := by
  cases hcontains : contains data "/swapfile" with
  | true => rw [appendFstabLine_of_contains hcontains]
  | false =>
    have hnew : [marker, swapLine, ""].filter (isOther "/swapfile") = [] := by decide
    rw [otherEntries, split_appendFstabLine hcontains, List.filter_append, hnew, List.append_nil,
      filter_split_trimNewlines (isOther_blank _)]
    rfl

/-! ## Removing -/

/-- **After a removal there is no entry** if and only if a blank stood behind the name in each. -/
theorem remove_iff : swapEntries (removeFstabLine "/swapfile" data) = [] ↔
    ∀ line ∈ swapEntries data, hasPrefix (trimSpace line) "/swapfile " = true := by
  rw [swapEntries_removeFstabLine, List.filter_eq_nil_iff]
  simp

/-- A line is the marker, or starts with the name and a blank, or is blank behind a marker. -/
def Gone (before : List String) (line : String) : Prop :=
  trimSpace line = marker ∨ hasPrefix (trimSpace line) "/swapfile " = true ∨
    trimSpace line = "" ∧ ∃ earlier mark between, before = earlier ++ mark :: between ∧
      trimSpace mark = marker ∧ ∀ line ∈ between, hasPrefix (trimSpace line) "/swapfile " = true

theorem dropped_eq_false : dropped "/swapfile" (before.foldl (skips "/swapfile") false) line = false ↔
    ¬ Gone before line := by
  have hname : "/swapfile" ++ " " = "/swapfile " := by decide
  rw [← Bool.not_eq_true, dropped, Gone, ← hname, ← foldl_skips_iff]
  simp [and_comm, or_assoc]

/-- **A removal keeps all other entries** if and only if none of them is taken for one of the lines
that go. -/
theorem keptByRemove_iff : otherEntries (removeFstabLine "/swapfile" data) = otherEntries data ↔
    ∀ before line after, split '\n' data = before ++ line :: after →
      isOther "/swapfile" line = true → ¬ Gone before line := by
  unfold otherEntries
  rw [filter_split_removeFstabLine (isOther_blank _), filter_staying_eq_iff]
  simp only [dropped_eq_false]

/-! ## An append and then a removal -/

theorem staying_eq_self (hmarker : ∀ line ∈ lines, trimSpace line ≠ marker)
    (hname : ∀ line ∈ lines, hasPrefix (trimSpace line) (path ++ " ") = false) :
    staying path false lines = lines ∧ lines.foldl (skips path) false = false := by
  induction lines with
  | nil => exact ⟨rfl, rfl⟩
  | cons line rest ih =>
    rw [List.forall_mem_cons] at hmarker hname
    have hskips : skips path false line = false := by simp [skips, hmarker.1]
    have hdropped : dropped path false line = false := by simp [dropped, hmarker.1, hname.1]
    obtain ⟨hstay, hfold⟩ := ih hmarker.2 hname.2
    rw [staying_cons, List.foldl_cons, hskips, hdropped, hstay, hfold]
    exact ⟨rfl, rfl⟩

theorem hasPrefix_iff {s start : String} : hasPrefix s start = true ↔ start.toList <+: s.toList :=
  List.isPrefixOf_iff_prefix

theorem contains_of_hasPrefix (hline : line ∈ split '\n' data)
    (h : hasPrefix (trimSpace line) "/swapfile " = true) : contains data "/swapfile" = true := by
  obtain ⟨front, back, hparts⟩ := append_trimSpace_append line
  have hname : "/swapfile".toList <+: "/swapfile ".toList := ⟨[' '], rfl⟩
  have htrim : (trimSpace line).toList <:+: line.toList := by
    refine ⟨front.toList, back.toList, ?_⟩
    rw [← String.toList_append, ← String.toList_append, ← hparts]
  refine decide_eq_true ?_
  exact ((hname.trans (hasPrefix_iff.mp h)).isInfix.trans htrim).trans (infix_of_mem_split hline)

/-- **An append and then a removal give the file back**, up to newlines at its end, if and only if no
line starts with the name and a blank. -/
theorem restored_iff (hmarker : ∀ line ∈ split '\n' data, trimSpace line ≠ marker) :
    trimNewlines (removeFstabLine "/swapfile" (appendFstabLine swapLine data)) = trimNewlines data ↔
      ∀ line ∈ split '\n' data, hasPrefix (trimSpace line) "/swapfile " = false := by
  cases hcontains : contains data "/swapfile" with
  | true =>
    rw [appendFstabLine_of_contains hcontains]
    constructor
    · intro h
      have hgone : ∀ skip line, hasPrefix (trimSpace line) "/swapfile " = true →
          dropped "/swapfile" skip line = hasPrefix (trimSpace line) "/swapfile " := by
        intro skip line hline
        have hname : "/swapfile" ++ " " = "/swapfile " := by decide
        simp [dropped, hname, hline]
      have hlines := filter_split_congr (p := fun line => hasPrefix (trimSpace line) "/swapfile ")
        (by decide) h
      rw [filter_split_removeFstabLine (by decide), filter_staying hgone] at hlines
      intro line hline
      by_contra hnot
      rw [Bool.not_eq_false] at hnot
      have hmem : line ∈ (split '\n' data).filter fun line =>
          hasPrefix (trimSpace line) "/swapfile " := List.mem_filter.mpr ⟨hline, hnot⟩
      rw [← hlines] at hmem
      simp at hmem
    · intro h
      have hstay := (@staying_eq_self "/swapfile" _ hmarker h).1
      rw [removeFstabLine, hstay, join_split, trimNewlines_concat, trimNewlines_trimNewlines]
  | false =>
    have hnone : ∀ line ∈ split '\n' data, hasPrefix (trimSpace line) "/swapfile " = false := by
      intro line hline
      rw [← Bool.not_eq_true]
      intro h
      rw [contains_of_hasPrefix hline h] at hcontains
      cases hcontains
    refine ⟨fun _ => hnone, fun _ => ?_⟩
    obtain ⟨n, hn⟩ := split_trimNewlines data
    rw [hn, List.forall_mem_append] at hmarker hnone
    obtain ⟨hstay, hfold⟩ := @staying_eq_self "/swapfile" _ hmarker.1 hnone.1
    have hnew : staying "/swapfile" false [marker, swapLine, ""] = [] := by decide +kernel
    rw [removeFstabLine, split_appendFstabLine hcontains, staying_append, hstay, hfold, hnew,
      List.append_nil, join_split, trimNewlines_concat, trimNewlines_trimNewlines,
      trimNewlines_trimNewlines]

/-! ## Both functions -/

/-- What the text search and the syntax of the file have to agree on. -/
structure Agreeing (data : String) : Prop where
  /-- The name stands in one entry, or nowhere. -/
  found : contains data "/swapfile" = true → (swapEntries data).length = 1
  /-- A blank stands behind the name of an entry. -/
  separated : ∀ line ∈ swapEntries data, hasPrefix (trimSpace line) "/swapfile " = true
  /-- No other entry is one of the lines that go. -/
  others : ∀ before line after, split '\n' data = before ++ line :: after →
    isOther "/swapfile" line = true → ¬ Gone before line

end LukePanel.HostAdmin.Fstab
