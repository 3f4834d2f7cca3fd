import LukePanel.AptAdmin.DownloadSize

/-! # The preview of an upgrade -/
namespace LukePanel.AptAdmin.UpgradePreview
open LukePanel.Library LukePanel.Library.GoStrings LukePanel.Library.Words
open LukePanel.AptAdmin.Simulation LukePanel.AptAdmin.DownloadSize

/-! ## What `apt` prints -/

/-- A package, with the version that is installed in brackets. -/
def described (name : Text) : Option Text → Text
  | none => name
  | some version => name ++ " [".toList ++ version ++ [']']

inductive OutputLine where
  | inst (name : Text) (installed : Option Text) (rest : Text)
  | remv (name : Text) (installed : Option Text) (rest : Text)
  | need (fetch : Amount) (total : Option Amount)
  | other (text : Text)

namespace OutputLine

/-- Behind the package of an `Inst` line stands the version it gets, in parentheses. -/
def text : OutputLine → Text
  | inst name installed rest => "Inst ".toList ++ (described name installed ++ (" (".toList ++ rest))
  | remv name installed rest => "Remv ".toList ++ (described name installed ++ rest)
  | need fetch total => needText fetch total
  | other text => text

def line (l : OutputLine) : String := String.ofList l.text

def isInst : OutputLine → Bool
  | inst .. => true
  | _ => false

def isRemv : OutputLine → Bool
  | remv .. => true
  | _ => false

def isNeed : OutputLine → Bool
  | need .. => true
  | _ => false

/-- A line for a package that is installed and gets another version. -/
def isUpgrade : OutputLine → Bool
  | inst _ installed _ => installed.isSome
  | _ => false

def isNew (l : OutputLine) : Bool := l.isInst && !l.isUpgrade

def Word (text : Text) : Prop := text ≠ [] ∧ ∀ c ∈ text, isSpace c = false

/-- The line is one, and no other kind of line. -/
structure Valid (l : OutputLine) : Prop where
  line : '\n' ∉ l.text
  inst : ∀ name installed rest, l = .inst name installed rest → Word name
  remv : ∀ name installed rest, l = .remv name installed rest →
    Word name ∧ (rest = [] ∨ rest.head? = some ' ')
  other : ∀ text, l = .other text → ∀ word ∈ ["Inst", "Remv"],
    (words isSpace text).head? ≠ some word.toList
  need : "Need to get ".toList <:+: l.text → l.isNeed = true

end OutputLine

/-- An output, in which the download is stated once or not at all. -/
structure Output where
  lines : List OutputLine
  valid : ∀ l ∈ lines, l.Valid
  once : lines.countP OutputLine.isNeed ≤ 1

namespace Output

def text (o : Output) : String := join '\n' (o.lines.map OutputLine.line)

/-- The bytes that are still to be fetched. -/
def toFetch (o : Output) : ℚ :=
  match o.lines.find? OutputLine.isNeed with
  | some (.need fetch _) => fetch.inBytes
  | _ => 0

end Output

/-! ## A right preview -/

/-- The preview is what the output says: each `Inst` line adds one to one of two counts. -/
structure Right (o : Output) : Prop where
  each : ∀ l ∈ o.lines, l.isInst = true → ∀ p,
    (parseLine p l.line).upgradeCount = p.upgradeCount + (if l.isUpgrade then 1 else 0) ∧
      (parseLine p l.line).installCount = p.installCount + if l.isUpgrade then 0 else 1
  upgrades : (parseSimulation o.text).upgradeCount = o.lines.countP OutputLine.isUpgrade
  installs : (parseSimulation o.text).installCount = o.lines.countP OutputLine.isNew
  removals : (parseSimulation o.text).removeCount = o.lines.countP OutputLine.isRemv
  download : ((parseSimulation o.text).downloadBytes : ℚ) = o.toFetch

/-- Marked as installed are the lines of packages that are not. -/
def Marked (o : Output) : Prop :=
  ∀ l ∈ o.lines, l.isInst = true → (contains l.line "[installed]" = true ↔ l.isUpgrade = false)

/-- What is still to be fetched is nothing, or counted in bytes. -/
def Small (o : Output) : Prop :=
  ∀ fetch total, .need fetch total ∈ o.lines → fetch.unit = .bytes ∨ fetch.value = 0

/-! ## One turn of the loop -/

section

variable (p : Preflight) (line : String)

theorem countInst_upgrades : (countInst p line).upgradeCount =
    p.upgradeCount + if contains line "[installed]" then 0 else 1 := by
  unfold countInst
  simp only [apply_ite Preflight.upgradeCount, ite_self]
  split <;> rfl

theorem countInst_installs : (countInst p line).installCount =
    p.installCount + if contains line "[installed]" then 1 else 0 := by
  unfold countInst
  simp only [apply_ite Preflight.installCount, ite_self]
  split <;> rfl

theorem countInst_removals : (countInst p line).removeCount = p.removeCount := by
  unfold countInst
  simp only [apply_ite Preflight.removeCount, ite_self]

theorem countInst_download : (countInst p line).downloadBytes = p.downloadBytes := by
  unfold countInst
  simp only [apply_ite Preflight.downloadBytes, ite_self]

theorem parseLine_upgrades : (parseLine p line).upgradeCount =
    p.upgradeCount + if isStep "Inst" line && !contains line "[installed]" then 1 else 0 := by
  unfold parseLine
  simp only [apply_ite Preflight.upgradeCount, ite_self, countInst_upgrades]
  cases isStep "Inst" line <;> cases contains line "[installed]" <;> rfl

theorem parseLine_installs : (parseLine p line).installCount =
    p.installCount + if isStep "Inst" line && contains line "[installed]" then 1 else 0 := by
  unfold parseLine
  simp only [apply_ite Preflight.installCount, ite_self, countInst_installs]
  cases isStep "Inst" line <;> cases contains line "[installed]" <;> rfl

theorem parseLine_removals : (parseLine p line).removeCount =
    p.removeCount + if isStep "Remv" line then 1 else 0 := by
  unfold parseLine
  simp only [apply_ite Preflight.removeCount, ite_self, countInst_removals]
  cases isStep "Remv" line <;> rfl

theorem parseLine_download : (parseLine p line).downloadBytes =
    if contains line "Need to get " then parseHumanBytesBetween line "Need to get " " of archives"
    else p.downloadBytes := by
  unfold parseLine
  simp only [apply_ite Preflight.downloadBytes, ite_self, countInst_download]

end

/-- A count to which each line adds one or nothing. -/
theorem foldl_count {count : Preflight → ℕ} {counted : String → Bool}
    (h : ∀ p line, count (parseLine p line) = count p + if counted line then 1 else 0)
    (lines : List String) (p : Preflight) :
    count (lines.foldl parseLine p) = count p + lines.countP counted := by
  induction lines generalizing p with
  | nil => rfl
  | cons line lines ih =>
    rw [List.foldl_cons, ih, h, List.countP_cons, Nat.add_assoc, Nat.add_comm (lines.countP counted)]

/-! ## The kinds of lines -/

section

variable {l : OutputLine}

theorem head_words {first : Text} (hne : first ≠ []) (hfirst : ∀ c ∈ first, isSpace c = false)
    (rest : Text) : words isSpace (first ++ ' ' :: rest) = first :: words isSpace rest :=
  words_word_cons hne hfirst (by decide) rest

/-- A name with a space or nothing behind it is a word. -/
theorem words_ne_nil {name : Text} (h : OutputLine.Word name) {rest : Text}
    (hrest : rest = [] ∨ rest.head? = some ' ') : words isSpace (name ++ rest) ≠ [] := by
  rcases hrest with rfl | hrest
  · rw [List.append_nil, words_word h.1 h.2]
    exact List.cons_ne_nil _ _
  · obtain ⟨more, rfl⟩ := List.head?_eq_some_iff.mp hrest
    rw [head_words h.1 h.2]
    exact List.cons_ne_nil _ _

theorem described_eq (name : Text) (installed : Option Text) : ∃ more,
    described name installed = name ++ more ∧ (more = [] ∨ more.head? = some ' ') := by
  cases installed with
  | none => exact ⟨[], (List.append_nil name).symm, .inl rfl⟩
  | some version =>
    exact ⟨_, by rw [described, List.append_assoc, List.append_assoc], .inr rfl⟩

/-- A package is a word, whatever stands behind it. -/
theorem described_ne_nil {name : Text} (h : OutputLine.Word name) (installed : Option Text)
    {rest : Text} (hrest : rest = [] ∨ rest.head? = some ' ') :
    words isSpace (described name installed ++ rest) ≠ [] := by
  obtain ⟨more, heq, hmore⟩ := described_eq name installed
  rw [heq, List.append_assoc]
  refine words_ne_nil h ?_
  rcases hmore with rfl | hmore
  · exact hrest
  · exact .inr (by rw [List.head?_append, hmore]; rfl)

theorem isStep_of_words {word : String} {text : Text} {more : List Text}
    (h : words isSpace text = word.toList :: more) (hne : more ≠ []) :
    isStep word (String.ofList text) = true := by
  have hfields : fields (String.ofList text) = word :: more.map String.ofList := by
    have hwords : fields (String.ofList text) = (words isSpace text).map String.ofList := by
      rw [fields, String.toList_ofList, words]
    rw [hwords, h, List.map_cons, String.ofList_toList]
  have hlength : 0 < more.length := List.length_pos_iff.mpr hne
  rw [isStep, hfields, List.length_cons, List.length_map, decide_eq_true (by omega),
    List.head?_cons, decide_eq_true rfl, Bool.and_self]

theorem isStep_eq_false {word : String} {text : Text}
    (h : (words isSpace text).head? ≠ some word.toList) : isStep word (String.ofList text) = false := by
  have hwords : fields (String.ofList text) = (words isSpace text).map String.ofList := by
    rw [fields, String.toList_ofList, words]
  rw [isStep, Bool.and_eq_false_iff]
  refine .inr (decide_eq_false fun hhead => h ?_)
  rw [hwords, List.head?_map, Option.map_eq_some_iff] at hhead
  obtain ⟨first, hfirst, rfl⟩ := hhead
  rw [hfirst, String.toList_ofList]

theorem words_keyword (first : Text) (hne : first ≠ [])
    (hfirst : first.all (fun c => !isSpace c) = true) (rest : Text) :
    words isSpace (first ++ ' ' :: rest) = first :: words isSpace rest :=
  head_words hne (fun c hc => by simpa using List.all_eq_true.mp hfirst c hc) rest

theorem words_inst {name : Text} (installed : Option Text) (rest : Text)
    (hname : OutputLine.Word name) : ∃ more,
    words isSpace (OutputLine.inst name installed rest).text = "Inst".toList :: more ∧ more ≠ [] :=
  ⟨_, words_keyword "Inst".toList (by decide) (by decide) _,
    @described_ne_nil _ hname installed (" (".toList ++ rest) (.inr rfl)⟩

theorem words_remv {name : Text} (installed : Option Text) {rest : Text}
    (hname : OutputLine.Word name) (hrest : rest = [] ∨ rest.head? = some ' ') : ∃ more,
    words isSpace (OutputLine.remv name installed rest).text = "Remv".toList :: more ∧ more ≠ [] :=
  ⟨_, words_keyword "Remv".toList (by decide) (by decide) _, described_ne_nil hname installed hrest⟩

theorem words_need (fetch : Amount) (total : Option Amount) :
    (words isSpace (OutputLine.need fetch total).text).head? = some "Need".toList := by
  have hwords : words isSpace (OutputLine.need fetch total).text = "Need".toList :: _ :=
    words_keyword "Need".toList (by decide) (by decide)
      ("to get ".toList ++ (needBody fetch total ++ " of archives.".toList))
  rw [hwords]
  rfl

theorem isStep_inst (h : l.Valid) : isStep "Inst" l.line = l.isInst := by
  cases l with
  | inst name installed rest =>
    obtain ⟨more, hwords, hmore⟩ := words_inst installed rest (h.inst _ _ _ rfl)
    exact isStep_of_words hwords hmore
  | remv name installed rest =>
    obtain ⟨hname, hrest⟩ := h.remv _ _ _ rfl
    obtain ⟨more, hwords, -⟩ := words_remv installed hname hrest
    refine isStep_eq_false ?_
    rw [hwords, List.head?_cons]
    decide
  | need fetch total =>
    refine isStep_eq_false ?_
    rw [words_need]
    decide
  | other text => exact isStep_eq_false (h.other text rfl "Inst" (by decide))

theorem isStep_remv (h : l.Valid) : isStep "Remv" l.line = l.isRemv := by
  cases l with
  | inst name installed rest =>
    obtain ⟨more, hwords, -⟩ := words_inst installed rest (h.inst _ _ _ rfl)
    refine isStep_eq_false ?_
    rw [hwords, List.head?_cons]
    decide
  | remv name installed rest =>
    obtain ⟨hname, hrest⟩ := h.remv _ _ _ rfl
    obtain ⟨more, hwords, hmore⟩ := words_remv installed hname hrest
    exact isStep_of_words hwords hmore
  | need fetch total =>
    refine isStep_eq_false ?_
    rw [words_need]
    decide
  | other text => exact isStep_eq_false (h.other text rfl "Remv" (by decide))

theorem contains_need (h : l.Valid) : contains l.line "Need to get " = l.isNeed := by
  have hoccurs : contains l.line "Need to get " = true ↔ "Need to get ".toList <:+: l.text := by
    have hline : l.line.toList = l.text := String.toList_ofList
    rw [contains, hline, decide_eq_true_iff]
  cases hneed : l.isNeed with
  | false =>
    rw [← Bool.not_eq_true, hoccurs]
    intro hmem
    rw [h.need hmem] at hneed
    cases hneed
  | true =>
    rw [hoccurs]
    cases l with
    | need fetch total => exact (List.prefix_append _ _).isInfix
    | _ => cases hneed

end

/-! ## The whole output -/

section

variable {o : Output}

theorem split_text (o : Output) : split '\n' o.text = o.lines.map OutputLine.line ∨
    o.lines = [] ∧ split '\n' o.text = [""] := by
  by_cases hne : o.lines = []
  · refine .inr ⟨hne, ?_⟩
    rw [Output.text, hne]
    decide
  · refine .inl (split_join (by rwa [ne_eq, List.map_eq_nil_iff]) fun s hs => ?_)
    obtain ⟨l, hl, rfl⟩ := List.mem_map.mp hs
    rw [OutputLine.line, String.toList_ofList]
    exact (o.valid l hl).line

theorem parseLine_empty (p : Preflight) : parseLine p "" = p := by
  have hinst : isStep "Inst" "" = false := by decide +kernel
  have hremv : isStep "Remv" "" = false := by decide +kernel
  have hneed : contains "" "Need to get " = false := by decide +kernel
  have hafter : contains "" "After this operation, " = false := by decide +kernel
  rw [parseLine, hinst, hremv, hneed, hafter]
  rfl

/-- The loop over the lines. -/
def scanned (o : Output) : Preflight := (o.lines.map OutputLine.line).foldl parseLine .empty

theorem foldl_split (o : Output) : (split '\n' o.text).foldl parseLine .empty = scanned o := by
  rcases split_text o with h | ⟨hnil, h⟩
  · rw [h, scanned]
  · rw [h, scanned, hnil]
    exact parseLine_empty _

theorem count_lines {count : Preflight → ℕ} {counted : String → Bool} {kind : OutputLine → Bool}
    (h : ∀ p line, count (parseLine p line) = count p + if counted line then 1 else 0)
    (hempty : count .empty = 0) (hkind : ∀ l ∈ o.lines, counted l.line = kind l) :
    count (scanned o) = o.lines.countP kind := by
  rw [scanned, foldl_count h, hempty, Nat.zero_add, List.countP_map]
  exact List.countP_congr fun l hl => by rw [Function.comp_apply, hkind l hl]

theorem download_of_no_need {lines : List OutputLine} (hvalid : ∀ l ∈ lines, l.Valid)
    (hnone : ∀ l ∈ lines, l.isNeed = false) (p : Preflight) :
    ((lines.map OutputLine.line).foldl parseLine p).downloadBytes = p.downloadBytes := by
  induction lines generalizing p with
  | nil => rfl
  | cons l lines ih =>
    rw [List.forall_mem_cons] at hvalid hnone
    rw [List.map_cons, List.foldl_cons, ih hvalid.2 hnone.2, parseLine_download,
      contains_need hvalid.1, hnone.1, if_neg Bool.false_ne_true]

/-- Nothing is stated, or one line states it, from which it is read. -/
theorem scanned_download (o : Output) :
    (∀ fetch total, .need fetch total ∉ o.lines) ∧ (scanned o).downloadBytes = 0 ∧ o.toFetch = 0 ∨
      ∃ fetch total,
        (∀ fetch' total', .need fetch' total' ∈ o.lines ↔ fetch' = fetch ∧ total' = total) ∧
        (scanned o).downloadBytes = downloaded fetch total ∧ o.toFetch = fetch.inBytes := by
  cases hfind : o.lines.find? OutputLine.isNeed with
  | none =>
    rw [List.find?_eq_none] at hfind
    have hnone : ∀ l ∈ o.lines, l.isNeed = false := fun l hl => Bool.eq_false_iff.mpr (hfind l hl)
    refine .inl ⟨fun fetch total hmem => absurd rfl (hfind _ hmem), ?_, ?_⟩
    · rw [scanned, download_of_no_need o.valid hnone]
      rfl
    · rw [Output.toFetch, List.find?_eq_none.mpr hfind]
  | some l =>
    obtain ⟨hneed, before, after, hlines, hbefore⟩ := List.find?_eq_some_iff_append.mp hfind
    obtain ⟨fetch, total, rfl⟩ : ∃ fetch total, l = .need fetch total := by
      cases l with
      | need fetch total => exact ⟨fetch, total, rfl⟩
      | _ => cases hneed
    have hbefore : ∀ l ∈ before, l.isNeed = false := fun l hl => by simpa using hbefore l hl
    have hafter : ∀ l ∈ after, l.isNeed = false := by
      have honce := o.once
      rw [hlines, List.countP_append, List.countP_cons_of_pos hneed] at honce
      have hzero : after.countP OutputLine.isNeed = 0 := by omega
      exact fun l hl => Bool.eq_false_iff.mpr (List.countP_eq_zero.mp hzero l hl)
    have hvalid := o.valid
    rw [hlines, List.forall_mem_append, List.forall_mem_cons] at hvalid
    refine .inr ⟨fetch, total, fun fetch' total' => ?_, ?_, by rw [Output.toFetch, hfind]⟩
    · rw [hlines, List.mem_append, List.mem_cons]
      constructor
      · rintro (hmem | heq | hmem)
        · exact absurd (hbefore _ hmem) Bool.noConfusion
        · cases heq
          exact ⟨rfl, rfl⟩
        · exact absurd (hafter _ hmem) Bool.noConfusion
      · rintro ⟨rfl, rfl⟩
        exact .inr (.inl rfl)
    · have hcontains := contains_need hvalid.2.1
      rw [scanned, hlines, List.map_append, List.foldl_append, List.map_cons, List.foldl_cons,
        download_of_no_need hvalid.2.2 hafter, parseLine_download, hcontains, if_pos hneed]
      exact parse_need fetch total

theorem parse_counts (o : Output) :
    (parseSimulation o.text).upgradeCount = (scanned o).upgradeCount ∧
    (parseSimulation o.text).installCount = (scanned o).installCount ∧
    (parseSimulation o.text).removeCount = (scanned o).removeCount ∧
    (parseSimulation o.text).downloadBytes = (scanned o).downloadBytes := by
  rw [parseSimulation, foldl_split]
  exact ⟨rfl, rfl, rfl, rfl⟩

theorem download_iff (o : Output) :
    ((parseSimulation o.text).downloadBytes : ℚ) = o.toFetch ↔ Small o := by
  rw [(parse_counts o).2.2.2]
  rcases scanned_download o with ⟨hnone, hread, hfetch⟩ | ⟨fetch, total, honly, hread, hfetch⟩
  · rw [hread, hfetch]
    exact iff_of_true Int.cast_zero fun fetch total hmem => absurd hmem (hnone fetch total)
  · rw [hread, hfetch, downloaded_eq_iff]
    constructor
    · intro h fetch' total' hmem
      rw [((honly fetch' total').mp hmem).1]
      exact h
    · exact fun h => h fetch total ((honly fetch total).mpr ⟨rfl, rfl⟩)

theorem removals_right (o : Output) :
    (parseSimulation o.text).removeCount = o.lines.countP OutputLine.isRemv := by
  rw [(parse_counts o).2.2.1]
  exact count_lines parseLine_removals rfl fun l hl => isStep_remv (o.valid l hl)

/-- Upgrades are the `Inst` lines without the mark. -/
theorem upgrades_eq (o : Output) : (parseSimulation o.text).upgradeCount =
    o.lines.countP fun l => l.isInst && !contains l.line "[installed]" := by
  rw [(parse_counts o).1]
  exact count_lines parseLine_upgrades rfl fun l hl => by rw [isStep_inst (o.valid l hl)]

theorem installs_eq (o : Output) : (parseSimulation o.text).installCount =
    o.lines.countP fun l => l.isInst && contains l.line "[installed]" := by
  rw [(parse_counts o).2.1]
  exact count_lines parseLine_installs rfl fun l hl => by rw [isStep_inst (o.valid l hl)]

theorem isUpgrade_inst {l : OutputLine} (h : l.isInst = false) : l.isUpgrade = false := by
  cases l with
  | inst => cases h
  | _ => rfl

/-- The mark on a line tells what it is counted as. -/
theorem marked_counted {l : OutputLine}
    (hmarked : l.isInst = true → (contains l.line "[installed]" = true ↔ l.isUpgrade = false)) :
    (l.isInst && !contains l.line "[installed]") = l.isUpgrade ∧
      (l.isInst && contains l.line "[installed]") = l.isNew := by
  rw [OutputLine.isNew]
  cases hinst : l.isInst with
  | false =>
    rw [isUpgrade_inst hinst]
    exact ⟨rfl, rfl⟩
  | true =>
    have hiff := hmarked hinst
    cases hmark : contains l.line "[installed]" with
    | true =>
      rw [hiff.mp hmark]
      exact ⟨rfl, rfl⟩
    | false =>
      have hupgrade : l.isUpgrade = true := by
        rw [← Bool.not_eq_false, ← hiff, hmark]
        exact Bool.false_ne_true
      rw [hupgrade]
      exact ⟨rfl, rfl⟩

theorem each_iff (o : Output) : (∀ l ∈ o.lines, l.isInst = true → ∀ p,
    (parseLine p l.line).upgradeCount = p.upgradeCount + (if l.isUpgrade then 1 else 0) ∧
      (parseLine p l.line).installCount = p.installCount + if l.isUpgrade then 0 else 1) ↔
    Marked o := by
  refine forall₂_congr fun l hl => forall_congr' fun hinst => ?_
  have hstep : isStep "Inst" l.line = true := (isStep_inst (o.valid l hl)).trans hinst
  have : Nonempty Preflight := ⟨.empty⟩
  simp only [parseLine_upgrades, parseLine_installs, hstep, Bool.true_and]
  cases contains l.line "[installed]" <;> cases l.isUpgrade <;> simp

theorem not_right_of_unmarked (h : ¬ Marked o) : ¬ Right o :=
  fun hright => h ((each_iff o).mp hright.each)

/-- The preview is right, if and only if each `Inst` line is marked as installed exactly when it has
no installed version, and nothing but bytes is to be fetched. -/
theorem preview_iff (o : Output) : Right o ↔ Marked o ∧ Small o := by
  constructor
  · exact fun h => ⟨(each_iff o).mp h.each, (download_iff o).mp h.download⟩
  · rintro ⟨hmarked, hsmall⟩
    refine ⟨(each_iff o).mpr hmarked, ?_, ?_, removals_right o, (download_iff o).mpr hsmall⟩
    · rw [upgrades_eq]
      exact List.countP_congr fun l hl => by rw [(marked_counted (hmarked l hl)).1]
    · rw [installs_eq]
      exact List.countP_congr fun l hl => by rw [(marked_counted (hmarked l hl)).2]

end

/-! ## A new package and a download that is there in part -/

theorem inst_valid {name : Text} {installed : Option Text} {rest : Text} (hne : name ≠ [])
    (hname : name.all (fun c => !isSpace c) = true)
    (hline : '\n' ∉ (OutputLine.inst name installed rest).text)
    (hneed : ¬ "Need to get ".toList <:+: (OutputLine.inst name installed rest).text) :
    (OutputLine.inst name installed rest).Valid where
  line := hline
  inst := by
    rintro name installed rest ⟨⟩
    exact ⟨hne, fun c hc => by simpa using List.all_eq_true.mp hname c hc⟩
  remv := nofun
  other := nofun
  need h := absurd h hneed

def openssl : OutputLine :=
  .inst "openssl".toList (some "1.0".toList) "1.1 Debian:stable [amd64])".toList

/-- A new package, as `apt` describes it. -/
def curl : OutputLine := .inst "curl".toList none "8.0 Debian:stable [amd64])".toList

def part : Amount := ⟨"12".toList, 12, some 3, .mega, by decide, by decide, by decide, by decide⟩

def all : Amount := ⟨"45".toList, 45, some 6, .mega, by decide, by decide, by decide, by decide⟩

def preview : Output where
  lines := [openssl, curl, .need part (some all)]
  valid := by
    simp only [List.forall_mem_cons]
    refine ⟨?_, ?_, ⟨by decide, nofun, nofun, nofun, fun _ => rfl⟩, List.forall_mem_nil _⟩
    · exact inst_valid (by decide) (by decide) (by decide) (by decide +kernel)
    · exact inst_valid (by decide) (by decide) (by decide) (by decide +kernel)
  once := by decide

theorem preview_download : (parseSimulation preview.text).downloadBytes = 12 := by
  have hpart : OutputLine.need part (some all) ∈ preview.lines :=
    List.mem_cons_of_mem _ (List.mem_cons_of_mem _ List.mem_cons_self)
  rw [(parse_counts preview).2.2.2]
  rcases scanned_download preview with ⟨hnone, -⟩ | ⟨fetch, total, honly, hread, -⟩
  · exact absurd hpart (hnone _ _)
  · obtain ⟨rfl, rfl⟩ := (honly _ _).mp hpart
    rw [hread]
    decide +kernel

/-- Both packages are upgrades to it, and twelve bytes are to be fetched. -/
theorem preview_wrong : (parseSimulation preview.text).upgradeCount = 2 ∧
    (parseSimulation preview.text).installCount = 0 ∧
    (parseSimulation preview.text).downloadBytes = 12 ∧ ¬ Right preview := by
  have hopenssl : contains openssl.line "[installed]" = false := by decide +kernel
  have hcurl : contains curl.line "[installed]" = false := by decide +kernel
  have hlines : preview.lines = [openssl, curl, .need part (some all)] := rfl
  refine ⟨?_, ?_, preview_download, not_right_of_unmarked fun h => ?_⟩
  · rw [upgrades_eq, hlines]
    simp only [List.countP_cons, hopenssl, hcurl]
    rfl
  · rw [installs_eq, hlines]
    simp only [List.countP_cons, hopenssl, hcurl]
    rfl
  · have hmark := h curl (List.mem_cons_of_mem _ List.mem_cons_self) rfl
    rw [hcurl] at hmark
    exact absurd (hmark.mpr rfl) Bool.false_ne_true

end LukePanel.AptAdmin.UpgradePreview
