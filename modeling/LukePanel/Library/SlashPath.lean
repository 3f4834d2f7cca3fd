import LukePanel.Library.GoStrings

/-! # Slash-separated paths, cleaned lexically

`path.Clean` of the Go standard library on the elements of a path. A cleaned path that is not
rooted starts with the `..` it could not resolve, and names come after them. -/
namespace LukePanel.Library.SlashPath

/-- Elements of paths are compared. -/
instance lawfulBEqParts : LawfulBEq (List String) := inferInstance

/-- A cleaned path: whether it starts at the root, and its elements. No element is the path
`.` of a relative one and `/` of a rooted one. -/
structure CleanPath where
  rooted : Bool
  parts : List String
  deriving DecidableEq, Repr

/-- One element read by `Clean`; `parts` holds the last one first. -/
def push (rooted : Bool) (parts : List String) (part : String) : List String :=
  if part = "" ∨ part = "." then parts
  else if part = ".." then
    match parts with
    | [] => if rooted then [] else [".."]
    | last :: rest => if last = ".." then ".." :: parts else rest
  else part :: parts

def clean (s : String) : CleanPath :=
  let rooted := s.toList.head? = some '/'
  ⟨rooted, ((GoStrings.split '/' s).foldl (push rooted) []).reverse⟩

example : clean "a//b/../c/." = ⟨false, ["a", "c"]⟩ := by decide

/-- The text `path.Clean` returns. -/
def CleanPath.text (p : CleanPath) : String :=
  if p.rooted then "/" ++ "/".intercalate p.parts
  else if p.parts = [] then "." else "/".intercalate p.parts

/-- `path.Base` of the text. -/
def CleanPath.base (p : CleanPath) : String :=
  p.parts.getLast?.getD (if p.rooted then "/" else ".")

/-- The path climbs above its start. -/
def CleanPath.climbs (p : CleanPath) : Bool := p.parts.head? == some ".."

/-- An element that names an entry of a directory. -/
def Named (part : String) : Prop := part ≠ "" ∧ part ≠ "." ∧ part ≠ ".."

/-- The elements `push` collects, last one first: names on top of unresolved `..`. -/
def Pushed (rooted : Bool) (parts : List String) : Prop :=
  ∃ names n, parts = names ++ List.replicate n ".." ∧ (∀ part ∈ names, Named part) ∧
    (rooted = true → n = 0)

theorem pushed_push {rooted : Bool} {parts : List String} (part : String)
    (h : Pushed rooted parts) : Pushed rooted (push rooted parts part) := by
  obtain ⟨names, n, rfl, hnames, hroot⟩ := h
  unfold push
  split
  · exact ⟨names, n, rfl, hnames, hroot⟩
  · rename_i hplain
    split
    · cases names with
      | cons last rest =>
        have hlast := hnames last (List.mem_cons_self ..)
        simp only [List.cons_append, if_neg hlast.2.2]
        exact ⟨rest, n, rfl, fun p hp => hnames p (List.mem_cons_of_mem _ hp), hroot⟩
      | nil =>
        cases n with
        | zero =>
          cases rooted with
          | true => exact ⟨[], 0, rfl, nofun, fun _ => rfl⟩
          | false => exact ⟨[], 1, rfl, nofun, nofun⟩
        | succ n =>
          refine ⟨[], n + 2, ?_, nofun, fun hr => absurd (hroot hr) (Nat.succ_ne_zero n)⟩
          simp [List.replicate_succ]
    · rename_i hup
      refine ⟨part :: names, n, rfl, ?_, hroot⟩
      intro p hp
      rcases List.mem_cons.mp hp with rfl | hp
      · exact ⟨fun h => hplain (Or.inl h), fun h => hplain (Or.inr h), hup⟩
      · exact hnames p hp

theorem pushed_foldl {rooted : Bool} {parts : List String} (elements : List String)
    (h : Pushed rooted parts) : Pushed rooted (elements.foldl (push rooted) parts) := by
  induction elements generalizing parts with
  | nil => exact h
  | cons part rest ih => exact ih (pushed_push part h)

/-- A cleaned path is a run of `..`, none below the root, followed by names. -/
theorem clean_parts (s : String) : ∃ names n,
    (clean s).parts = List.replicate n ".." ++ names ∧ (∀ part ∈ names, Named part) ∧
      ((clean s).rooted = true → n = 0) := by
  have hpushed : Pushed (clean s).rooted ((GoStrings.split '/' s).foldl (push (clean s).rooted) []) :=
    pushed_foldl _ ⟨[], 0, rfl, nofun, fun _ => rfl⟩
  obtain ⟨names, n, hparts, hnames, hroot⟩ := hpushed
  refine ⟨names.reverse, n, ?_, fun part hp => hnames part (List.mem_reverse.mp hp), hroot⟩
  calc (clean s).parts = ((GoStrings.split '/' s).foldl (push (clean s).rooted) []).reverse := rfl
    _ = List.replicate n ".." ++ names.reverse := by
      rw [hparts, List.reverse_append, List.reverse_replicate]

/-- A cleaned path that does not climb is made of names: it stays below where it starts. -/
theorem named_of_not_climbs {s : String} (h : (clean s).climbs = false) :
    ∀ part ∈ (clean s).parts, Named part := by
  obtain ⟨names, n, hparts, hnames, _⟩ := clean_parts s
  cases n with
  | zero =>
    rw [hparts]
    exact hnames
  | succ n =>
    simp [CleanPath.climbs, hparts, List.replicate_succ] at h

/-! ## Joining names -/

/-- A name a directory entry can have. -/
def FileName (part : String) : Prop := Named part ∧ '/' ∉ part.toList

theorem push_named {part : String} (h : Named part) (rooted : Bool) (parts : List String) :
    push rooted parts part = part :: parts := by
  unfold push
  rw [if_neg (not_or.mpr ⟨h.1, h.2.1⟩), if_neg h.2.2]

theorem foldl_push_named {parts : List String} (h : ∀ part ∈ parts, Named part) (rooted : Bool)
    (before : List String) :
    parts.foldl (push rooted) before = parts.reverse ++ before := by
  induction parts generalizing before with
  | nil => rfl
  | cons part rest ih =>
    rw [List.foldl_cons, push_named (h part List.mem_cons_self),
      ih (fun p hp => h p (List.mem_cons_of_mem _ hp)), List.reverse_cons, List.append_assoc]
    rfl

/-- Elements joined by slashes are what `Clean` finds, if it collects them. -/
theorem clean_join_of_push {parts : List String} (hne : parts ≠ [])
    (hempty : ∀ part ∈ parts, part ≠ "") (hslash : ∀ part ∈ parts, '/' ∉ part.toList)
    (hpush : parts.foldl (push false) [] = parts.reverse) :
    clean (GoStrings.join '/' parts) = ⟨false, parts⟩ := by
  have hplain : ¬ (GoStrings.join '/' parts).toList.head? = some '/' := by
    cases parts with
    | nil => exact absurd rfl hne
    | cons part rest =>
      have hhead : ∃ more, (GoStrings.join '/' (part :: rest)).toList = part.toList ++ more := by
        cases rest with
        | nil => exact ⟨[], by simp [GoStrings.join]⟩
        | cons next rest => exact ⟨_, by simp [GoStrings.join, List.intercalate_cons_cons]; rfl⟩
      obtain ⟨more, hmore⟩ := hhead
      rw [hmore]
      cases hchars : part.toList with
      | nil => exact absurd (String.toList_eq_nil_iff.mp hchars) (hempty part List.mem_cons_self)
      | cons c cs =>
        have hnot := hslash part List.mem_cons_self
        rw [hchars] at hnot
        intro hc
        obtain rfl : c = '/' := Option.some.inj hc
        exact hnot List.mem_cons_self
  have hsplit := GoStrings.split_join hne hslash
  unfold clean
  simp only [hplain, decide_false, hsplit, hpush, List.reverse_reverse]

/-- The same behind the slash of the root. -/
theorem clean_root_join_of_push {parts : List String} (hslash : ∀ part ∈ parts, '/' ∉ part.toList)
    (hpush : parts.foldl (push true) [] = parts.reverse) :
    clean ("/" ++ GoStrings.join '/' parts) = ⟨true, parts⟩ := by
  have hchars : ("/" ++ GoStrings.join '/' parts).toList =
      '/' :: (GoStrings.join '/' parts).toList := by
    rw [String.toList_append]
    rfl
  have hsplit : GoStrings.split '/' ("/" ++ GoStrings.join '/' parts) =
      "" :: GoStrings.split '/' (GoStrings.join '/' parts) := by
    unfold GoStrings.split
    rw [hchars, List.splitOn_cons_eq_if_modifyHead, if_pos (beq_self_eq_true '/')]
    rfl
  have hparts : (GoStrings.split '/' (GoStrings.join '/' parts)).foldl (push true) [] = parts.reverse := by
    by_cases hne : parts = []
    · subst hne
      rfl
    · rw [GoStrings.split_join hne hslash, hpush]
  unfold clean
  simp only [hchars, List.head?_cons, decide_true, hsplit, List.foldl_cons]
  rw [show push true [] "" = [] from rfl, hparts, List.reverse_reverse]

/-- Names joined by slashes are what `Clean` finds. -/
theorem clean_join {parts : List String} (hne : parts ≠ []) (h : ∀ part ∈ parts, FileName part) :
    clean (GoStrings.join '/' parts) = ⟨false, parts⟩ :=
  clean_join_of_push hne (fun part hpart => (h part hpart).1.1) (fun part hpart => (h part hpart).2)
    (by rw [foldl_push_named fun part hpart => (h part hpart).1, List.append_nil])

/-- The same behind the slash of the root. -/
theorem clean_root_join {parts : List String} (h : ∀ part ∈ parts, FileName part) :
    clean ("/" ++ GoStrings.join '/' parts) = ⟨true, parts⟩ :=
  clean_root_join_of_push (fun part hpart => (h part hpart).2)
    (by rw [foldl_push_named fun part hpart => (h part hpart).1, List.append_nil])

/-! ## Cleaning twice -/

theorem push_no_slash {rooted : Bool} {parts : List String} {part : String}
    (hparts : ∀ p ∈ parts, '/' ∉ p.toList) (hpart : '/' ∉ part.toList) :
    ∀ p ∈ push rooted parts part, '/' ∉ p.toList := by
  have hup : '/' ∉ "..".toList := by decide
  unfold push
  split
  · exact hparts
  · split
    · cases parts with
      | nil => cases rooted <;> simp
      | cons last rest =>
        rw [List.forall_mem_cons] at hparts
        dsimp only
        split
        · exact List.forall_mem_cons.mpr ⟨hup, List.forall_mem_cons.mpr hparts⟩
        · exact hparts.2
    · exact List.forall_mem_cons.mpr ⟨hpart, hparts⟩

theorem foldl_push_no_slash {rooted : Bool} {parts elements : List String}
    (hparts : ∀ p ∈ parts, '/' ∉ p.toList) (helements : ∀ p ∈ elements, '/' ∉ p.toList) :
    ∀ p ∈ elements.foldl (push rooted) parts, '/' ∉ p.toList := by
  induction elements generalizing parts with
  | nil => exact hparts
  | cons part rest ih =>
    rw [List.forall_mem_cons] at helements
    exact ih (push_no_slash hparts helements.1) helements.2

theorem clean_no_slash (s : String) : ∀ p ∈ (clean s).parts, '/' ∉ p.toList := by
  intro p hp
  refine foldl_push_no_slash (fun p hp => absurd hp List.not_mem_nil) (fun p hp => ?_) p
    (List.mem_reverse.mp hp)
  exact GoStrings.sep_not_mem_of_mem_split hp

theorem foldl_push_up (n : ℕ) :
    (List.replicate n "..").foldl (push false) [] = List.replicate n ".." := by
  induction n with
  | zero => rfl
  | succ n ih =>
    rw [List.replicate_succ', List.foldl_append, ih, List.foldl_cons, List.foldl_nil,
      ← List.replicate_succ']
    cases n with
    | zero => rfl
    | succ n => rfl

/-- Elements that were cleaned are collected as they are. -/
theorem foldl_push_clean (s : String) :
    (clean s).parts.foldl (push (clean s).rooted) [] = (clean s).parts.reverse := by
  obtain ⟨names, n, hparts, hnames, hroot⟩ := clean_parts s
  rw [hparts, List.foldl_append, foldl_push_named hnames, List.reverse_append, List.reverse_replicate]
  congr 1
  cases hrooted : (clean s).rooted with
  | true =>
    rw [hroot hrooted]
    rfl
  | false => exact foldl_push_up n

theorem intercalate_eq_join (parts : List String) :
    "/".intercalate parts = GoStrings.join '/' parts := by
  refine String.toList_injective ?_
  rw [GoStrings.join, String.toList_ofList, String.toList_intercalate]
  rfl

/-- `Clean` leaves its own text as it is. -/
theorem clean_text (s : String) : clean (clean s).text = clean s := by
  have hpush := foldl_push_clean s
  have hslash := clean_no_slash s
  have hsame : clean s = ⟨(clean s).rooted, (clean s).parts⟩ := rfl
  rw [CleanPath.text, intercalate_eq_join]
  cases hrooted : (clean s).rooted with
  | true =>
    rw [hrooted] at hpush
    rw [if_pos rfl, clean_root_join_of_push hslash hpush, hsame, hrooted]
  | false =>
    rw [hrooted] at hpush
    rw [if_neg Bool.false_ne_true]
    by_cases hne : (clean s).parts = []
    · rw [if_pos hne, hsame, hrooted, hne]
      decide
    · have hempty : ∀ part ∈ (clean s).parts, part ≠ "" := by
        obtain ⟨names, n, hparts, hnames, -⟩ := clean_parts s
        intro part hpart
        rw [hparts] at hpart
        rcases List.mem_append.mp hpart with hup | hname
        · rw [(List.mem_replicate.mp hup).2]
          decide
        · exact (hnames part hname).1
      rw [if_neg hne, clean_join_of_push hne hempty hslash hpush, hsame, hrooted]

end LukePanel.Library.SlashPath
