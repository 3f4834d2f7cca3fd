import Mathlib.Algebra.GroupWithZero.Nat
import Mathlib.Data.List.Dedup
import Mathlib.Data.List.Infix
import Mathlib.Data.List.Sort
import Mathlib.Data.String.Basic
import LukePanel.Library.SlashPath

/-! # A file system

What is at each location, and how it changes: an entry is made, altered, moved or removed with
what is below it. Only directories have anything below them, and there are finitely many
locations with an entry. -/
namespace LukePanel.Library.FileSystem
open LukePanel.Library.SlashPath

/-- Where an entry is: the names from the root to it. -/
abbrev Loc := List String

abbrev Bytes := List UInt8

structure Mode where
  perm : BitVec 9
  setuid : Bool
  setgid : Bool
  sticky : Bool
  deriving DecidableEq

structure Attr where
  mode : Mode
  uid : Nat
  gid : Nat
  mtime : Nat
  deriving DecidableEq

/-- Attributes with permissions only. -/
def Attr.ofPerm (perm : BitVec 9) : Attr := ⟨⟨perm, false, false, false⟩, 0, 0, 0⟩

inductive Special where
  | fifo
  | socket
  | char (device : Nat)
  | block (device : Nat)
  deriving DecidableEq

inductive Entry where
  | dir (attr : Attr)
  | file (attr : Attr) (content : Bytes)
  | link (target : String)
  | special (attr : Attr) (kind : Special)
  deriving DecidableEq

namespace Entry

def isDir : Entry → Bool
  | .dir _ => true
  | _ => false

def isLink : Entry → Bool
  | .link _ => true
  | _ => false

/-- How many bytes a file holds. -/
def size : Entry → Nat
  | .file _ content => content.length
  | _ => 0

/-- An entry with other attributes; those of a link are not kept. -/
def withAttr (f : Attr → Attr) : Entry → Entry
  | .dir attr => .dir (f attr)
  | .file attr content => .file (f attr) content
  | .link target => .link target
  | .special attr kind => .special (f attr) kind

/-- A file with other content. -/
def withContent (f : Bytes → Bytes) : Entry → Entry
  | .file attr content => .file attr (f content)
  | e => e

/-- A directory with another time. -/
def stamped (time : Nat) : Entry → Entry
  | .dir attr => .dir { attr with mtime := time }
  | e => e

/-- The time of a directory, which changes with every entry made or removed in it, left out. -/
def untimed : Entry → Entry
  | .dir attr => .dir { attr with mtime := 0 }
  | e => e

@[simp] theorem untimed_stamped (time : Nat) (e : Entry) : (e.stamped time).untimed = e.untimed := by
  cases e <;> rfl

end Entry

inductive Errno where
  | ENOENT
  | EEXIST
  | ENOTDIR
  | EISDIR
  | ENOTEMPTY
  | EXDEV
  | EINVAL
  | ELOOP
  | ENAMETOOLONG
  | EPERM
  | EINTR
  | other (code : Nat)
  deriving DecidableEq, Repr

/-- A name an entry may have. -/
def ValidName (name : String) : Prop :=
  FileName name ∧ '\x00' ∉ name.toList ∧ name.utf8ByteSize ≤ 255

instance (name : String) : Decidable (FileName name) :=
  inferInstanceAs (Decidable ((name ≠ "" ∧ name ≠ "." ∧ name ≠ "..") ∧ '/' ∉ name.toList))

instance (name : String) : Decidable (ValidName name) := inferInstanceAs (Decidable (_ ∧ _ ∧ _))

structure Fs where
  entry : Loc → Option Entry
  known : List Loc
  complete : ∀ l e, entry l = some e → l ∈ known
  root : ∃ attr, entry [] = some (.dir attr)
  parent : ∀ l name e, entry (l ++ [name]) = some e → ∃ attr, entry l = some (.dir attr)
  named : ∀ l name e, entry (l ++ [name]) = some e → ValidName name

namespace Fs

/-! ## Changes -/

/-- A free place in a directory. -/
structure Vacant (fs : Fs) where
  dir : Loc
  name : String
  attr : Attr
  isDir : fs.entry dir = some (.dir attr)
  free : fs.entry (dir ++ [name]) = none
  valid : ValidName name

def Vacant.loc {fs : Fs} (v : fs.Vacant) : Loc := v.dir ++ [v.name]

def create (fs : Fs) (v : fs.Vacant) (e : Entry) : Fs where
  entry l := if l = v.loc then some e else fs.entry l
  known := v.loc :: fs.known
  complete l e' h := by
    by_cases hl : l = v.loc
    · exact hl ▸ List.mem_cons_self
    · rw [if_neg hl] at h
      exact List.mem_cons_of_mem _ (fs.complete l e' h)
  root := by
    rw [if_neg (by simp [Vacant.loc])]
    exact fs.root
  parent l name e' h := by
    have hdir : fs.entry v.loc = none := v.free
    by_cases hl : l ++ [name] = v.loc
    · obtain ⟨rfl, -⟩ := List.append_inj' hl rfl
      exact ⟨v.attr, by rw [if_neg (by simp [Vacant.loc])]; exact v.isDir⟩
    · rw [if_neg hl] at h
      obtain ⟨attr, hattr⟩ := fs.parent l name e' h
      refine ⟨attr, ?_⟩
      rw [if_neg (fun heq => ?_)]
      · exact hattr
      · rw [heq, hdir] at hattr
        cases hattr
  named l name e' h := by
    by_cases hl : l ++ [name] = v.loc
    · obtain ⟨-, hname⟩ := List.append_inj' hl rfl
      obtain rfl := List.singleton_inj.mp hname
      exact v.valid
    · rw [if_neg hl] at h
      exact fs.named l name e' h

/-- The entry at one location changes; a directory stays one. -/
def alter (fs : Fs) (l : Loc) (f : Entry → Entry) (hf : ∀ attr, ∃ attr', f (.dir attr) = .dir attr') :
    Fs where
  entry l' := if l' = l then (fs.entry l).map f else fs.entry l'
  known := fs.known
  complete l' e h := by
    split at h
    · rename_i hl
      obtain ⟨e', he', -⟩ := Option.map_eq_some_iff.mp h
      exact fs.complete l' e' (hl ▸ he')
    · exact fs.complete l' e h
  root := by
    obtain ⟨attr, hattr⟩ := fs.root
    split
    · rename_i hl
      obtain ⟨attr', hattr'⟩ := hf attr
      exact ⟨attr', by rw [← hl, hattr, Option.map_some, hattr']⟩
    · exact ⟨attr, hattr⟩
  parent l' name e h := by
    have hsome : ∃ e', fs.entry (l' ++ [name]) = some e' := by
      split at h
      · rename_i hl
        obtain ⟨e', he', -⟩ := Option.map_eq_some_iff.mp h
        exact ⟨e', hl ▸ he'⟩
      · exact ⟨e, h⟩
    obtain ⟨e', he'⟩ := hsome
    obtain ⟨attr, hattr⟩ := fs.parent l' name e' he'
    split
    · rename_i hl
      obtain ⟨attr', hattr'⟩ := hf attr
      exact ⟨attr', by rw [← hl, hattr, Option.map_some, hattr']⟩
    · exact ⟨attr, hattr⟩
  named l' name e h := by
    split at h
    · rename_i hl
      obtain ⟨e', he', -⟩ := Option.map_eq_some_iff.mp h
      exact fs.named l' name e' (hl ▸ he')
    · exact fs.named l' name e h

/-- The entry at a location and what is below it go, but for what lies on the way to a location
that is left. -/
def erase (fs : Fs) (l : Loc) (hl : l ≠ []) (left : List Loc) : Fs where
  entry l' := if l <+: l' ∧ ∀ s ∈ left, ¬ l' <+: s then none else fs.entry l'
  known := fs.known
  complete l' e h := by
    split at h
    · cases h
    · exact fs.complete l' e h
  root := by
    rw [if_neg fun h => hl (List.prefix_nil.mp h.1)]
    exact fs.root
  parent l' name e h := by
    split at h
    · cases h
    · rename_i hkeep
      obtain ⟨attr, hattr⟩ := fs.parent l' name e h
      refine ⟨attr, ?_⟩
      rw [if_neg fun hgone => hkeep ?_]
      · exact hattr
      · have hpre : l' <+: l' ++ [name] := List.prefix_append l' [name]
        exact ⟨hgone.1.trans hpre, fun s hs hle => hgone.2 s hs (hpre.trans hle)⟩
  named l' name e h := by
    split at h
    · cases h
    · exact fs.named l' name e h

/-- A place a location can be moved to. -/
structure Target (fs : Fs) (src : Loc) where
  dir : Loc
  name : String
  attr : Attr
  isDir : fs.entry dir = some (.dir attr)
  valid : ValidName name
  outside : ¬ src <+: dir ++ [name]

def Target.loc {fs : Fs} {src : Loc} (t : fs.Target src) : Loc := t.dir ++ [t.name]

/-- The entry at a location and what is below it move; what was at the target is replaced. -/
def move (fs : Fs) (src : Loc) (hsrc : src ≠ []) (t : fs.Target src) : Fs where
  entry l :=
    if t.loc <+: l then fs.entry (src ++ l.drop t.loc.length)
    else if src <+: l then none else fs.entry l
  known := fs.known ++ fs.known.map fun l => t.loc ++ l.drop src.length
  complete l e h := by
    split at h
    · rename_i hpre
      obtain ⟨below, rfl⟩ := hpre
      rw [List.drop_left] at h
      refine List.mem_append_right _ (List.mem_map.mpr ⟨_, fs.complete _ _ h, ?_⟩)
      rw [List.drop_left]
    · split at h
      · cases h
      · exact List.mem_append_left _ (fs.complete l e h)
  root := by
    rw [if_neg fun h => by simpa [Target.loc] using List.prefix_nil.mp h,
      if_neg fun h => hsrc (List.prefix_nil.mp h)]
    exact fs.root
  parent l name e h := by
    by_cases hpre : t.loc <+: l
    · rw [if_pos (hpre.trans (List.prefix_append l [name]))] at h
      obtain ⟨below, rfl⟩ := hpre
      rw [if_pos (List.prefix_append _ _), List.drop_left]
      rw [List.append_assoc, List.drop_left, ← List.append_assoc] at h
      exact fs.parent _ name e h
    · rw [if_neg hpre]
      by_cases hloc : t.loc = l ++ [name]
      · obtain ⟨hdir, -⟩ := List.append_inj' hloc rfl
        rw [← hdir, if_neg fun hsub => t.outside (hsub.trans (List.prefix_append _ _))]
        exact ⟨t.attr, t.isDir⟩
      · rw [if_neg fun hle => (List.prefix_concat_iff.mp hle).elim hloc hpre] at h
        split at h
        · cases h
        · rename_i hout
          rw [if_neg fun hsub => hout (hsub.trans (List.prefix_append _ _))]
          exact fs.parent l name e h
  named l name e h := by
    by_cases hpre : t.loc <+: l
    · rw [if_pos (hpre.trans (List.prefix_append l [name]))] at h
      obtain ⟨below, rfl⟩ := hpre
      rw [List.append_assoc, List.drop_left, ← List.append_assoc] at h
      exact fs.named _ name e h
    · by_cases hloc : t.loc = l ++ [name]
      · obtain ⟨-, hname⟩ := List.append_inj' hloc rfl
        obtain rfl := List.singleton_inj.mp hname
        exact t.valid
      · rw [if_neg fun hle => (List.prefix_concat_iff.mp hle).elim hloc hpre] at h
        split at h
        · cases h
        · exact fs.named l name e h

/-! ## File systems given by their entries -/

/-- The entries have their directories and valid names. -/
def listed (items : List (Loc × Entry)) : Bool :=
  (items.lookup []).any Entry.isDir && items.all fun item =>
    item.1 = [] || ((items.lookup item.1.dropLast).any Entry.isDir &&
      decide (ValidName (item.1.getLast?.getD "")))

theorem dir_of_any {e : Option Entry} (h : e.any Entry.isDir = true) : ∃ attr, e = some (.dir attr) := by
  cases e with
  | none => cases h
  | some e =>
    cases e with
    | dir attr => exact ⟨attr, rfl⟩
    | _ => cases h

theorem mem_of_lookup {items : List (Loc × Entry)} {l : Loc} {e : Entry}
    (h : items.lookup l = some e) : (l, e) ∈ items := by
  induction items with
  | nil => cases h
  | cons item rest ih =>
    rw [List.lookup_cons] at h
    split at h
    · rename_i heq
      obtain rfl : l = item.1 := eq_of_beq heq
      cases h
      exact List.mem_cons_self
    · exact List.mem_cons_of_mem _ (ih h)

theorem below_of_listed {items : List (Loc × Entry)} {l : Loc} {name : String} {e : Entry}
    (hitems : listed items = true) (h : items.lookup (l ++ [name]) = some e) :
    (items.lookup l).any Entry.isDir = true ∧ ValidName name := by
  have hitem := List.all_eq_true.mp (Bool.and_eq_true_iff.mp hitems).2 _ (mem_of_lookup h)
  have hne : ¬ l ++ [name] = [] := by simp
  simpa only [decide_eq_false hne, Bool.false_or, Bool.and_eq_true, decide_eq_true_eq,
    List.dropLast_concat, List.getLast?_concat, Option.getD_some] using hitem

def ofItems (items : List (Loc × Entry)) (hitems : listed items = true) : Fs where
  entry l := items.lookup l
  known := items.map Prod.fst
  complete _ _ h := List.mem_map_of_mem (mem_of_lookup h)
  root := dir_of_any (Bool.and_eq_true_iff.mp hitems).1
  parent _ _ _ h := dir_of_any (below_of_listed hitems h).1
  named _ _ _ h := (below_of_listed hitems h).2

/-! ## What is where -/

variable {fs : Fs} {l : Loc} {e : Entry}

theorem dir_of_below {k : Loc} (hk : k ≠ []) (h : fs.entry (l ++ k) = some e) :
    ∃ attr, fs.entry l = some (.dir attr) := by
  induction k using List.reverseRecOn generalizing e with
  | nil => exact absurd rfl hk
  | append_singleton k name ih =>
    rw [← List.append_assoc] at h
    obtain ⟨attr, hattr⟩ := fs.parent _ name e h
    by_cases hnil : k = []
    · exact ⟨attr, by simpa [hnil] using hattr⟩
    · exact ih hnil hattr

theorem valid_of_mem (h : fs.entry l = some e) : ∀ name ∈ l, ValidName name := by
  induction l using List.reverseRecOn generalizing e with
  | nil => exact nofun
  | append_singleton l name ih =>
    obtain ⟨attr, hattr⟩ := fs.parent l name e h
    intro other hmem
    rcases List.mem_append.mp hmem with hl | hn
    · exact ih hattr other hl
    · obtain rfl := List.mem_singleton.mp hn
      exact fs.named l other e h

theorem none_of_below {k : Loc} (h : ∀ attr, fs.entry l ≠ some (.dir attr)) (hk : k ≠ []) :
    fs.entry (l ++ k) = none := by
  cases hentry : fs.entry (l ++ k) with
  | none => rfl
  | some e =>
    obtain ⟨attr, hattr⟩ := dir_of_below hk hentry
    exact absurd hattr (h attr)

theorem none_of_none {k : Loc} (h : fs.entry l = none) : fs.entry (l ++ k) = none := by
  by_cases hk : k = []
  · rw [hk, List.append_nil, h]
  · exact none_of_below (fun attr heq => by rw [h] at heq; cases heq) hk

/-- The names in a directory, sorted. -/
def names (fs : Fs) (l : Loc) : List String :=
  ((fs.known.filterMap fun k =>
    if k.dropLast = l ∧ (fs.entry k).isSome then k.getLast? else none).dedup).insertionSort (· ≤ ·)

theorem mem_names {name : String} : name ∈ fs.names l ↔ ∃ e, fs.entry (l ++ [name]) = some e := by
  unfold names
  rw [List.mem_insertionSort, List.mem_dedup, List.mem_filterMap]
  constructor
  · rintro ⟨k, -, hk⟩
    split at hk
    · rename_i hcond
      obtain ⟨rfl, hsome⟩ := hcond
      have hne : k ≠ [] := by
        rintro rfl
        cases hk
      rw [List.getLast?_eq_some_getLast hne, Option.some.injEq] at hk
      rw [← hk, List.dropLast_append_getLast hne]
      exact Option.isSome_iff_exists.mp hsome
    · cases hk
  · rintro ⟨e, he⟩
    refine ⟨l ++ [name], fs.complete _ e he, ?_⟩
    rw [if_pos ⟨by simp, by rw [he]; rfl⟩]
    simp

theorem nodup_names : (fs.names l).Nodup :=
  (List.perm_insertionSort _ _).nodup_iff.mpr (List.nodup_dedup _)

theorem sorted_names : (fs.names l).Pairwise (· < ·) :=
  (List.pairwise_insertionSort (· ≤ ·) _).imp₂ (fun _ _ => lt_of_le_of_ne) nodup_names

/-- The sorted names of the entries in a directory. -/
theorem names_eq {names : List String} (hsorted : names.Pairwise (· < ·))
    (hnames : ∀ name, name ∈ names ↔ ∃ e, fs.entry (l ++ [name]) = some e) : fs.names l = names :=
  sorted_names.eq_of_mem_iff hsorted fun name => mem_names.trans (hnames name).symm

/-! ## What files hold -/

/-- The bytes of the files at a location and below it. -/
def bytesBelow (fs : Fs) (l : Loc) : Nat :=
  ((fs.known.dedup.filter (l <+: ·)).map fun k => ((fs.entry k).elim 0 Entry.size)).sum

theorem sum_filter_ne_zero {α : Type} (f : α → Nat) (xs : List α) :
    ((xs.filter (f · ≠ 0)).map f).sum = (xs.map f).sum := by
  induction xs with
  | nil => rfl
  | cons x rest ih => by_cases hx : f x = 0 <;> simp_all

/-- Files that are listed with what they hold: together they hold no more. -/
theorem bytesBelow_le {files : List (Loc × Nat)}
    (h : ∀ k attr content, l <+: k → fs.entry k = some (.file attr content) →
      (k, content.length) ∈ files) : fs.bytesBelow l ≤ (files.map Prod.snd).sum := by
  let size : Loc → Nat := fun k => (fs.entry k).elim 0 Entry.size
  let found := (fs.known.dedup.filter (l <+: ·)).filter (size · ≠ 0)
  have hnodup : (found.map fun k => (k, size k)).Nodup :=
    (((List.nodup_dedup _).filter _).filter _).map fun k k' heq => (Prod.mk.inj heq).1
  have hsub : (found.map fun k => (k, size k)) ⊆ files := by
    intro pair hpair
    obtain ⟨k, hk, rfl⟩ := List.mem_map.mp hpair
    obtain ⟨hbelow, hsize⟩ := List.mem_filter.mp hk
    have hpre : l <+: k := by simpa using (List.mem_filter.mp hbelow).2
    have hne : size k ≠ 0 := by simpa using hsize
    cases he : fs.entry k with
    | none => exact absurd (by simp [size, he]) hne
    | some e =>
      cases e with
      | file attr content =>
        have hmem := h k attr content hpre he
        simpa [size, he, Entry.size] using hmem
      | _ => exact absurd (by simp [size, he, Entry.size]) hne
  obtain ⟨some', hperm, hsublist⟩ := List.subperm_of_subset hnodup hsub
  obtain ⟨others, hothers⟩ := (hsublist.map Prod.snd).exists_perm_append
  have hsum : (found.map size).sum = fs.bytesBelow l := sum_filter_ne_zero size _
  calc fs.bytesBelow l = ((found.map fun k => (k, size k)).map Prod.snd).sum := by
        rw [← hsum, List.map_map]
        rfl
    _ = (some'.map Prod.snd).sum := ((hperm.map Prod.snd).sum_nat).symm
    _ ≤ (files.map Prod.snd).sum := by
        rw [hothers.sum_nat, List.sum_append]
        exact Nat.le_add_right _ _

/-! ## Paths -/

/-- What a lookup of a name that is not there fails with. -/
def absent (name : String) : Errno :=
  if '\x00' ∈ name.toList then .EINVAL
  else if 255 < name.utf8ByteSize then .ENAMETOOLONG else .ENOENT

/-- Follows the elements of a path from a directory; `jump` goes on after a link. -/
def walkFrom (fs : Fs) (jump : Loc → List String → Except Errno Loc) :
    Loc → List String → Except Errno Loc
  | dir, [] => .ok dir
  | dir, part :: rest =>
    if part = "" ∨ part = "." then walkFrom fs jump dir rest
    else if part = ".." then walkFrom fs jump dir.dropLast rest
    else
      match fs.entry (dir ++ [part]) with
      | none => .error (absent part)
      | some (.link target) =>
        jump (if target.toList.head? = some '/' then [] else dir) (GoStrings.split '/' target ++ rest)
      | some (.dir _) => walkFrom fs jump (dir ++ [part]) rest
      | some _ => if rest = [] then .ok (dir ++ [part]) else .error .ENOTDIR

/-- A walk that may follow fewer than `n` links. -/
def walk (fs : Fs) : Nat → Loc → List String → Except Errno Loc
  | 0, _, _ => .error .ELOOP
  | n + 1, dir, parts => walkFrom fs (walk fs n) dir parts

/-- Where a path leads, links followed; the kernel follows 40. -/
def follow (fs : Fs) (path : List String) : Except Errno Loc := fs.walk 41 [] path

/-- Where the entry a path names is, a link at its end not followed. -/
def locate (fs : Fs) (path : List String) : Except Errno Loc :=
  match path.getLast? with
  | none => .ok []
  | some name =>
    match fs.follow path.dropLast with
    | .error err => .error err
    | .ok dir =>
      match fs.entry dir with
      | some (.dir _) => .ok (dir ++ [name])
      | _ => .error .ENOTDIR

/-- The place a path names, if nothing is there. -/
def vacant (fs : Fs) (path : List String) : Except Errno fs.Vacant :=
  match path.getLast? with
  | none => .error .EEXIST
  | some name =>
    match fs.follow path.dropLast with
    | .error err => .error err
    | .ok dir =>
      match hdir : fs.entry dir with
      | some (.dir attr) =>
        match hfree : fs.entry (dir ++ [name]) with
        | some _ => .error .EEXIST
        | none =>
          if hvalid : ValidName name then .ok ⟨dir, name, attr, hdir, hfree, hvalid⟩
          else .error (absent name)
      | _ => .error .ENOTDIR

/-- A walk from a directory ends at an entry that is no link. -/
theorem walkFrom_ok {jump : Loc → List String → Except Errno Loc} {dir : Loc} {parts : List String}
    (hjump : ∀ d ps l, (∃ attr, fs.entry d = some (.dir attr)) → jump d ps = .ok l →
      ∃ e, fs.entry l = some e ∧ e.isLink = false)
    (hdir : ∃ attr, fs.entry dir = some (.dir attr)) (h : fs.walkFrom jump dir parts = .ok l) :
    ∃ e, fs.entry l = some e ∧ e.isLink = false := by
  induction parts generalizing dir with
  | nil =>
    obtain ⟨attr, hattr⟩ := hdir
    cases h
    exact ⟨_, hattr, rfl⟩
  | cons part rest ih =>
    rw [walkFrom] at h
    split at h
    · exact ih hdir h
    · split at h
      · refine ih ?_ h
        by_cases hnil : dir = []
        · rw [hnil]
          exact fs.root
        · obtain ⟨attr, hattr⟩ := hdir
          rw [← List.dropLast_append_getLast hnil] at hattr
          exact fs.parent _ _ _ hattr
      · split at h
        · cases h
        · refine hjump _ _ _ ?_ h
          split
          · exact fs.root
          · exact hdir
        · exact ih ⟨_, ‹_›⟩ h
        · rename_i e hnotlink hnotdir hentry
          split at h
          · cases h
            refine ⟨e, hentry, ?_⟩
            cases e with
            | link target => exact absurd rfl (hnotlink target)
            | _ => rfl
          · cases h

theorem walk_ok {n : Nat} {dir : Loc} {parts : List String}
    (hdir : ∃ attr, fs.entry dir = some (.dir attr)) (h : fs.walk n dir parts = .ok l) :
    ∃ e, fs.entry l = some e ∧ e.isLink = false := by
  induction n generalizing dir parts l with
  | zero => cases h
  | succ n ih => exact walkFrom_ok (fun _ _ _ hd hl => ih hd hl) hdir h

/-- A path without links leads where it says. -/
theorem walkFrom_entry {jump : Loc → List String → Except Errno Loc} (dir : Loc) {rest : Loc}
    (h : fs.entry (dir ++ rest) = some e) (he : e.isLink = false) :
    fs.walkFrom jump dir rest = .ok (dir ++ rest) := by
  induction rest generalizing dir with
  | nil => simp [walkFrom]
  | cons part rest ih =>
    have hvalid := valid_of_mem h part (by simp)
    obtain ⟨⟨hempty, hdot, hdots⟩, -⟩ := hvalid.1
    have hsplit : dir ++ part :: rest = (dir ++ [part]) ++ rest := by simp
    rw [hsplit] at h ⊢
    rw [walkFrom, if_neg (not_or.mpr ⟨hempty, hdot⟩), if_neg hdots]
    by_cases hrest : rest = []
    · subst hrest
      rw [List.append_nil] at h
      rw [h]
      cases e with
      | link target => cases he
      | dir attr => simp [walkFrom]
      | file attr content => simp
      | special attr kind => simp
    · obtain ⟨attr, hattr⟩ := dir_of_below hrest h
      rw [hattr]
      exact ih _ h

theorem follow_entry (h : fs.entry l = some e) (he : e.isLink = false) : fs.follow l = .ok l :=
  walkFrom_entry [] h he

theorem follow_dir {attr : Attr} (h : fs.entry l = some (.dir attr)) : fs.follow l = .ok l :=
  follow_entry h rfl

theorem follow_ok {path : List String} (h : fs.follow path = .ok l) :
    ∃ e, fs.entry l = some e ∧ e.isLink = false := walk_ok fs.root h

theorem locate_ok {path : List String} (h : fs.locate path = .ok l) :
    path = [] ∧ l = [] ∨ ∃ dir name attr, path = path.dropLast ++ [name] ∧
      fs.follow path.dropLast = .ok dir ∧ fs.entry dir = some (.dir attr) ∧ l = dir ++ [name] := by
  unfold locate at h
  split at h
  · rename_i hnil
    cases h
    exact .inl ⟨List.getLast?_eq_none_iff.mp hnil, rfl⟩
  · rename_i name hname
    split at h
    · cases h
    · rename_i dir hdir
      split at h
      · rename_i attr hattr
        cases h
        refine .inr ⟨dir, name, attr, ?_, hdir, hattr, rfl⟩
        exact (List.dropLast_append_getLast? name hname).symm
      · cases h

/-- What is known of a free place found for a path. -/
theorem vacant_ok {path : List String} {v : fs.Vacant} (h : fs.vacant path = .ok v) :
    path = path.dropLast ++ [v.name] ∧ fs.follow path.dropLast = .ok v.dir := by
  unfold vacant at h
  split at h
  · cases h
  · rename_i name hname
    split at h
    · cases h
    · rename_i dir hdir
      split at h
      · split at h
        · cases h
        · split at h
          · cases h
            exact ⟨(List.dropLast_append_getLast? name hname).symm, hdir⟩
          · cases h
      · cases h

/-- The place a rename of the entry at `src` would move it to. -/
def target (fs : Fs) (src : Loc) (path : List String) : Except Errno (fs.Target src) :=
  match path.getLast? with
  | none => .error .EINVAL
  | some name =>
    match fs.follow path.dropLast with
    | .error err => .error err
    | .ok dir =>
      match hdir : fs.entry dir with
      | some (.dir attr) =>
        if hout : src <+: dir ++ [name] then .error .EINVAL
        else if hvalid : ValidName name then
          match fs.entry src, fs.entry (dir ++ [name]) with
          | some (.dir _), some (.dir _) =>
            if fs.names (dir ++ [name]) = [] then .ok ⟨dir, name, attr, hdir, hvalid, hout⟩
            else .error .ENOTEMPTY
          | some (.dir _), some _ => .error .ENOTDIR
          | some _, some (.dir _) => .error .EISDIR
          | some _, _ => .ok ⟨dir, name, attr, hdir, hvalid, hout⟩
          | none, _ => .error .ENOENT
        else .error (absent name)
      | _ => .error .ENOTDIR

theorem target_ok {src : Loc} {path : List String} {t : fs.Target src}
    (h : fs.target src path = .ok t) :
    path = path.dropLast ++ [t.name] ∧ fs.follow path.dropLast = .ok t.dir := by
  unfold target at h
  split at h
  · cases h
  · rename_i name hname
    split at h
    · cases h
    · rename_i dir hdir
      split at h
      · split at h
        · cases h
        · split at h
          · have hd : t.dir = dir ∧ t.name = name := by
              split at h
              · split at h
                · cases h
                  exact ⟨rfl, rfl⟩
                · cases h
              · cases h
              · cases h
              · cases h
                exact ⟨rfl, rfl⟩
              · cases h
            rw [hd.1, hd.2]
            exact ⟨(List.dropLast_append_getLast? name hname).symm, hdir⟩
          · cases h
      · cases h

end Fs

end LukePanel.Library.FileSystem
