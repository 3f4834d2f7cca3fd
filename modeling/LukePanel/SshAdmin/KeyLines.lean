import Mathlib.Data.Multiset.ZeroCons
import LukePanel.SshAdmin.Keys

/-! # The other lines of a key file

`AddKey` and `DeleteKey` read the lines that are neither blank nor comments and write them back as
they were trimmed. Here is when nothing else of the file changes. -/
namespace LukePanel.SshAdmin.KeyLines
open LukePanel.Library.GoStrings LukePanel.SshAdmin.Keys

/-- The lines of a file; the last one may lack its end. -/
def fileLines : Option String → List String
  | none => []
  | some content =>
    let lines := split '\n' content
    if lines.getLast? = some "" then lines.dropLast else lines

/-- Neither blank nor a comment. -/
def isEntry (line : String) : Bool :=
  decide (trimSpace line ≠ "" ∧ (trimSpace line).toList.head? ≠ some '#')

/-- An entry without space at its ends. -/
def Plain (line : String) : Prop := trimSpace line = line ∧ isEntry line = true

instance (line : String) : Decidable (Plain line) := inferInstanceAs (Decidable (_ ∧ _))

variable (sha256 : List UInt8 → List UInt8)

/-- The key in a line of the file. -/
def keyOf (line : String) : Option Key :=
  if isEntry line then (parseKey sha256 line).toOption else none

/-- One line with the key is new. -/
def AddsOne (old new : List String) (key : Key) : Prop :=
  ∃ before after line, old = before ++ after ∧ new = before ++ line :: after ∧
    keyOf sha256 line = some key

/-- The lines whose key has the id. -/
def keyed (id : String) (line : String) : Bool := (keyOf sha256 line).any (·.id = id)

def Removes (id : String) (old new : List String) : Prop :=
  new = old.filter (!keyed sha256 id ·)

variable {sha256} {lines : List String} {line id : String} {file : Option String}

/-! ## What is read and written -/

theorem keyLines_eq (lines : List String) : keyLines lines = (lines.filter isEntry).map trimSpace := by
  rw [keyLines, List.filter_map]
  congr 1

theorem keyLines_fileLines (content : String) :
    keyLines (fileLines (some content)) = keyLines (split '\n' content) := by
  unfold fileLines
  dsimp only
  split
  · rename_i hlast
    obtain ⟨init, hinit⟩ := List.getLast?_eq_some_iff.mp hlast
    rw [hinit, List.dropLast_concat, keyLines_append]
    have hempty : keyLines [""] = [] := by decide
    rw [hempty, List.append_nil]
  · rfl

/-- A scan that is not cut short yields all entries of the file. -/
theorem readKeys_all {fault : Option (Nat × String)} {ended : Option ReadError}
    (h : readKeys fault file = (lines, ended)) (hlong : ended ≠ some .tooLong)
    (hfailed : ∀ message, ended ≠ some (.failed message)) : lines = keyLines (fileLines file) := by
  cases file with
  | none =>
    simp only [readKeys, Prod.mk.injEq] at h
    rw [← h.1]
    rfl
  | some content =>
    cases fault with
    | some fault =>
      simp only [readKeys, Prod.mk.injEq] at h
      exact absurd h.2.symm (hfailed _)
    | none =>
      simp only [readKeys, Prod.mk.injEq] at h
      obtain ⟨hlines, hended⟩ := h
      have hall : (split '\n' content).all scannable = true := by
        by_contra hnot
        rw [if_neg hnot] at hended
        exact hlong hended.symm
      rw [keyLines_fileLines, ← hlines,
        List.takeWhile_eq_self_iff.mpr fun _ hl => List.all_eq_true.mp hall _ hl]

/-- The lines of a file that was written; the last text may be of several lines. -/
theorem fileLines_keysContent (h : ∀ line ∈ lines, '\n' ∉ line.toList) (last : String) :
    fileLines (some (keysContent (lines ++ [last]))) = lines ++ split '\n' last := by
  have hne : lines ++ [last] ≠ [] := by simp
  have hnewline : "\n" = String.ofList ['\n'] := rfl
  have hsplit : split '\n' (keysContent (lines ++ [last])) = lines ++ split '\n' last ++ [""] := by
    rw [keysContent, if_neg hne, hnewline, split_append_sep, split_join_concat last h]
  unfold fileLines
  simp only [hsplit, List.getLast?_concat, List.dropLast_concat, if_true]

theorem fileLines_written (h : ∀ line ∈ lines, '\n' ∉ line.toList) :
    fileLines (some (keysContent lines)) = lines := by
  rcases List.eq_nil_or_concat lines with rfl | ⟨init, last, rfl⟩
  · decide
  · rw [List.concat_eq_append] at h ⊢
    rw [List.forall_mem_append] at h
    have hlast := h.2 last List.mem_cons_self
    rw [fileLines_keysContent h.1, split, List.splitOn_eq_singleton hlast]
    simp

theorem no_newline_of_mem (h : line ∈ keyLines (fileLines file)) : '\n' ∉ line.toList := by
  cases file with
  | none => cases h
  | some content =>
    rw [keyLines_fileLines] at h
    obtain ⟨raw, hraw, rfl⟩ := List.mem_map.mp (List.mem_filter.mp h).1
    exact fun hn => sep_not_mem_of_mem_split hraw (mem_of_mem_trimSpace hn)

/-! ## What the operations write -/

theorem addKey_error {answers : KeyAnswers} {username value err : String} {host host' : Host}
    (h : addKey sha256 answers username value host = (.error err, host')) : host' = host := by
  unfold addKey at h
  split at h
  · cases h; rfl
  dsimp only at h
  split at h
  · cases h; rfl
  split at h
  · cases h; rfl
  split at h
  · cases h; rfl
  · cases h; rfl
  split at h
  · cases h; rfl
  cases hwrite : answers.write with
  | some err =>
    rw [hwrite] at h
    cases h
    rfl
  | none =>
    rw [hwrite] at h
    cases h

theorem addKey_ok {answers : KeyAnswers} {username value : String} {key : Key} {host host' : Host}
    (h : addKey sha256 answers username value host = (.ok key, host')) :
    ∃ user, lookupUser answers.passwd host username = .ok user ∧
      parseKey sha256 (trimSpace value) = .ok key ∧
      host' = host.setFile (keysPath user.home) (keysContent
        (keyLines (fileLines (host.files (keysPath user.home))) ++ [trimSpace value])) := by
  unfold addKey at h
  split at h
  · cases h
  rename_i user hlookup
  dsimp only at h
  split at h
  · cases h
  rename_i key' hkey
  split at h
  · cases h
  split at h
  · cases h
  · cases h
  rename_i lines ended hlong hfailed hread
  split at h
  · cases h
  cases hwrite : answers.write with
  | some err =>
    rw [hwrite] at h
    cases h
  | none =>
    rw [hwrite] at h
    cases h
    have hlines := readKeys_all hread hlong hfailed
    exact ⟨user, hlookup, hkey, by rw [← hlines]⟩

theorem deleteKey_error {answers : KeyAnswers} {username err : String} {host host' : Host}
    (h : deleteKey sha256 answers username id host = (.error err, host')) : host' = host := by
  unfold deleteKey at h
  split at h
  · cases h; rfl
  dsimp only at h
  split at h
  · cases h; rfl
  split at h
  · cases hwrite : answers.write with
    | some err =>
      rw [hwrite] at h
      cases h
      rfl
    | none =>
      rw [hwrite] at h
      cases h
  · cases h; rfl

theorem deleteKey_ok {answers : KeyAnswers} {username : String} {host host' : Host}
    (h : deleteKey sha256 answers username id host = (.ok (), host')) :
    ∃ user, lookupUser answers.passwd host username = .ok user ∧
      host' = host.setFile (keysPath user.home) (keysContent
        ((keyLines (fileLines (host.files (keysPath user.home)))).filter (!hasID sha256 id ·))) := by
  unfold deleteKey at h
  split at h
  · cases h
  rename_i user hlookup
  dsimp only at h
  split at h
  · cases h
  rename_i lines hread
  split at h
  · cases hwrite : answers.write with
    | some err =>
      rw [hwrite] at h
      cases h
    | none =>
      rw [hwrite] at h
      cases h
      exact ⟨user, hlookup, by rw [← readKeys_all hread nofun nofun]⟩
  · cases h

/-! ## What is kept -/

theorem keyLines_of_plain (h : ∀ line ∈ lines, Plain line) : keyLines lines = lines := by
  rw [keyLines_eq, List.filter_eq_self.mpr fun line hline => (h line hline).2]
  exact (List.map_congr_left fun line hline => (h line hline).1).trans (List.map_id' _)

theorem isEntry_trimSpace (line : String) : isEntry (trimSpace line) = isEntry line := by
  rw [isEntry, isEntry, trimSpace_trimSpace]

theorem parseKey_trimSpace (line : String) :
    parseKey sha256 (trimSpace line) = parseKey sha256 line := by
  rw [parseKey, parseKey, trimSpace_trimSpace]

theorem split_length_eq_one_iff {sep : Char} {s : String} :
    (split sep s).length = 1 ↔ sep ∉ s.toList := by
  constructor
  · intro h
    obtain ⟨part, hpart⟩ := List.length_eq_one_iff.mp h
    have hs := join_split sep s
    rw [hpart] at hs
    have hself : part = s := by
      rw [← hs]
      simp [join]
    exact hself ▸ sep_not_mem_of_mem_split (hpart ▸ List.mem_cons_self)
  · intro h
    rw [split, List.splitOn_eq_singleton h]
    rfl

/-- A filtered list is changed to a longer selection of the list only if it is that selection, and
nothing of it changes. -/
theorem map_filter_eq_filter_iff {α : Type} {f : α → α} {p q : α → Bool} {l : List α}
    (hpq : ∀ a, p a = true → q a = true) :
    (l.filter p).map f = l.filter q ↔ ∀ a ∈ l, q a = true → p a = true ∧ f a = a := by
  constructor
  · intro h
    have hlength : (l.filter p).length = (l.filter q).length := by
      rw [← h, List.length_map]
    have hsame : l.filter p = l.filter q :=
      (List.monotone_filter_right l hpq).eq_of_length hlength
    rw [hsame] at h
    intro a ha hq
    have hmem : a ∈ l.filter q := List.mem_filter.mpr ⟨ha, hq⟩
    exact ⟨(List.mem_filter.mp (hsame ▸ hmem)).2,
      List.map_inj_left.mp (h.trans (List.map_id _).symm) a hmem⟩
  · intro h
    have hsame : l.filter p = l.filter q := by
      refine List.filter_congr fun a ha => Bool.eq_iff_iff.mpr ⟨hpq a, fun hq => (h a ha hq).1⟩
    rw [hsame]
    refine (List.map_congr_left fun a ha => ?_).trans (List.map_id' _)
    exact (h a (List.mem_filter.mp ha).1 (List.mem_filter.mp ha).2).2

theorem removes_iff (old : List String) :
    Removes sha256 id old ((keyLines old).filter (!hasID sha256 id ·)) ↔
      ∀ line ∈ old, keyed sha256 id line = false → Plain line := by
  have hkeyed : ∀ line, keyed sha256 id line = (isEntry line && hasID sha256 id line) := by
    intro line
    unfold keyed keyOf hasID
    cases isEntry line with
    | false => rfl
    | true =>
      cases parseKey sha256 line with
      | ok key => rfl
      | error err => rfl
  have hid : ∀ line, hasID sha256 id (trimSpace line) = hasID sha256 id line := fun line => by
    unfold hasID
    rw [parseKey_trimSpace]
  have hnew : (keyLines old).filter (!hasID sha256 id ·) =
      (old.filter fun line => isEntry line && !keyed sha256 id line).map trimSpace := by
    rw [keyLines_eq, List.filter_map, List.filter_filter]
    refine congrArg (List.map trimSpace) (List.filter_congr fun line _ => ?_)
    rw [Function.comp_apply, hid, hkeyed]
    generalize isEntry line = entry
    generalize hasID sha256 id line = found
    cases entry <;> cases found <;> rfl
  unfold Removes
  rw [hnew]
  refine (map_filter_eq_filter_iff fun line hline => (Bool.and_eq_true_iff.mp hline).2).trans ?_
  refine forall₂_congr fun line _ => ?_
  unfold Plain
  generalize isEntry line = entry
  generalize keyed sha256 id line = found
  cases entry <;> cases found <;> simp

/-- A line at the end is the one that is new. -/
theorem addsOne_concat_iff {old : List String} {key : Key} (hkey : parseKey sha256 line = .ok key) :
    AddsOne sha256 old (old ++ [line]) key ↔ isEntry line = true := by
  constructor
  · rintro ⟨before, after, other, hold, hnew, hother⟩
    have hperm : (line :: old).Perm (other :: old) :=
      calc (line :: old).Perm (old ++ [line]) := (List.perm_append_singleton line old).symm
        _ = before ++ other :: after := hnew
        _ |>.Perm (other :: (before ++ after)) := List.perm_middle
        _ = other :: old := by rw [hold]
    obtain rfl : line = other := by
      have hcoe : (line ::ₘ (old : Multiset String)) = other ::ₘ old := Multiset.coe_eq_coe.mpr hperm
      exact (Multiset.cons_inj_left _).mp hcoe
    by_contra hnot
    rw [keyOf, if_neg hnot] at hother
    cases hother
  · intro hentry
    refine ⟨old, [], line, (List.append_nil _).symm, rfl, ?_⟩
    rw [keyOf, if_pos hentry, hkey]
    rfl

theorem split_eq_singleton (h : '\n' ∉ line.toList) : split '\n' line = [line] := by
  rw [split, List.splitOn_eq_singleton h]
  simp

/-- In a file of entries. -/
theorem addsOne_plain_iff {old : List String} {key : Key} (hold : ∀ line ∈ old, Plain line)
    (hkey : parseKey sha256 line = .ok key) :
    AddsOne sha256 old (keyLines old ++ split '\n' line) key ↔
      '\n' ∉ line.toList ∧ isEntry line = true := by
  rw [keyLines_of_plain hold]
  constructor
  · intro h
    have hone : '\n' ∉ line.toList := by
      obtain ⟨before, after, other, hold', hnew, -⟩ := h
      have hlength := congrArg List.length hnew
      rw [hold'] at hlength
      simp only [List.length_append, List.length_cons] at hlength
      exact split_length_eq_one_iff.mp (by omega)
    rw [split_eq_singleton hone] at h
    exact ⟨hone, (addsOne_concat_iff hkey).mp h⟩
  · rintro ⟨hone, hentry⟩
    rw [split_eq_singleton hone]
    exact (addsOne_concat_iff hkey).mpr hentry

/-- With a value of one line. -/
theorem addsOne_line_iff {old : List String} {key : Key} (hone : '\n' ∉ line.toList)
    (htrim : trimSpace line = line) (hkey : parseKey sha256 line = .ok key) :
    AddsOne sha256 old (keyLines old ++ split '\n' line) key ↔
      (∀ line ∈ old, Plain line) ∧ isEntry line = true := by
  constructor
  · intro h
    have hplain : ∀ other ∈ old, Plain other := by
      rw [split_eq_singleton hone] at h
      obtain ⟨before, after, new, hold, hnew, -⟩ := h
      have hlength : (keyLines old).length = old.length := by
        have hlength := congrArg List.length hnew
        simp only [List.length_append, List.length_cons, List.length_nil] at hlength
        rw [hold, List.length_append, ← hold]
        omega
      have hentries : old.filter isEntry = old := by
        refine List.filter_sublist.eq_of_length ?_
        rw [← hlength, keyLines_eq, List.length_map]
      intro other hother
      refine ⟨?_, (List.filter_eq_self.mp hentries) other hother⟩
      have hmem : other ∈ keyLines old ++ [line] := by
        rw [hnew]
        rw [hold] at hother
        rcases List.mem_append.mp hother with hb | ha
        · exact List.mem_append_left _ hb
        · exact List.mem_append_right _ (List.mem_cons_of_mem _ ha)
      rcases List.mem_append.mp hmem with hkept | hlast
      · rw [keyLines_eq] at hkept
        obtain ⟨raw, -, rfl⟩ := List.mem_map.mp hkept
        exact trimSpace_trimSpace raw
      · rw [List.mem_singleton.mp hlast, htrim]
    exact ⟨hplain, ((addsOne_plain_iff hplain hkey).mp h).2⟩
  · rintro ⟨hplain, hentry⟩
    exact (addsOne_plain_iff hplain hkey).mpr ⟨hone, hentry⟩

/-- **When the other lines are kept.** An error leaves everything as it was. A key that is added is
the only change exactly if the value is one line that is no comment and all lines of the file are
plain entries; a key that is deleted, exactly if all other lines are. -/
theorem other_lines_kept (sha256 : List UInt8 → List UInt8) (answers : KeyAnswers)
    (username : String) (host : Host) :
    (∀ value, match addKey sha256 answers username value host with
      | (.error _, host') => host' = host
      | (.ok key, host') => ∃ user, lookupUser answers.passwd host username = .ok user ∧
        (let old := fileLines (host.files (keysPath user.home))
         let adds := AddsOne sha256 old (fileLines (host'.files (keysPath user.home))) key
         ((∀ line ∈ old, Plain line) →
            (adds ↔ '\n' ∉ (trimSpace value).toList ∧ isEntry value = true)) ∧
          ('\n' ∉ (trimSpace value).toList →
            (adds ↔ (∀ line ∈ old, Plain line) ∧ isEntry value = true)))) ∧
    ∀ id, match deleteKey sha256 answers username id host with
      | (.error _, host') => host' = host
      | (.ok _, host') => ∃ user, lookupUser answers.passwd host username = .ok user ∧
        (let old := fileLines (host.files (keysPath user.home))
         Removes sha256 id old (fileLines (host'.files (keysPath user.home))) ↔
          ∀ line ∈ old, keyed sha256 id line = false → Plain line) := by
  have hfile : ∀ (path : List String) content, (host.setFile path content).files path = some content :=
    fun path content => Function.update_self path _ _
  constructor
  · intro value
    split
    · rename_i err host' h
      exact addKey_error h
    · rename_i key host' h
      obtain ⟨user, hlookup, hkey, rfl⟩ := addKey_ok h
      refine ⟨user, hlookup, ?_⟩
      dsimp only
      rw [hfile, fileLines_keysContent (fun line => no_newline_of_mem), ← isEntry_trimSpace value]
      exact ⟨fun hplain => addsOne_plain_iff hplain hkey,
        fun hone => addsOne_line_iff hone (trimSpace_trimSpace value) hkey⟩
  · intro id
    split
    · rename_i err host' h
      exact deleteKey_error h
    · rename_i host' h
      obtain ⟨user, hlookup, rfl⟩ := deleteKey_ok h
      refine ⟨user, hlookup, ?_⟩
      dsimp only
      rw [hfile, fileLines_written fun line hline => no_newline_of_mem (List.mem_filter.mp hline).1]
      exact removes_iff _

/-! ## A file with a comment -/

/-- Both operations keep the other lines. -/
def KeepsOthers (sha256 : List UInt8 → List UInt8) (answers : KeyAnswers) (username : String)
    (host : Host) : Prop :=
  (∀ value, match addKey sha256 answers username value host with
    | (.error _, host') => host' = host
    | (.ok key, host') => ∃ user, lookupUser answers.passwd host username = .ok user ∧
      AddsOne sha256 (fileLines (host.files (keysPath user.home)))
        (fileLines (host'.files (keysPath user.home))) key) ∧
  ∀ id, match deleteKey sha256 answers username id host with
    | (.error _, host') => host' = host
    | (.ok _, host') => ∃ user, lookupUser answers.passwd host username = .ok user ∧
      Removes sha256 id (fileLines (host.files (keysPath user.home)))
        (fileLines (host'.files (keysPath user.home)))

/-- A host where only root can log in. -/
def rootHost (keys : String) : Host where
  passwd := ["root:x:0:0:root:/root:/bin/bash"]
  files path := if path = ["root", ".ssh", "authorized_keys"] then some keys else none
  hardening := none

def allGood : KeyAnswers := ⟨none, none, none, none⟩

/-- A hash that tells all keys apart. -/
def plainHash (bytes : List UInt8) : List UInt8 := bytes

def laptopKey : String := "ssh-ed25519 AAAAAAAAAAAAAAAAAAAAAAAA laptop"

theorem home_of_root {keys : String} {user : User}
    (h : lookupUser none (rootHost keys) "root" = .ok user) : user.home = ["root"] := by
  have hhome : (lookupUser none (rootHost keys) "root").map (·.home) = .ok ["root"] := by rfl
  rw [h] at hhome
  exact Except.ok.inj hhome

theorem desk_added : ∃ key host', addKey plainHash allGood "root" "ssh-ed25519 BBBBBBBBBBBBBBBBBBBBBBBB desk"
      (rootHost (laptopKey ++ "\n")) = (.ok key, host') ∧
    AddsOne plainHash [laptopKey] (fileLines (host'.files (keysPath ["root"]))) key := by
  obtain ⟨hall, -⟩ := other_lines_kept plainHash allGood "root" (rootHost (laptopKey ++ "\n"))
  have hsome : (addKey plainHash allGood "root" "ssh-ed25519 BBBBBBBBBBBBBBBBBBBBBBBB desk"
      (rootHost (laptopKey ++ "\n"))).1.toOption.isSome = true := by decide +kernel
  generalize addKey plainHash allGood "root" = add at hall hsome ⊢
  have hkept := hall "ssh-ed25519 BBBBBBBBBBBBBBBBBBBBBBBB desk"
  generalize add "ssh-ed25519 BBBBBBBBBBBBBBBBBBBBBBBB desk" (rootHost (laptopKey ++ "\n")) =
    result at hkept hsome ⊢
  obtain ⟨_ | key, host'⟩ := result
  · cases hsome
  · obtain ⟨user, hlookup, hadds, -⟩ := hkept
    have hhome := home_of_root hlookup
    rw [hhome] at hadds
    have hold : fileLines ((rootHost (laptopKey ++ "\n")).files (keysPath ["root"])) = [laptopKey] := by
      decide +kernel
    rw [hold] at hadds
    exact ⟨key, host', rfl, (hadds (by decide +kernel)).mpr (by decide +kernel)⟩

theorem KeepsOthers.removes {sha256 : List UInt8 → List UInt8} {answers : KeyAnswers}
    {username id : String} {host : Host} (h : KeepsOthers sha256 answers username host)
    (hok : (deleteKey sha256 answers username id host).1 = .ok ()) :
    ∃ user, lookupUser answers.passwd host username = .ok user ∧
      Removes sha256 id (fileLines (host.files (keysPath user.home)))
        (fileLines ((deleteKey sha256 answers username id host).2.files (keysPath user.home))) := by
  have hdelete := h.2 id
  generalize deleteKey sha256 answers username id host = result at hok hdelete ⊢
  obtain ⟨outcome, host'⟩ := result
  dsimp only at hok
  rw [hok] at hdelete
  exact hdelete

/-- Deleting the only key of a file deletes the comment above it. -/
theorem comment_lost : ¬ ∀ (sha256 : List UInt8 → List UInt8) (answers : KeyAnswers)
    (username : String) (host : Host), KeepsOthers sha256 answers username host := by
  intro h
  have hok : (deleteKey plainHash allGood "root" "AAAAAAAAAAAAAAAA"
      (rootHost ("# work\n" ++ laptopKey ++ "\n"))).1 = .ok () := by decide +kernel
  obtain ⟨user, hlookup, hremoves⟩ := (h plainHash allGood "root" _).removes hok
  rw [home_of_root hlookup] at hremoves
  revert hremoves
  unfold Removes
  decide +kernel

end LukePanel.SshAdmin.KeyLines
