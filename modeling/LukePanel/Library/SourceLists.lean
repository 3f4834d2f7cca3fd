import Mathlib.Data.List.Infix
import Mathlib.Data.List.TakeWhile

/-! # Source lists

What is asked of a reader of the source lists of `apt`. -/
namespace LukePanel.Library.SourceLists

abbrev Text := List Char

def isBlank (c : Char) : Bool := c ∈ [' ', '\t']

/-- `apt`, as it reads lists: an entry or none in each line of a list in the one-line format, and the
URIs of the stanzas of a list in the deb822 format. -/
structure Apt (E : Type) where
  entry : Text → Option E
  uri : E → Text
  stanzaUris : Text → List Text
  /-- Empty lines are ignored. -/
  empty : entry [] = none
  /-- A `#` marks what follows it as a comment. -/
  comment : ∀ rest, entry ('#' :: rest) = none
  /-- Blanks in front of a line do not matter. -/
  indent : ∀ blanks rest, (∀ c ∈ blanks, isBlank c = true) → entry (blanks ++ rest) = entry rest
  /-- A URI has a scheme. -/
  colon : ∀ line e, entry line = some e → ':' ∈ uri e
  stanzaColon : ∀ text, ∀ uri ∈ stanzaUris text, ':' ∈ uri

def scheme (uri : Text) : Text := uri.takeWhile (· ≠ ':')

/-- The scheme is told by what the URI begins with. -/
theorem scheme_eq_iff {uri name : Text} (hname : ':' ∉ name) (h : ':' ∈ uri) :
    scheme uri = name ↔ name ++ [':'] <+: uri := by
  constructor
  · rintro rfl
    have hdrop : ∃ rest, uri.dropWhile (· ≠ ':') = ':' :: rest := by
      cases hrest : uri.dropWhile (· ≠ ':') with
      | nil => exact absurd (List.dropWhile_eq_nil_iff.mp hrest ':' h) (by simp)
      | cons c rest =>
        have hc := List.head?_dropWhile_not (· ≠ ':') uri
        rw [hrest] at hc
        exact ⟨rest, by simpa using hc⟩
    obtain ⟨rest, hrest⟩ := hdrop
    refine ⟨rest, ?_⟩
    rw [List.append_assoc, List.singleton_append, ← hrest]
    exact List.takeWhile_append_dropWhile
  · rintro ⟨rest, rfl⟩
    rw [scheme, List.append_assoc, List.takeWhile_append_of_pos]
    · simp
    · exact fun _ hc => decide_eq_true (ne_of_mem_of_not_mem hc hname)

namespace Apt

variable {E : Type} (apt : Apt E)

theorem comment_line {blanks : Text} (h : ∀ c ∈ blanks, isBlank c = true) (rest : Text) :
    apt.entry (blanks ++ '#' :: rest) = none := by
  rw [apt.indent blanks _ h, apt.comment]

/-- The URIs of a list in the one-line format. -/
def listUris (text : Text) : List Text := ((text.splitOn '\n').filterMap apt.entry).map apt.uri

theorem mem_listUris {text uri : Text} :
    uri ∈ apt.listUris text ↔ ∃ line ∈ text.splitOn '\n', ∃ e, apt.entry line = some e ∧ apt.uri e = uri := by
  simp only [listUris, List.mem_map, List.mem_filterMap]
  constructor
  · rintro ⟨e, ⟨line, hline, he⟩, huri⟩
    exact ⟨line, hline, e, he, huri⟩
  · rintro ⟨line, hline, e, he, huri⟩
    exact ⟨e, ⟨line, hline, he⟩, huri⟩

/-- A newline at the end does not matter. -/
theorem listUris_newline (text : Text) : apt.listUris (text ++ ['\n']) = apt.listUris text := by
  rw [listUris, List.splitOn_append_cons_self, List.splitOn_nil, List.filterMap_append,
    List.filterMap_cons_none apt.empty]
  exact congrArg (List.map _) (List.append_nil _)

end Apt

end LukePanel.Library.SourceLists
