import LukePanel.Library.SourceLists
import LukePanel.Library.Words
import Mathlib.Data.List.DropRight

/-! # A reader of plain source lists

It reads what `apt` reads in lists without quotes, escapes and white space other than blanks and
newlines: a comment begins at `#`, unless a bracket is open; an entry is its type, options in
brackets, a URI, a suite and components. A suite that ends in a slash is an exact path and has no
components, any other has one at least. In the deb822 format empty lines separate the stanzas, and a
line that begins with a blank goes on with the field above it. -/
namespace LukePanel.Library.PlainSources
open LukePanel.Library.Words LukePanel.Library.SourceLists

structure Entry where
  type : Text
  /-- `none` where there are no brackets. -/
  options : Option (List Text)
  uri : Text
  suite : Text
  components : List Text
  deriving DecidableEq

def types : List Text := ["deb".toList, "deb-src".toList]

/-- The line without its comment; `depth` counts the brackets that are open. -/
def uncommented (depth : ℤ) : Text → Text
  | [] => []
  | c :: rest =>
    if c = '#' ∧ depth ≤ 0 then []
    else c :: uncommented (depth + (if c = '[' then 1 else if c = ']' then -1 else 0)) rest

/-- The options behind an opening bracket, and the words behind the closing one. -/
def readOptions : List Text → Option (List Text × List Text)
  | [] => none
  | word :: rest =>
    if word.head? = some ']' then some ([], if word.tail = [] then rest else word.tail :: rest)
    else if '=' ∉ word then none
    else if word.getLast? = some ']' then some ([word.dropLast], rest)
    else (readOptions rest).map fun (options, rest) => (word :: options, rest)

/-- The words behind the type, with the options taken off. -/
def splitOptions : List Text → Option (Option (List Text) × List Text)
  | [] => none
  | word :: rest =>
    if word.head? = some '[' then
      (readOptions (if word.tail = [] then rest else word.tail :: rest)).map fun (options, rest) =>
        (some options, rest)
    else some (none, word :: rest)

def entryOf : List Text → Option Entry
  | [] => none
  | type :: rest =>
    match splitOptions rest with
    | some (options, uri :: suite :: components) =>
      if type ∈ types ∧ ':' ∈ uri ∧ (suite.getLast? = some '/' ↔ components = []) then
        some ⟨type, options, uri, suite, components⟩
      else none
    | _ => none

def entry (line : Text) : Option Entry := entryOf (words isBlank (uncommented 0 line))

example : entry "deb [arch=amd64 lang=a#b] https://deb.debian.org/debian\tstable main # mirror".toList =
    some ⟨"deb".toList, some ["arch=amd64".toList, "lang=a#b".toList],
      "https://deb.debian.org/debian".toList, "stable".toList, ["main".toList]⟩ := by decide +kernel

theorem uncommented_append {blanks : Text} (h : ∀ c ∈ blanks, isBlank c = true) (rest : Text) :
    uncommented 0 (blanks ++ rest) = blanks ++ uncommented 0 rest := by
  induction blanks with
  | nil => rfl
  | cons c blanks ih =>
    rw [List.forall_mem_cons] at h
    have hc : c = ' ' ∨ c = '\t' := by simpa [isBlank] using h.1
    rw [List.cons_append, List.cons_append, ← ih h.2]
    rcases hc with rfl | rfl <;> rfl

theorem colon_of_entry {line : Text} {e : Entry} (h : entry line = some e) : ':' ∈ e.uri := by
  unfold entry entryOf at h
  split at h
  · cases h
  · split at h
    · obtain ⟨hvalid, heq⟩ := Option.ite_none_right_eq_some.mp h
      rw [← Option.some.inj heq]
      exact hvalid.2.1
    · cases h

/-! ## Stanzas -/

structure Field where
  name : Text
  value : Text
  deriving DecidableEq

/-- The lines in front that go on with a field above them, and the fields behind. -/
def readFields : List Text → List Text × List Field
  | [] => ([], [])
  | line :: rest =>
    let (more, fields) := readFields rest
    if line.head?.any isBlank then (line :: more, fields)
    else ([], ⟨(line.takeWhile (· ≠ ':')).rdropWhile isBlank,
      (line.dropWhile (· ≠ ':')).tail ++ more.flatten⟩ :: fields)

def lower (text : Text) : Text := text.map Char.toLower

/-- The words of the last field of a name. -/
def fieldWords (fields : List Field) (name : String) : List Text :=
  match fields.reverse.find? fun field => lower field.name = lower name.toList with
  | some field => words isBlank field.value
  | none => []

structure Stanza where
  types : List Text
  uris : List Text
  suites : List Text
  components : List Text
  deriving DecidableEq

/-- The stanza names sources. -/
def Stanza.valid (s : Stanza) : Bool :=
  s.types ≠ [] && s.types.all (· ∈ PlainSources.types) && s.uris ≠ [] && s.uris.all (':' ∈ ·) &&
    s.suites ≠ [] && s.suites.all fun suite => decide (suite.getLast? = some '/' ↔ s.components = [])

/-- The values of `Enabled` that switch a stanza off. -/
def switchedOff : List (List Text) :=
  ["no", "false", "without", "off", "disable", "0"].map fun value => [value.toList]

def stanzaOf (lines : List Text) : Option Stanza :=
  let fields := (readFields lines).2
  let s : Stanza := ⟨fieldWords fields "Types", fieldWords fields "URIs", fieldWords fields "Suites",
    fieldWords fields "Components"⟩
  if s.valid = true ∧ (fieldWords fields "Enabled").map lower ∉ switchedOff then some s else none

def isComment (line : Text) : Bool := line.head? = some '#'

def stanzas (text : Text) : List Stanza :=
  (words List.isEmpty ((text.splitOn '\n').filter (!isComment ·))).filterMap stanzaOf

def stanzaUris (text : Text) : List Text := (stanzas text).flatMap (·.uris)

example : stanzas ("# Debian\nTypes: deb deb-src\nURIs: https://deb.debian.org/debian\n" ++
    " http://deb.debian.org/debian\nSuites: stable\ncomponents: main\n\nTypes: deb\nEnabled: no\n" ++
    "URIs: http://old.example/\nSuites: ./\n").toList =
    [⟨["deb".toList, "deb-src".toList], ["https://deb.debian.org/debian".toList,
      "http://deb.debian.org/debian".toList], ["stable".toList], ["main".toList]⟩] := by decide +kernel

theorem colon_of_mem_stanzaUris {text uri : Text} (h : uri ∈ stanzaUris text) : ':' ∈ uri := by
  obtain ⟨s, hs, huri⟩ := List.mem_flatMap.mp h
  obtain ⟨lines, -, hs⟩ := List.mem_filterMap.mp hs
  obtain ⟨⟨hvalid, -⟩, heq⟩ := Option.ite_none_right_eq_some.mp hs
  rw [Option.some.inj heq] at hvalid
  simp only [Stanza.valid, Bool.and_eq_true] at hvalid
  simpa using List.all_eq_true.mp hvalid.1.1.2 uri huri

def plain : Apt Entry where
  entry := entry
  uri := Entry.uri
  stanzaUris := stanzaUris
  empty := rfl
  comment := fun _ => rfl
  indent := fun blanks rest h => by rw [entry, uncommented_append h, words_append_left h, entry]
  colon := fun _ _ => colon_of_entry
  stanzaColon := fun _ _ => colon_of_mem_stanzaUris

end LukePanel.Library.PlainSources
