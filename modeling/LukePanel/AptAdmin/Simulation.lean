import LukePanel.Library.Doubles
import LukePanel.Library.GoStrings
import LukePanel.Library.Substrings
import Mathlib.Data.List.Sort
import Mathlib.Data.String.Basic

/-! # The simulation of an upgrade

`parseSimulation` and `parseHumanBytesBetween` of `internal/aptadmin/manager.go`. -/
namespace LukePanel.AptAdmin.Simulation
open LukePanel.Library LukePanel.Library.GoStrings LukePanel.Library.Doubles

abbrev Text := List Char

/-! ## Sizes -/

/-- `unicode.ToUpper` as far as the result is ASCII: two letters outside it map into it. -/
def upperChar (c : Char) : Char :=
  if c = '\u0131' then 'I' else if c = '\u017f' then 'S' else c.toUpper

/-- `strings.ToUpper`, as far as the result is ASCII. -/
def toUpper (s : String) : String := String.ofList (s.toList.map upperChar)

/-- A sign, and what follows it. -/
def readSign : Text → Bool × Text
  | '-' :: rest => (true, rest)
  | '+' :: rest => (false, rest)
  | rest => (false, rest)

def signed (negative : Bool) (n : ℤ) : ℤ := if negative then -n else n

/-- The exponent of a number that is read, which must have digits. -/
def readExponent : Text → Option ℤ
  | [] => some 0
  | c :: rest =>
    if c = 'e' ∨ c = 'E' then
      let (negative, rest) := readSign rest
      let digits := rest.takeWhile Char.isDigit
      if digits = [] then none else some (signed negative (Nat.ofDigitChars 10 digits 0))
    else some 0

/-- The decimal number that `fmt.Sscanf` with `%f` reads off the front, before it is rounded. -/
def scanFloat (text : Text) : Option ℚ :=
  let (negative, text) := readSign text
  let whole := text.takeWhile Char.isDigit
  let rest := text.dropWhile Char.isDigit
  let point := rest.head? = some '.'
  let fraction := if point then rest.tail.takeWhile Char.isDigit else []
  let rest := if point then rest.tail.dropWhile Char.isDigit else rest
  if whole = [] ∧ fraction = [] then none
  else (readExponent rest).map fun exponent : ℤ =>
    (signed negative (Nat.ofDigitChars 10 (whole ++ fraction) 0) : ℚ) *
      (10 : ℚ) ^ (exponent - fraction.length)

/-- Of a unit in capitals. -/
def multiplier (unit : String) : ℚ :=
  if unit = "KB" ∨ unit = "KIB" then 1024
  else if unit = "MB" ∨ unit = "MIB" then 1024 * 1024
  else if unit = "GB" ∨ unit = "GIB" then 1024 * 1024 * 1024
  else if unit = "TB" ∨ unit = "TIB" then 1024 * 1024 * 1024 * 1024
  else 1

/-- `int64` of the product of two doubles, where it is in range. -/
def bytesOf (number : String) (unit : String) : ℤ :=
  match scanFloat number.toList with
  | none => 0
  | some value => truncate (double (double value * multiplier (toUpper unit)))

/-- What stands in front of the first `part`, or all of it. -/
def before (part value : Text) : Text := ((Substrings.cut part value).map Prod.fst).getD value

def parseHumanBytesBetween (line start stop : String) : ℤ :=
  match Substrings.cut start.toList line.toList with
  | none => 0
  | some (_, value) =>
    let parts := fields (String.ofList ((before stop.toList value).filter (· ≠ ',')))
    if parts.length < 2 then 0 else bytesOf (parts.headD "") (parts.tail.headD "")

example : parseHumanBytesBetween "Need to get 12.5 MB of archives." "Need to get " " of archives" =
    13107200 := by decide +kernel

/-! ## The output -/

/-- What the output is read as. -/
structure Preflight where
  upgradeCount : ℕ
  installCount : ℕ
  removeCount : ℕ
  downloadBytes : ℤ
  diskDeltaBytes : ℤ
  packages : List String
  deriving DecidableEq

def Preflight.empty : Preflight := ⟨0, 0, 0, 0, 0, []⟩

/-- The line begins with the word, and another follows. -/
def isStep (word line : String) : Bool :=
  decide (2 ≤ (fields line).length) && decide ((fields line).head? = some word)

def countInst (p : Preflight) (line : String) : Preflight :=
  let name := (fields line).tail.headD ""
  let p := if name ∈ p.packages then p else { p with packages := p.packages ++ [name] }
  if contains line "[installed]" then { p with installCount := p.installCount + 1 }
  else { p with upgradeCount := p.upgradeCount + 1 }

def diskDelta (line : String) : ℤ :=
  if contains line " disk space will be freed" then
    -parseHumanBytesBetween line "After this operation, " " disk space will be freed"
  else parseHumanBytesBetween line "After this operation, " " of additional disk space"

/-- One turn of the loop. -/
def parseLine (p : Preflight) (line : String) : Preflight :=
  let p := if isStep "Inst" line then countInst p line else p
  let p := if isStep "Remv" line then { p with removeCount := p.removeCount + 1 } else p
  let p :=
    if contains line "Need to get " then
      { p with downloadBytes := parseHumanBytesBetween line "Need to get " " of archives" }
    else p
  if contains line "After this operation, " then { p with diskDeltaBytes := diskDelta line } else p

def parseSimulation (output : String) : Preflight :=
  let p := (split '\n' output).foldl parseLine .empty
  { p with packages := (p.packages.insertionSort (· ≤ ·)).take 300 }

example : parseSimulation "Inst openssl [1.0] (1.1 [amd64])\nRemv old-package [1.0]" =
    ⟨1, 0, 1, 0, 0, ["openssl"]⟩ := by decide +kernel

end LukePanel.AptAdmin.Simulation
