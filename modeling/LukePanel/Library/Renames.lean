import Mathlib.Logic.Function.Basic

/-! # Moving entries by name

Entries are found by path, and a rename moves what stands at one path to another, where nothing
there blocks it. -/
namespace LukePanel.Library.Renames

variable {P ν : Type*} [DecidableEq P]

/-- `rename`: it fails where nothing stands at the source, and where what stands at the
destination blocks what would take its place. -/
def rename (blocks : ν → ν → Bool) (e : P → Option ν) (src dst : P) : Option (P → Option ν) :=
  match e src, e dst with
  | none, _ => none
  | some node, none => some (Function.update (Function.update e src none) dst (some node))
  | some node, some there =>
    if blocks there node then none
    else some (Function.update (Function.update e src none) dst (some node))

variable {e : P → Option ν} {src dst : P}

/-- What stands at the source can be moved to a free path. -/
theorem rename_free (blocks : ν → ν → Bool) {node : ν} (hsrc : e src = some node)
    (hdst : e dst = none) : rename blocks e src dst =
      some (Function.update (Function.update e src none) dst (some node)) := by
  unfold rename
  rw [hsrc, hdst]

end LukePanel.Library.Renames
