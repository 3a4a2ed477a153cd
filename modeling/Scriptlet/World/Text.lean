import Scriptlet.World.Basic
/-!
# The text of values

A value is printed plainly: a string as its characters, a list as its elements divided by commas, without brackets at any
depth.  It is displayed like that too, except that a string is put in quotes and a list in brackets; the elements inside
are still printed plainly.

A list can contain itself, so printing goes to a given depth only.
-/
namespace Scriptlet.World

/-- The printed form of a datum, nested to at most the given depth. -/
def text (w : World) : (depth : Nat) → Datum → Except Fault String
  | 0, _ => .error .tooDeep
  | depth + 1, d =>
    match d with
    | .null => .ok "0"
    | .number x => x.toText
    | .string s => .ok s
    | .list cell => do
      let items ← ((w.lists[cell]?.getD #[]).toList.mapM (w.text depth))
      return String.intercalate ", " items
    | .function f => .ok ("<function " ++ f.name ++ ">")
    | .builtin name => .ok ("<built-in function " ++ name ++ ">")
    | .stub name => .ok ("<stub " ++ name ++ ">")
    | .blank => .ok "<blank>"

/-- The displayed form of a datum. -/
def display (w : World) (depth : Nat) (d : Datum) : Except Fault String := do
  let plain ← w.text depth d
  match d with
  | .string _ => return "'" ++ plain ++ "'"
  | .list _ => return "[" ++ plain ++ "]"
  | _ => return plain

end Scriptlet.World
