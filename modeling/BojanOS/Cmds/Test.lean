import BojanOS.Cmds.Sort
import BojanOS.Cmds.Services

/-!
# Conditions (`cmd_test`)
-/

namespace BojanOS

open Prog

/-- `return condition ? 0 : 1;` -/
def testAnswer (condition : Bool) : Int := if condition then 0 else 1

/-- The tests of a file. -/
def testFile (v : Vfs) (op target : List Char) : Int :=
  let n := v.vfsResolve target
  if op = "-f".toList then testAnswer (n.any fun n => (v.node n).type = .file)
  else if op = "-d".toList then testAnswer (n.any fun n => (v.node n).type = .dir)
  else if op = "-e".toList then testAnswer n.isSome
  else 1

/-- The comparisons; both sides are read as numbers in any case. -/
def testCompare (lhs op rhs : List Char) : Option Int := do
  let l ← atoi lhs
  let r ← atoi rhs
  some <|
    if op = "=".toList then testAnswer (strcmp lhs rhs = 0)
    else if op = "!=".toList then testAnswer (strcmp lhs rhs ≠ 0)
    else if op = "-eq".toList then testAnswer (l = r)
    else if op = "-ne".toList then testAnswer (l ≠ r)
    else if op = "-lt".toList then testAnswer (l < r)
    else if op = "-gt".toList then testAnswer (r < l)
    else if op = "-le".toList then testAnswer (l ≤ r)
    else if op = "-ge".toList then testAnswer (r ≤ l)
    else 1

/-- The operands behind the name, and without the closing bracket. -/
def testOperands : List (List Char) → Prog Int
  | [word] => pure (testAnswer (word = []))
  | [op, target] => do
    let v ← vfs
    pure (testFile v op target)
  | [lhs, op, rhs] =>
    match testCompare lhs op rhs with
    | none => .fault
    | some answer => pure answer
  | _ => pure 1

def cmdTest (argv : List (List Char)) : Prog Int :=
  if argv.head? = some ['['] then
    if argv.length < 2 ∨ argv.getLast? ≠ some [']'] then do
      puts "[: missing ]\n".toList
      pure 2
    else testOperands (argv.dropLast.drop 1)
  else testOperands (argv.drop 1)

end BojanOS
