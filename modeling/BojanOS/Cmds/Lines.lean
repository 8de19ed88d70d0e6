import BojanOS.Cmds.ReadAll
import BojanOS.Cmds.Uniq
import BojanOS.Cmds.Services
import BojanOS.Shell.Printf

/-!
# Line by line (`cmd_rev`, `cmd_nl`, `cmd_tee`)

`rev` and `nl` print every line of their input, backwards or with its number. `tee` puts out its
input and then appends it to the file, and does not look at the answer.
-/

namespace BojanOS

open Prog

/-! ## `rev` and `nl` -/

/-- `while (l--) sh_putc(lines[i][l]);` and the newline. -/
def revLine (line : List Char) : Prog Unit := do
  puts (untilNul line).reverse
  shPutc '\n'

def cmdRev (fuel : Nat) (argv : List (List Char)) : Prog Int :=
  onLines fuel argv[1]? 1 fun lines => do
    lines.forM revLine
    pure 0

/-- The loop of `cmd_nl` from line `i` on. -/
def nlLoop : Nat → List (List Char) → Prog Unit
  | _, [] => pure ()
  | i, line :: lines => do
    putf "%6d\t%s\n".toList [.num (.int (BitVec.ofNat 32 (i + 1))), .str (some (untilNul line))]
    nlLoop (i + 1) lines

def cmdNl (fuel : Nat) (argv : List (List Char)) : Prog Int :=
  onLines fuel argv[1]? 1 fun lines => do
    nlLoop 0 lines
    pure 0

/-! ## `tee` -/

/-- `n` of `cmd_tee`: the file, made if there is none. -/
def Vfs.teeFile (s : Vfs) (path : List Char) : Option (Option Nat × Vfs) :=
  match s.vfsResolve path with
  | some n => some (some n, s)
  | none => s.createAt path

/-- `tee -a` alone resolves the null pointer behind its arguments: the working directory. -/
def cmdTee (fuel : Nat) (argv : List (List Char)) : Prog Int :=
  if argv.length < 2 then fail "tee: missing file\n"
  else do
    let append := argv.getD 1 [] = "-a".toList
    let path := argv.getD (if append then 2 else 1) []
    let n ← fs fun v => v.teeFile path
    let v ← vfs
    match n.filter fun n => (v.node n).type = .file with
    | none => pure 1
    | some n => do
      if append then pure () else fs fun v => some ((), v.vfsTruncate n)
      let b ← readStdin fuel .init
      if b.data ≠ none ∧ b.bytes ≠ [] then do
        puts b.bytes
        -- the answer is not looked at
        let _ ← fs fun v => some (v.vfsAppendFile n (.ext b.bytes) b.bytes.length)
        pure 0
      else pure 0

end BojanOS
