import BojanOS.Dev.Keyboard
import BojanOS.Vfs.Runs

/-!
# The state of the shell, and the programs it runs (`shell.c`)

A command is a `Prog`: what it does through `sh_putc`, `sh_getc` and the filesystem, with the exit
code at the end. The table of commands is a parameter of everything below, so the results hold for
the commands of `cmds.c` and for any others. A `Prog` is a finite tree; a command that loops over
its input is one that gives up (`fault`) after some number of steps, and a run that faults proves
nothing about the command.
-/

namespace BojanOS

def PIPE_MAX : Nat := 64 * 1024

/-- `data[0 .. len)` of a `pipe_storage_t`; `alloc` says that `data` is not null. -/
structure PipeStorage where
  alloc : Bool
  bytes : List Char

/-- A call of a command: its words, the redirections in force, and the files that the redirections
of its stage name when it starts. -/
structure Call where
  argv : List (List Char)
  outFile : Option Nat
  inFile : Option Nat
  ownOut : Option Nat
  ownIn : Option Nat
  pipeWriting : Bool
  pipeReader : Option Bool
  deriving DecidableEq

/-- The static variables of `shell.c`. `pipe_reader` and `pipe_writer` point into `pipes`, so they
are an index into it. `console` is what went to the screen and the serial line, `keys` what
`keyboard_get` returns from now on; `calls` records the calls of `shell_run_builtin`. -/
structure Shell where
  vfs : Vfs
  outFile : Option Nat
  inFile : Option Nat
  inOff : Nat
  pipeInOff : Nat
  pipes : Bool → PipeStorage
  pipeWriting : Bool
  pipeReader : Option Bool
  pipeWriter : Option Bool
  lastExit : Fin 256
  console : List Char
  keys : Nat → Int
  calls : List Call

namespace Shell

def shSetExit (σ : Shell) (code : Int) : Shell :=
  { σ with lastExit := Fin.ofNat 256 (code % 256).toNat }

/-! ## Output -/

/-- `none` is a store through the null pointer that a refused `kmalloc(PIPE_MAX)` left. -/
def pipeWriterAdd (σ : Shell) (c : Char) : Option Shell :=
  match σ.pipeWriter with
  | none => some σ
  | some w =>
    let pipe := σ.pipes w
    if PIPE_MAX ≤ pipe.bytes.length then some σ
    else if pipe.alloc then
      some { σ with pipes := Function.update σ.pipes w { pipe with bytes := pipe.bytes ++ [c] } }
    else none

def outRaw (σ : Shell) (c : Char) : Option Shell :=
  match σ.outFile with
  | some f => some { σ with vfs := (σ.vfs.vfsAppendFile f (.ext [c]) 1).2 }
  | none =>
    if σ.pipeWriting then σ.pipeWriterAdd c
    else some { σ with console := σ.console ++ [c] }

/-- `sh_puts`, and `sh_printf` with the text that it formats. -/
def shPuts (σ : Shell) (s : List Char) : Option Shell := s.foldlM outRaw σ

/-! ## Input -/

def keyboardGet (σ : Shell) : Int × Shell :=
  (σ.keys 0, { σ with keys := fun i => σ.keys (i + 1) })

/-- `none` is a read through a null `data`. -/
def shGetc (σ : Shell) : Option (Int × Shell) :=
  match σ.inFile with
  | some f =>
    if (σ.vfs.node f).size ≤ σ.inOff then some (-1, σ)
    else (σ.vfs.node f).data.map fun d =>
      ((σ.vfs.ram.mem (d + σ.inOff)).toNat, { σ with inOff := σ.inOff + 1 })
  | none =>
    match σ.pipeReader with
    | some r =>
      match (σ.pipes r).bytes[σ.pipeInOff]? with
      | none => some (-1, σ)
      | some c => some (c.toNat, { σ with pipeInOff := σ.pipeInOff + 1 })
    | none =>
      let (c, σ) := σ.keyboardGet
      some (if c = KB_CTRL_D ∨ c < 0 then -1 else if c = KB_CTRL_C then -1 else c, σ)

end Shell

/-! ## Commands -/

inductive Prog (α : Type) where
  | ret (a : α)
  | putc (c : Char) (k : Prog α)
  | getc (k : Int → Prog α)
  | getVfs (k : Vfs → Prog α)
  | setVfs (v : Vfs) (k : Prog α)
  | fault

namespace Prog

variable {α β : Type}

protected def bind : Prog α → (α → Prog β) → Prog β
  | ret a, f => f a
  | putc c k, f => putc c (k.bind f)
  | getc k, f => getc fun c => (k c).bind f
  | getVfs k, f => getVfs fun v => (k v).bind f
  | setVfs v k, f => setVfs v (k.bind f)
  | fault, _ => fault

instance : Monad Prog where
  pure := ret
  bind := Prog.bind

/-- Text on the standard output. -/
def puts : List Char → Prog Unit
  | [] => ret ()
  | c :: s => putc c (puts s)

/-- A function of `vfs.c`; `none` is undefined behaviour there. -/
def fs (f : Vfs → Option (β × Vfs)) : Prog β :=
  getVfs fun v =>
    match f v with
    | none => fault
    | some (b, v) => setVfs v (ret b)

def run : Prog α → Shell → Option (α × Shell)
  | ret a, σ => some (a, σ)
  | putc c k, σ => (σ.outRaw c).bind k.run
  | getc k, σ => σ.shGetc.bind fun r => (k r.1).run r.2
  | getVfs k, σ => (k σ.vfs).run σ
  | setVfs v k, σ => k.run { σ with vfs := v }
  | fault, _ => none

@[simp] theorem run_pure (a : α) (σ : Shell) : (pure a : Prog α).run σ = some (a, σ) := rfl

@[simp] theorem run_bind (p : Prog α) (f : α → Prog β) (σ : Shell) :
    (p >>= f).run σ = (p.run σ).bind fun r => (f r.1).run r.2 := by
  change (p.bind f).run σ = _
  induction p generalizing σ with
  | ret a => rfl
  | putc c k ih =>
    rw [Prog.bind, run, run, Option.bind_assoc]
    exact congrArg _ (funext ih)
  | getc k ih =>
    rw [Prog.bind, run, run, Option.bind_assoc]
    exact congrArg _ (funext fun r => ih r.1 r.2)
  | getVfs k ih => exact ih _ _
  | setVfs v k ih => exact ih _
  | fault => rfl

@[simp] theorem run_puts (s : List Char) (σ : Shell) :
    (puts s).run σ = (σ.shPuts s).map fun σ => ((), σ) := by
  induction s generalizing σ with
  | nil => rfl
  | cons c s ih =>
    rw [puts, run, Shell.shPuts, List.foldlM_cons]
    cases σ.outRaw c with
    | none => rfl
    | some σ => exact ih σ

@[simp] theorem run_fs (f : Vfs → Option (β × Vfs)) (σ : Shell) :
    (fs f).run σ = (f σ.vfs).map fun r => (r.1, { σ with vfs := r.2 }) := by
  rw [fs, run]
  cases f σ.vfs <;> rfl

end Prog

/-- `commands[]`: the function of a name. -/
abbrev Commands := List Char → Option (List (List Char) → Prog Int)

/-- `shell_run_builtin`, with `argv[0 .. argc)` for its argument. -/
def shellRunBuiltin (commands : Commands) (argv : List (List Char)) : Prog Int :=
  let name := argv.headD []
  match commands name with
  | none => do
    Prog.puts (name ++ ": command not found\n".toList)
    pure 127
  | some fn => fn argv

/-- The shell in front of the first line, on the machine of `bootVfs`. -/
def bootShell : Shell where
  vfs := bootVfs
  outFile := none
  inFile := none
  inOff := 0
  pipeInOff := 0
  pipes _ := ⟨false, []⟩
  pipeWriting := false
  pipeReader := none
  pipeWriter := none
  lastExit := 0
  console := []
  keys _ := -1
  calls := []

theorem bootShell_vfs : bootShell.vfs = bootVfs := by rw [bootShell]

theorem bootShell_spelled : bootShell = { bootShell with vfs := spelledVfs } := by
  rw [← bootVfs_spelled, ← bootShell_vfs]

end BojanOS
