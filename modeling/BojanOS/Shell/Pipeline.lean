import BojanOS.Shell.Tokenize

/-!
# Running a pipeline (`exec_pipeline`, `run_segment`, `apply_redirs`)

The line is tokenized in place, one stage after the other, and a command runs on the texts that its
`argv` points to. A result is `none` where the source leaves its memory: an array overrun by
`tokenize`, a file name of 255 bytes or more, which `strncpy` does not terminate, a 32nd pointer in
`argv`, or a command that faults.
-/

namespace BojanOS

/-- `char* argv[32]` -/
def ARGV_MAX : Nat := 32

namespace Shell

/-- `pipes[i].len = 0` -/
def clearPipe (σ : Shell) (i : Bool) : Shell :=
  { σ with pipes := Function.update σ.pipes i { σ.pipes i with bytes := [] } }

/-- `if (pipe_writer) pipe_writer->len = 0;` -/
def clearWriter (σ : Shell) : Shell :=
  match σ.pipeWriter with
  | none => σ
  | some w => σ.clearPipe w

/-! ## Redirections -/

/-- The answer of `apply_redirs` after a message. -/
def refuse (σ : Shell) (message : List Char) : Option (Bool × Shell) :=
  (σ.shPuts message).map fun σ => (false, σ)

/-- The file that `> name` writes to, made if there is none; a `none` inside is a refusal. -/
def openOut (σ : Shell) (name : List Char) : Option (Bool × Vfs) :=
  match σ.vfs.vfsResolve name with
  | some _ => some (true, σ.vfs)
  | none => σ.vfs.vfsMkfile name

def redirOut {ι : Type} (cl : Cmdline ι) (σ : Shell) : Option (Bool × Shell) :=
  if ¬ cl.hasOut then some (true, σ)
  else if REDIR_MAX ≤ cl.outFile.length then none
  else
    match σ.openOut cl.outFile with
    | none => none
    | some (false, vfs) =>
      { σ with vfs }.refuse ("shell: cannot create ".toList ++ cl.outFile ++ ['\n'])
    | some (true, vfs) =>
      let σ := { σ with vfs }
      let notFile := σ.refuse ("shell: ".toList ++ cl.outFile ++ ": not a file\n".toList)
      match vfs.vfsResolve cl.outFile with
      | none => notFile
      | some f =>
        if (vfs.node f).type ≠ .file then notFile
        else some (true, { σ with
          outFile := some f, vfs := if cl.outAppend then vfs else vfs.vfsTruncate f })

def redirIn {ι : Type} (cl : Cmdline ι) (σ : Shell) : Option (Bool × Shell) :=
  if ¬ cl.hasIn then some (true, σ)
  else if REDIR_MAX ≤ cl.inFile.length then none
  else
    let noFile := σ.refuse ("shell: ".toList ++ cl.inFile ++ ": no such file\n".toList)
    match σ.vfs.vfsResolve cl.inFile with
    | none => noFile
    | some f =>
      if (σ.vfs.node f).type ≠ .file then noFile
      else some (true, { σ with inFile := some f, inOff := 0 })

def applyRedirs {ι : Type} (cl : Cmdline ι) (σ : Shell) : Option (Bool × Shell) :=
  match redirOut cl { σ with outFile := none, inFile := none, inOff := 0 } with
  | none => none
  | some (false, σ) => some (false, σ)
  | some (true, σ) => redirIn cl σ

/-- `restore_redirs(); pipe_writing = 0;` -/
def restoreRedirs (σ : Shell) : Shell :=
  { σ with outFile := none, inFile := none, pipeWriting := false }

/-! ## Stages -/

def record (σ : Shell) (cl : Cmdline (List Char)) : Shell :=
  let ownOut := if cl.hasOut then σ.vfs.vfsResolve cl.outFile else none
  let ownIn := if cl.hasIn then σ.vfs.vfsResolve cl.inFile else none
  { σ with calls := σ.calls ++
      [⟨cl.items, σ.outFile, σ.inFile, ownOut, ownIn, σ.pipeWriting, σ.pipeReader⟩] }

/-- `run_segment` behind `tokenize`. -/
def runCmdline (commands : Commands) (cl : Cmdline (List Char)) (doPipe : Bool) (σ : Shell) :
    Option (Int × Shell) :=
  if cl.items = [] then some (0, σ)
  else
    let σ := { σ with pipeWriting := doPipe }
    match applyRedirs cl (if doPipe then σ.clearWriter else σ) with
    | none => none
    | some (false, σ) => some (1, σ.restoreRedirs)
    | some (true, σ) =>
      if ARGV_MAX ≤ cl.items.length then none
      else ((shellRunBuiltin commands cl.items).run (σ.record cl)).map fun (rc, σ) =>
        (rc, σ.restoreRedirs)

/-- The status, the segment as it is left, and the state. -/
def runSegment (commands : Commands) (segment : Buf) (doPipe : Bool) (σ : Shell) :
    Option (Int × Buf × Shell) :=
  match tokenize σ.lastExit segment σ.vfs.ram with
  | none => none
  | some (segment, cl, ram) =>
    (runCmdline commands (cl.map (Item.text segment)) doPipe
      { σ with vfs := { σ.vfs with ram } }).map fun (rc, σ) => (rc, segment, σ)

/-! ## Pipelines -/

/-- `if (!pipes[i].data) pipes[i].data = kmalloc(PIPE_MAX);` -/
def allocPipe (σ : Shell) (i : Bool) : Shell :=
  if (σ.pipes i).alloc then σ
  else
    let (p, ram) := σ.vfs.ram.kmalloc PIPE_MAX
    { σ with
      vfs := { σ.vfs with ram }
      pipes := Function.update σ.pipes i { σ.pipes i with alloc := p.isSome } }

/-- The assignments before the loop. -/
def pipesReady (σ : Shell) : Shell :=
  { (((σ.allocPipe false).allocPipe true).clearPipe false).clearPipe true with
    pipeReader := none, pipeWriter := none, pipeWriting := false, pipeInOff := 0 }

/-- The assignments behind the loop. -/
def pipesDone (σ : Shell) : Shell :=
  { σ with
    pipeReader := none, pipeWriter := none, pipeWriting := false, outFile := none, inFile := none }

/-- `pipe_reader = &pipes[which]; pipe_in_off = 0; which ^= 1; pipes[which].len = 0;` -/
def nextStage (σ : Shell) (which : Bool) : Shell :=
  { σ with pipeReader := some which, pipeInOff := 0 }.clearPipe (!which)

end Shell

namespace Pipeline

structure St where
  buf : Buf
  seg : Nat
  p : Nat
  which : Bool
  σ : Shell

def step (commands : Commands) (st : St) : Option (St ⊕ (Int × Buf × Shell)) :=
  match st.buf[st.p]? with
  | none => none
  | some c =>
    if c = '|' ∨ c = NUL then
      let last : Bool := c = NUL
      let buf := if c = '|' then st.buf.set st.p NUL else st.buf
      let σ := { st.σ with pipeWriter := if last then none else some st.which }
      match σ.runSegment commands (buf.drop st.seg) (!last) with
      | none => none
      | some (rc, rest, σ) =>
        let buf := buf.take st.seg ++ rest
        if last then some (.inr (rc, buf, σ))
        else
          let p := skipBlanks buf (st.p + 1)
          some (.inl ⟨buf, p, p, !st.which, σ.nextStage st.which⟩)
    else some (.inl { st with p := st.p + 1 })

def measure (st : St) : Nat := st.buf.length - st.p

end Pipeline

def execPipeline (commands : Commands) (line : Buf) (len : Nat) (σ : Shell) :
    Option (Int × Buf × Shell) :=
  match store line len NUL with
  | none => none
  | some line =>
    (Loop.exec (Pipeline.step commands) Pipeline.measure ⟨line, 0, 0, false, σ.pipesReady⟩).map
      fun (rc, line, σ) => (rc, line, σ.pipesDone)

end BojanOS
