import BojanOS.Shell.Pipeline
import Mathlib.Data.List.DropRight

/-!
# A line of commands (`shell_exec_line`)

The line is scanned once. At an operator, or at the end, the segment behind the last operator is
run or not, and `exec_pipeline` overwrites the bytes of a segment that is run.
-/

namespace BojanOS

/-- The kinds of `is_separator`: `;`, `&&` and `||`. -/
inductive Op where
  | seq
  | and
  | or
  deriving DecidableEq

/-- The kind of a separator at the front, and its length. -/
def isSeparator : List Char → Option (Op × Nat)
  | ';' :: _ => some (.seq, 1)
  | '&' :: '&' :: _ => some (.and, 2)
  | '|' :: '|' :: _ => some (.or, 2)
  | _ => none

/-- `run`, from the kind of the separator at `p` (none at the end of the line) and the status. -/
def runsWith : Option Op → Int → Bool
  | some .and, rc => rc = 0
  | some .or, rc => rc ≠ 0
  | _, _ => true

/-- `while (len > 0 && (start[len - 1] == ' ' || start[len - 1] == '\t')) len--;` -/
def trimBlanks (s : List Char) : List Char := s.rdropWhile isBlank

namespace ExecLine

/-- The variables of the loop. `seen` counts the segments that are not empty, `ran` has the numbers
of those that were run. -/
structure St where
  buf : Buf
  start : Nat
  p : Nat
  rc : Int
  σ : Shell
  seen : Nat
  ran : List Nat

/-- The segment between `start` and `p`. -/
def segment (commands : Commands) (st : St) (kind : Option Op) : Option St :=
  let len := (trimBlanks ((st.buf.drop st.start).take (st.p - st.start))).length
  if len = 0 then some st
  else if runsWith kind st.rc then
    match execPipeline commands (st.buf.drop st.start) len st.σ with
    | none => none
    | some (rc, rest, σ) => some { st with
        buf := st.buf.take st.start ++ rest, rc, σ := σ.shSetExit rc
        seen := st.seen + 1, ran := st.ran ++ [st.seen] }
  else some { st with σ := st.σ.shSetExit st.rc, seen := st.seen + 1 }

/-- What follows the segment: `*p` is read again. -/
def advance (st : St) (skip : Nat) : Option (St ⊕ St) :=
  match st.buf[st.p]? with
  | none => none
  | some c =>
    if c = NUL then some (.inr st)
    else
      let p := skipBlanks st.buf (st.p + skip)
      some (.inl { st with p, start := p })

def step (commands : Commands) (st : St) : Option (St ⊕ St) :=
  match st.buf[st.p]? with
  | none => none
  | some c =>
    if c = NUL then
      match segment commands st none with
      | none => none
      | some st => advance st 0
    else
      match isSeparator (st.buf.drop st.p) with
      | some (kind, skip) =>
        match segment commands st (some kind) with
        | none => none
        | some st => advance st skip
      | none =>
        if c = '#' then some (.inl { st with buf := st.buf.set st.p NUL })
        else some (.inl { st with p := st.p + 1 })

/-- A `#` is replaced by a terminator before the loop goes on. -/
def measure (st : St) : Nat :=
  2 * (st.buf.length - st.p) + if st.buf[st.p]? = some '#' then 1 else 0

end ExecLine

/-- The status, the numbers of the segments that were run, and the state. -/
def shellExecLine (commands : Commands) (line : Buf) (σ : Shell) :
    Option (Int × List Nat × Shell) :=
  let start := skipBlanks line 0
  match (line)[start]? with
  | none => none
  | some c =>
    if c = NUL ∨ c = '#' then some (0, [], σ)
    else
      (Loop.exec (ExecLine.step commands) ExecLine.measure ⟨line, start, start, 0, σ, 0, []⟩).map
        fun st => (st.rc, st.ran, st.σ)

end BojanOS
