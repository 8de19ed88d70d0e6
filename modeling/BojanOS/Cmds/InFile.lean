import BojanOS.Cmds.Tail
import BojanOS.Shell.Printf

/-!
# Input that is read where it lies (`infile_t`)

`open_input` takes the pointer and the size of a file, and the commands read through the pointer,
byte by byte, with their output in between. They are written here for any way to open a file:
`InFile.ofNode` is the one of the source, `InFile.ofText` a copy that nobody can change.

`Reads` says which text an open file delivers in the states of an invariant. If output keeps the
invariant, the commands put out what they make of that text.
-/

namespace BojanOS

open Prog

/-- `f.size`, and the read of `f.data[i]`. -/
structure InFile where
  size : Nat
  read : Nat → Prog Char

namespace InFile

/-- `f->data = n->data; f->size = n->size;` -/
def ofNode (v : Vnode) : InFile where
  size := v.size
  read i :=
    match v.data with
    | none => .fault
    | some d => do
      let v ← vfs
      pure (v.ram.mem (d + i))

/-- A text that is in no file. -/
def ofText (text : List Char) : InFile where
  size := text.length
  read i :=
    match text[i]? with
    | none => .fault
    | some c => pure c

/-- The file as the source opens it. -/
def byPointer (v : Vfs) (n : Nat) : InFile := ofNode (v.node n)

/-- The file as it is when it is opened. -/
def byValue (v : Vfs) (n : Nat) : InFile := ofText (v.contents n)

/-! ## The commands -/

section Commands

variable (file : Vfs → Nat → InFile) (fuel : Nat)

/-- `open_input`. The buffer of `read_all_stdin` belongs to the command. -/
def openInput (path : Option (List Char)) : Prog (Option InFile) :=
  match path with
  | none => do
    let b ← readStdin fuel .init
    pure (if b.data ≠ none ∨ b.bytes = [] then some (ofText b.bytes) else none)
  | some path => do
    let v ← vfs
    match (v.vfsResolve path).filter fun n => (v.node n).type = .file with
    | none => do
      puts (path ++ ": no such file\n".toList)
      pure none
    | some n => pure (some (file v n))

/-- `k` rounds of `sh_putc(f.data[i])`, from `i` on. -/
def copy (f : InFile) : Nat → Nat → Prog Unit
  | 0, _ => pure ()
  | k + 1, i => do
    let c ← f.read i
    shPutc c
    f.copy k (i + 1)

/-- `if (f.size) sh_write(f.data, f.size);` -/
def write (f : InFile) : Prog Unit := if f.size ≠ 0 then f.copy f.size 0 else pure ()

/-- The loop of `cmd_cat` over its operands. -/
def catFiles : List (List Char) → Int → Prog Int
  | [], rc => pure rc
  | path :: paths, rc => do
    match ← openInput file fuel (some path) with
    | none => catFiles paths 1
    | some f => do
      f.write
      catFiles paths rc

def cmdCat (argv : List (List Char)) : Prog Int :=
  if argv.length < 2 then do
    let b ← readStdin fuel .init
    if b.data ≠ none then puts b.bytes
    pure 0
  else catFiles file fuel (argv.drop 1) 0

/-- `k` rounds from `i` on; the byte is read again behind the output. -/
def headLoop (f : InFile) (n : Nat) : Nat → Nat → Nat → Prog Unit
  | 0, _, _ => pure ()
  | k + 1, i, lines =>
    if lines < n then do
      shPutc (← f.read i)
      let c ← f.read i
      f.headLoop n k (i + 1) (if c = '\n' then lines + 1 else lines)
    else pure ()

/-- The arguments are read as by `cmd_tail`; `(size_t)n` of a negative count is large. -/
def cmdHead (argv : List (List Char)) : Prog Int := do
  let (n, operands) := tailArgs argv
  match ← openInput file fuel operands.head? with
  | none => pure 1
  | some f => do
    f.headLoop (n % 2 ^ 64).toNat f.size 0 0
    pure 0

/-- The loop of `cmd_tail` from `i` down, with the newlines so far; the result is `start`. -/
def tailLoop (f : InFile) (n : Int) : Nat → Int → Prog Nat
  | 0, _ => pure 0
  | i + 1, lines => do
    if (← f.read i) = '\n' then
      if lines + 1 = n then pure (i + 1) else f.tailLoop n i (lines + 1)
    else f.tailLoop n i lines

/-- The two loops of `cmd_tail`. -/
def tail (f : InFile) (n : Int) : Prog Unit := do
  let start ← f.tailLoop n f.size 0
  f.copy (f.size - start) start

def cmdTail (argv : List (List Char)) : Prog Int := do
  let (n, operands) := tailArgs argv
  match ← openInput file fuel operands.head? with
  | none => pure 1
  | some f => do
    f.tail n
    pure 0

/-- `lines`, `words` and `inw` of `cmd_wc`. -/
structure Counts where
  lines : Nat
  words : Nat
  inw : Bool

def Counts.add (w : Counts) (c : Char) : Counts :=
  let lines := if c = '\n' then w.lines + 1 else w.lines
  if c = ' ' ∨ c = '\t' ∨ c = '\n' ∨ c = '\r' then ⟨lines, w.words, false⟩
  else if ¬ w.inw then ⟨lines, w.words + 1, true⟩
  else { w with lines }

def wcLoop (f : InFile) : Nat → Nat → Counts → Prog Counts
  | 0, _, w => pure w
  | k + 1, i, w => do f.wcLoop k (i + 1) (w.add (← f.read i))

/-- `sh_printf("%u ", (unsigned)n);` -/
def putCount (n : Nat) : Prog Unit :=
  match shPrintf "%u ".toList [.num (.int (BitVec.ofNat 32 n))] with
  | none => .fault
  | some text => puts text

/-- What `cmd_wc` prints. -/
def wcReport (letters : List Char) (path : Option (List Char)) (w : Counts) (bytes : Nat) :
    Prog Int := do
  let all := ¬ (letters.any fun c => c = 'l' ∨ c = 'w' ∨ c = 'c')
  if 'l' ∈ letters ∨ all then putCount w.lines
  if 'w' ∈ letters ∨ all then putCount w.words
  if 'c' ∈ letters ∨ all then putCount bytes
  puts (path.getD [])
  shPutc '\n'
  pure 0

def cmdWc (argv : List (List Char)) : Prog Int := do
  let (letters, operands) := options (argv.drop 1)
  match ← openInput file fuel operands.head? with
  | none => pure 1
  | some f => do
    let w ← f.wcLoop f.size 0 ⟨0, 0, false⟩
    wcReport letters operands.head? w f.size

/-- The four commands in a table of commands. -/
def readers (commands : Commands) : Commands := fun name =>
  if name = "cat".toList then some (cmdCat file fuel)
  else if name = "head".toList then some (cmdHead file fuel)
  else if name = "tail".toList then some (cmdTail file fuel)
  else if name = "wc".toList then some (cmdWc file fuel)
  else commands name

end Commands

/-! ## What is read -/

/-- In the states of `I` the file delivers the text. -/
structure Reads (I : Shell → Prop) (f : InFile) (text : List Char) : Prop where
  size : f.size = text.length
  read : ∀ i (h : i < text.length) σ, I σ → (f.read i).run σ = some (text[i], σ)

/-- Output does not lead out of `I`. -/
def Lasts (I : Shell → Prop) : Prop := ∀ ⦃σ c σ'⦄, I σ → σ.outRaw c = some σ' → I σ'

theorem reads_ofText (I : Shell → Prop) (text : List Char) : Reads I (ofText text) text where
  size := rfl
  read i h σ _ := by
    simp only [ofText, List.getElem?_eq_getElem h]
    rfl

variable {I : Shell → Prop} {f : InFile} {text : List Char} {σ : Shell} {k i : Nat}

theorem copy_run (hI : Lasts I) (hf : Reads I f text) (hi : i + k ≤ text.length) (hσ : I σ) :
    (f.copy k i).run σ = (puts ((text.drop i).take k)).run σ := by
  induction k generalizing i σ with
  | zero => rfl
  | succ k ih =>
    have hlt : i < text.length := by omega
    rw [copy, run_bind, hf.read i hlt σ hσ, Option.bind_some, run_bind,
      List.drop_eq_getElem_cons hlt, List.take_succ_cons, puts, shPutc, run, run, Option.bind_assoc]
    cases hout : σ.outRaw text[i] with
    | none => rfl
    | some σ' => exact ih (by omega) (hI hσ hout)

theorem write_run (hI : Lasts I) (hf : Reads I f text) (hσ : I σ) :
    f.write.run σ = (puts text).run σ := by
  have hcopy := copy_run hI hf (i := 0) (k := f.size) (by rw [hf.size]; omega) hσ
  rw [List.drop_zero, hf.size, List.take_length] at hcopy
  rw [write]
  split_ifs with h0
  · rw [hf.size]
    exact hcopy
  · rw [← hcopy, ← hf.size, not_not.mp h0]
    rfl

/-- What `head` prints of the rest of a text. -/
def headText (n : Nat) : Nat → List Char → List Char
  | _, [] => []
  | lines, c :: text =>
    if lines < n then c :: headText n (if c = '\n' then lines + 1 else lines) text else []

theorem headLoop_run (hI : Lasts I) (hf : Reads I f text) {n lines : Nat}
    (hi : i + k = text.length) (hσ : I σ) :
    (f.headLoop n k i lines).run σ = (puts (headText n lines (text.drop i))).run σ := by
  induction k generalizing i lines σ with
  | zero =>
    rw [List.drop_eq_nil_of_le (by omega)]
    rfl
  | succ k ih =>
    have hlt : i < text.length := by omega
    rw [headLoop, List.drop_eq_getElem_cons hlt, headText]
    by_cases hn : lines < n
    · rw [if_pos hn, if_pos hn, run_bind, hf.read i hlt σ hσ, Option.bind_some, run_bind, puts,
        shPutc, run, run, Option.bind_assoc]
      cases hout : σ.outRaw text[i] with
      | none => rfl
      | some σ' =>
        simp only [Option.bind_some, run]
        rw [run_bind, hf.read i hlt σ' (hI hσ hout), Option.bind_some]
        exact ih (by omega) (hI hσ hout)
    · rw [if_neg hn, if_neg hn]
      rfl

theorem tailLoop_run (hf : Reads I f text) {n lines : Int} (hi : i ≤ text.length) (hσ : I σ) :
    (f.tailLoop n i lines).run σ = some (tailStart n text i lines, σ) := by
  induction i generalizing lines with
  | zero => rfl
  | succ i ih =>
    have hlt : i < text.length := hi
    rw [tailLoop, run_bind, hf.read i hlt σ hσ, Option.bind_some, tailStart,
      List.getElem?_eq_getElem hlt]
    simp only [Option.some.injEq]
    split_ifs
    · rfl
    · exact ih hlt.le
    · exact ih hlt.le

theorem tailStart_le (n : Int) (text : List Char) (i : Nat) (lines : Int) :
    tailStart n text i lines ≤ i := by
  induction i generalizing lines with
  | zero => exact le_rfl
  | succ i ih =>
    rw [tailStart]
    split_ifs
    · exact le_rfl
    · exact (ih _).trans (Nat.le_succ i)
    · exact (ih _).trans (Nat.le_succ i)

theorem tail_run (hI : Lasts I) (hf : Reads I f text) (hσ : I σ) (n : Int) :
    (f.tail n).run σ = (puts (tailText n text)).run σ := by
  have hle := tailStart_le n text text.length 0
  rw [tail, run_bind, tailLoop_run hf hf.size.le hσ, Option.bind_some, hf.size]
  simp only
  rw [copy_run hI hf (by omega) hσ, List.take_of_length_le (by rw [List.length_drop]), tailText]

theorem wcLoop_run (hf : Reads I f text) {w : Counts} (hi : i + k = text.length) (hσ : I σ) :
    (f.wcLoop k i w).run σ = some ((text.drop i).foldl Counts.add w, σ) := by
  induction k generalizing i w with
  | zero =>
    rw [List.drop_eq_nil_of_le (by omega)]
    rfl
  | succ k ih =>
    have hlt : i < text.length := by omega
    rw [wcLoop, run_bind, hf.read i hlt σ hσ, Option.bind_some, List.drop_eq_getElem_cons hlt,
      List.foldl_cons]
    exact ih (by omega)

end InFile

end BojanOS
