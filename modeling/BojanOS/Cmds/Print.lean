import BojanOS.Shell.State
import Mathlib.Data.Nat.Digits.Defs

/-!
# Commands that only write (`cmd_echo`, `cmd_printf`, `cmd_seq`)

`Prog.emits` is the text that such a command puts out, with its exit code; it is `none` as soon as
a command reads or touches the filesystem.
-/

namespace BojanOS

namespace Prog

variable {α β : Type}

/-- `sh_putc` -/
def shPutc (c : Char) : Prog Unit := putc c (ret ())

def emits : Prog α → Option (List Char × α)
  | ret a => some ([], a)
  | putc c k => k.emits.map fun (s, a) => (c :: s, a)
  | _ => none

@[simp] theorem emits_pure (a : α) : (pure a : Prog α).emits = some ([], a) := rfl

@[simp] theorem emits_shPutc (c : Char) : (shPutc c).emits = some ([c], ()) := rfl

@[simp] theorem emits_bind (p : Prog α) (f : α → Prog β) :
    (p >>= f).emits = p.emits.bind fun (s, a) => (f a).emits.map fun (t, b) => (s ++ t, b) := by
  change (p.bind f).emits = _
  induction p with
  | ret a =>
    change (f a).emits = (f a).emits.map _
    cases (f a).emits <;> rfl
  | putc c k ih =>
    change ((k.bind f).emits).map _ = (k.emits.map _).bind _
    rw [ih]
    cases k.emits with
    | none => rfl
    | some r =>
      change Option.map _ ((f r.2).emits.map _) = (f r.2).emits.map _
      cases (f r.2).emits <;> rfl
  | getc k ih => rfl
  | getVfs k ih => rfl
  | setVfs v k ih => rfl
  | fault => rfl

theorem emits_append {p : Prog α} {q : α → Prog β} {text rest : List Char}
    {a : α} {b : β} (hp : p.emits = some (text, a)) (hq : (q a).emits = some (rest, b)) :
    (p >>= q).emits = some (text ++ rest, b) := by
  rw [emits_bind, hp]
  simp only [Option.bind_some, hq, Option.map_some]

@[simp] theorem emits_puts (s : List Char) : (puts s).emits = some (s, ()) := by
  induction s with
  | nil => rfl
  | cons c s ih =>
    rw [puts, emits, ih]
    rfl

/-- What only writes does to the state what writing its text does. -/
theorem run_of_emits {p : Prog α} {s : List Char} {a : α} (h : p.emits = some (s, a)) (σ : Shell) :
    p.run σ = (σ.shPuts s).map fun σ => (a, σ) := by
  induction p generalizing s σ with
  | ret b =>
    obtain ⟨rfl, rfl⟩ := Prod.mk.inj (Option.some.inj h)
    rfl
  | putc c k ih =>
    obtain ⟨⟨t, b⟩, hk, he⟩ := Option.map_eq_some_iff.mp h
    obtain ⟨rfl, rfl⟩ := Prod.mk.inj he
    rw [run, Shell.shPuts, List.foldlM_cons]
    cases σ.outRaw c with
    | none => rfl
    | some τ => exact ih hk τ
  | getc k ih => cases h
  | getVfs k ih => cases h
  | setVfs v k ih => cases h
  | fault => cases h

end Prog

/-! ## `echo` -/

/-- The loop over `argv[start .. argc)`, with a blank before every word but the first. -/
def echoLoop : Bool → List (List Char) → Prog Unit
  | _, [] => pure ()
  | first, word :: words => do
    if first then pure () else Prog.shPutc ' '
    Prog.puts word
    echoLoop false words

def cmdEcho (argv : List (List Char)) : Prog Int := do
  let noNewline := argv[1]? = some ['-', 'n']
  echoLoop true (argv.drop (if noNewline then 2 else 1))
  if noNewline then pure () else Prog.shPutc '\n'
  pure 0

theorem echoLoop_emits (words : List (List Char)) :
    (echoLoop false words).emits = some (words.flatMap fun w => ' ' :: w, ()) := by
  induction words with
  | nil => rfl
  | cons w words ih => simp [echoLoop, ih]

/-- The words with blanks between them, and a newline unless the first word is `-n`. -/
theorem cmdEcho_emits (name : List Char) (words : List (List Char)) :
    (cmdEcho (name :: words)).emits = some (if words[0]? = some ['-', 'n']
      then [' '].intercalate (words.drop 1) else [' '].intercalate words ++ ['\n'], 0) := by
  have hloop : ∀ ws : List (List Char),
      (echoLoop true ws).emits = some ([' '].intercalate ws, ()) := by
    intro ws
    cases ws with
    | nil => rfl
    | cons w ws =>
      have htail : [' '].intercalate (w :: ws) = w ++ ws.flatMap fun w => ' ' :: w := by
        induction ws generalizing w with
        | nil => simp [List.intercalate]
        | cons v ws ih => simp [List.intercalate_cons_cons, ih]
      simp [echoLoop, echoLoop_emits, htail]
  rw [cmdEcho]
  simp only [List.getElem?_cons_succ, Prog.emits_bind, hloop]
  split
  · simp
  · simp

/-! ## `printf` -/

/-- `switch (*s)` behind a backslash. -/
def printfEscape (c : Char) : Char :=
  match c with
  | 'n' => '\n'
  | 't' => '\t'
  | '\\' => '\\'
  | c => c

def printfLoop : List Char → Prog Unit
  | [] => pure ()
  | [c] => Prog.shPutc c
  | c :: d :: s => do
    if c = '\\' then
      Prog.shPutc (printfEscape d)
      printfLoop s
    else
      Prog.shPutc c
      printfLoop (d :: s)

def cmdPrintf (argv : List (List Char)) : Prog Int := do
  forM (argv.drop 1) printfLoop
  pure 0

/-- The text of one argument. -/
def printfText : List Char → List Char
  | [] => []
  | [c] => [c]
  | c :: d :: s => if c = '\\' then printfEscape d :: printfText s else c :: printfText (d :: s)

theorem printfLoop_emits (s : List Char) : (printfLoop s).emits = some (printfText s, ()) := by
  induction s using printfLoop.induct with
  | case1 => rfl
  | case2 c => rfl
  | case3 d s ih => simp [printfLoop, printfText, ih]
  | case4 c d s hc ih => simp [printfLoop, printfText, hc, ih]

theorem cmdPrintf_emits (argv : List (List Char)) :
    (cmdPrintf argv).emits = some ((argv.drop 1).flatMap printfText, 0) := by
  have hloop : ∀ ws : List (List Char),
      (forM ws printfLoop).emits = some (ws.flatMap printfText, ()) := by
    intro ws
    induction ws with
    | nil => rfl
    | cons w ws ih => simp [printfLoop_emits, ih]
  simp [cmdPrintf, hloop]

/-! ## `seq` -/

def INT_MAX : Int := 2 ^ 31 - 1

def isspace (c : Char) : Bool := c ∈ [' ', '\t', '\n', '\r', '\x0b', '\x0c']

def isdigit (c : Char) : Bool := '0' ≤ c ∧ c ≤ '9'

/-- `n = n * 10 + (*s - '0')` while there are digits; `none` when that leaves the range of `int`. -/
def atoiLoop : Int → List Char → Option Int
  | n, [] => some n
  | n, c :: s =>
    if isdigit c then
      let n := n * 10 + (c.toNat - '0'.toNat)
      if n ≤ INT_MAX then atoiLoop n s else none
    else some n

def atoi (s : List Char) : Option Int :=
  match s.dropWhile isspace with
  | '-' :: s => (atoiLoop 0 s).map fun n => n * -1
  | '+' :: s => atoiLoop 0 s
  | s => atoiLoop 0 s

/-- `%d` -/
def decimal (v : Int) : List Char :=
  let digits := if v = 0 then ['0'] else
    (Nat.digits 10 v.natAbs).reverse.map fun d => Char.ofNat ('0'.toNat + d)
  if v < 0 then '-' :: digits else digits

/-- The condition of one of the two loops, by the sign of `step`. -/
def seqMore (step last v : Int) : Prop := (0 < step ∧ v ≤ last) ∨ (step < 0 ∧ last ≤ v)

instance (step last v : Int) : Decidable (seqMore step last v) := instDecidableOr

/-- Every round brings `v` nearer to `last`, so the fuel of `cmdSeq` is enough. Between two values
of type `int`, `(int)v` is `v`. -/
def seqLoop (step last : Int) : Nat → Int → Prog Unit
  | 0, _ => .fault
  | k + 1, v =>
    if seqMore step last v then do
      Prog.puts (decimal v ++ ['\n'])
      seqLoop step last k (v + step)
    else pure ()

def cmdSeq (argv : List (List Char)) : Prog Int :=
  let arg i := atoi (argv.getD i [])
  let bounds : Option (Int × Int × Int) :=
    match argv.length with
    | 0 | 1 => some (1, 1, 1)
    | 2 => (arg 1).map fun last => (1, 1, last)
    | 3 => (arg 1).bind fun start => (arg 2).map fun last => (start, 1, last)
    | _ => (arg 1).bind fun start => (arg 2).bind fun step => (arg 3).map fun last =>
      (start, step, last)
  match bounds with
  | none => .fault
  | some (start, step, last) =>
    if step = 0 then pure 1
    else do
      seqLoop step last ((last - start).natAbs + 2) start
      pure 0

theorem seqLoop_emits {step last : Int} {k : Nat} {v : Int} (hpos : 0 < k)
    (hk : seqMore step last v → (last - v).natAbs + 2 ≤ k) :
    (seqLoop step last k v).emits.isSome := by
  induction k generalizing v with
  | zero => omega
  | succ k ih =>
    rw [seqLoop]
    by_cases hv : seqMore step last v
    · have hk := hk hv
      have hnext : (seqLoop step last k (v + step)).emits.isSome := by
        refine ih (by omega) fun hm => ?_
        simp only [seqMore] at hv hm
        omega
      obtain ⟨r, hr⟩ := Option.isSome_iff_exists.mp hnext
      simp [hv, hr]
    · rw [if_neg hv]
      rfl

/-- `seq` only writes, unless a number leaves the range of `int`. -/
theorem cmdSeq_emits {argv : List (List Char)}
    (h : ∀ s ∈ argv.drop 1, (atoi s).isSome) : (cmdSeq argv).emits.isSome := by
  have hloop : ∀ start step last : Int, (if step = 0 then pure 1 else do
      seqLoop step last ((last - start).natAbs + 2) start
      pure 0 : Prog Int).emits.isSome := by
    intro start step last
    split
    · rfl
    · have hsome : (seqLoop step last ((last - start).natAbs + 2) start).emits.isSome :=
        seqLoop_emits (Nat.succ_pos _) fun _ => Nat.le_refl _
      obtain ⟨r, hr⟩ := Option.isSome_iff_exists.mp hsome
      simp [hr]
  have hget : ∀ a ∈ argv.drop 1, ∃ n, atoi a = some n := fun a ha =>
    Option.isSome_iff_exists.mp (h a ha)
  rw [cmdSeq]
  rcases argv with _ | ⟨name, _ | ⟨a, _ | ⟨b, _ | ⟨c, rest⟩⟩⟩⟩
  · exact hloop 1 1 1
  · exact hloop 1 1 1
  · obtain ⟨n, hn⟩ := hget a (by simp)
    simpa [hn] using hloop 1 1 n
  · obtain ⟨n, hn⟩ := hget a (by simp)
    obtain ⟨m, hm⟩ := hget b (by simp)
    simpa [hn, hm] using hloop n 1 m
  · obtain ⟨n, hn⟩ := hget a (by simp)
    obtain ⟨m, hm⟩ := hget b (by simp)
    obtain ⟨l, hl⟩ := hget c (by simp)
    simpa [hn, hm, hl] using hloop n m l

/-- Their entries in `commands[]`. -/
def printCommands : Commands := fun name =>
  if name = "echo".toList then some cmdEcho
  else if name = "printf".toList then some cmdPrintf
  else if name = "seq".toList then some cmdSeq
  else none

end BojanOS
