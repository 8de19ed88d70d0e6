import BojanOS.Shell.State
import BojanOS.Lib.Loop
import Mathlib.Data.Nat.Digits.Defs

/-!
# `tokenize`, in place

A `char*` into the line is the list of the bytes from there to the end of the array, and the
functions below return the bytes they leave behind. An access past the end is a fault, `none`.
-/

namespace BojanOS

/-- The bytes from a pointer to the end of its array. -/
abbrev Buf := List Char

def isBlank (c : Char) : Bool := c = ' ' ∨ c = '\t'

/-- What ends a word outside quotes. -/
def isDelim (c : Char) : Bool := isBlank c ∨ c = '>' ∨ c = '<'

/-- `while (*p == ' ' || *p == '\t') p++;` -/
def skipBlanks (buf : Buf) (p : Nat) : Nat := p + ((buf.drop p).takeWhile isBlank).length

/-- The string at a pointer. -/
def cstr (buf : Buf) (p : Nat) : List Char := (buf.drop p).takeWhile (· ≠ NUL)

/-- `buf[p] = c` -/
def store (buf : Buf) (p : Nat) (c : Char) : Option Buf :=
  if p < buf.length then some (buf.set p c) else none

/-- A pointer in `cl.items`: into the line, or to a block of `expand_tilde`, given by its text. -/
inductive Item where
  | line (start : Nat)
  | heap (text : List Char)
  deriving DecidableEq

def Item.text (buf : Buf) : Item → List Char
  | line start => cstr buf start
  | heap text => text

/-- `cmdline_t`, for items of any kind. `out_file` and `in_file` are the texts that
`strncpy(.., 255)` took. -/
structure Cmdline (ι : Type) where
  items : List ι
  outFile : List Char
  outAppend : Bool
  inFile : List Char
  hasOut : Bool
  hasIn : Bool
  deriving DecidableEq

namespace Cmdline

variable {ι κ : Type}

def empty : Cmdline ι := ⟨[], [], false, [], false, false⟩

def push (cl : Cmdline ι) (item : ι) : Cmdline ι := { cl with items := cl.items ++ [item] }

def setOut (cl : Cmdline ι) (outFile : List Char) (outAppend : Bool) : Cmdline ι :=
  { cl with outFile, outAppend, hasOut := true }

def setIn (cl : Cmdline ι) (inFile : List Char) : Cmdline ι := { cl with inFile, hasIn := true }

def map (f : ι → κ) (cl : Cmdline ι) : Cmdline κ := { cl with items := cl.items.map f }

end Cmdline

def REDIR_MAX : Nat := 255

/-- The text of the copy, or `none` where the token itself is returned. -/
def expandTilde (tok : List Char) (ram : Ram) : Option (List Char) × Ram :=
  match tok with
  | '~' :: rest =>
    if rest = [] ∨ rest.head? = some '/' then
      match ram.kmalloc (tok.length + 8) with
      | (none, ram) => (none, ram)
      | (some _, ram) => (some ("/root".toList ++ rest), ram)
    else (none, ram)
  | _ => (none, ram)

/-- The digits that `$?` is replaced by. -/
def statusText (code : Fin 256) : List Char :=
  if code.val = 0 then ['0']
  else (Nat.digits 10 code.val).reverse.map fun d => Char.ofNat ('0'.toNat + d)

/-- `append_str` -/
def appendStr (buf : Buf) (out : Nat) : List Char → Option (Buf × Nat)
  | [] => some (buf, out)
  | c :: s => (store buf out c).bind fun buf => appendStr buf (out + 1) s

namespace Tokenize

/-- The variables of the inner loop, which copies one word. -/
structure WordSt where
  buf : Buf
  p : Nat
  out : Nat
  quote : Nat

/-- `quote = quote == k ? 0 : k` -/
def toggle (quote k : Nat) : Nat := if quote = k then 0 else k

/-- `*out++ = *p++;` -/
def copyChar (st : WordSt) (c : Char) : Option (WordSt ⊕ WordSt) :=
  (store st.buf st.out c).map fun buf => .inl { st with buf, p := st.p + 1, out := st.out + 1 }

/-- One round of `while (*p)`. -/
def wordStep (code : Fin 256) (st : WordSt) : Option (WordSt ⊕ WordSt) :=
  match st.buf[st.p]? with
  | none => none
  | some c =>
    if c = NUL then some (.inr st)
    else if c = '\'' ∧ st.quote ≠ 2 then
      some (.inl { st with quote := toggle st.quote 1, p := st.p + 1 })
    else if c = '"' ∧ st.quote ≠ 1 then
      some (.inl { st with quote := toggle st.quote 2, p := st.p + 1 })
    else if st.quote = 0 ∧ isDelim c then some (.inr st)
    else if st.quote = 0 ∧ c = '$' then
      match st.buf[st.p + 1]? with
      | none => none
      | some d =>
        if d = '?' then
          (appendStr st.buf st.out (statusText code)).map fun (buf, out) =>
            .inl { st with buf, out, p := st.p + 2 }
        else copyChar st c
    else copyChar st c

/-- `p` goes up, and the loop does not go on behind the end of the array. -/
def wordMeasure (st : WordSt) : Nat := st.buf.length - st.p

def wordLoop (code : Fin 256) (st : WordSt) : Option WordSt :=
  Loop.exec (wordStep code) wordMeasure st

/-- The variables of the outer loop. -/
structure St where
  buf : Buf
  p : Nat
  cl : Cmdline Item
  ram : Ram

/-- `is_out && p[1] == '>'` -/
def isAppend (isOut : Bool) (d : Char) : Bool := isOut && d = '>'

/-- A redirection operator at `p`. -/
def redirStep (st : St) (isOut : Bool) : Option (St ⊕ St) :=
  match st.buf[st.p + 1]? with
  | none => none
  | some d =>
    let app := isAppend isOut d
    let start := skipBlanks st.buf (st.p + if app then 2 else 1)
    let name := (st.buf.drop start).takeWhile fun c => c ≠ NUL ∧ ¬ isDelim c
    let p := start + name.length
    match st.buf[p]? with
    | none => none
    | some saved =>
      -- `*p` is 0 while the name is copied
      let text := name.take REDIR_MAX
      let cl := if isOut then st.cl.setOut text app else st.cl.setIn text
      some (.inl { st with cl, p := if saved ≠ NUL then p + 1 else p })

/-- What the inner loop starts from. -/
def wordStart (st : St) : WordSt := ⟨st.buf, st.p, st.p, 0⟩

/-- A word at `p`. -/
def itemStep (code : Fin 256) (st : St) : Option (St ⊕ St) :=
  match wordLoop code (wordStart st) with
  | none => none
  | some w =>
    match w.buf[w.p]? with
    | none => none
    | some delim =>
      let buf := if delim ≠ NUL then w.buf.set w.p NUL else w.buf
      let p := if delim ≠ NUL then w.p + 1 else w.p
      match store buf w.out NUL with
      | none => none
      | some buf =>
        let (copy, ram) := expandTilde (cstr buf st.p) st.ram
        let item := match copy with
          | none => Item.line st.p
          | some text => Item.heap text
        some (.inl ⟨buf, p, st.cl.push item, ram⟩)

/-- What the head of the loop finds. -/
inductive Head where
  | stop
  | redir (isOut : Bool)
  | word
  deriving DecidableEq

/-- `while (*p && cl->count < 63)` and the blanks before the next thing; `none` is a read past the
end. The second component is the new `p`. -/
def head (st : St) : Option (Head × Nat) :=
  match st.buf[st.p]? with
  | none => none
  | some c =>
    if c = NUL ∨ 63 ≤ st.cl.items.length then some (.stop, st.p)
    else
      let p := skipBlanks st.buf st.p
      match st.buf[p]? with
      | none => none
      | some c =>
        if c = NUL then some (.stop, p)
        else if c = '>' then some (.redir true, p)
        else if c = '<' then some (.redir false, p)
        else some (.word, p)

def tokStep (code : Fin 256) (st : St) : Option (St ⊕ St) :=
  match head st with
  | none => none
  | some (.stop, p) => some (.inr { st with p })
  | some (.redir isOut, p) => redirStep { st with p } isOut
  | some (.word, p) => itemStep code { st with p }

def tokMeasure (st : St) : Nat := st.buf.length - st.p

def start (line : Buf) (ram : Ram) : St := ⟨line, 0, .empty, ram⟩

end Tokenize

/-- The line after the call, the pointers, and the heap. -/
def tokenize (code : Fin 256) (line : Buf) (ram : Ram) : Option (Buf × Cmdline Item × Ram) :=
  (Loop.exec (Tokenize.tokStep code) Tokenize.tokMeasure (Tokenize.start line ram)).map fun st =>
    (st.buf, st.cl, st.ram)

end BojanOS
