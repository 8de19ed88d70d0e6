import BojanOS.Cmds.Numerals

/-!
# Formatted output (`sh_printf`)

`shPrintf` is the text that goes to `out_raw`. It is `none` where the source leaves its arrays, reads
an argument of another type than the one that was passed, or reads behind the format.

`Directive.text` is what the C standard prescribes for the conversions that the commands use, and
`Directive.standard_iff` says where the source prints it.
-/

namespace BojanOS

/-- An argument of an integer type, signed or not. -/
inductive IntArg where
  | int (w : BitVec 32)
  | long (w : BitVec 64)
  | llong (w : BitVec 64)

namespace IntArg

/-- The number of `l`s of its conversion. -/
def ls : IntArg → Nat
  | int _ => 0
  | long _ => 1
  | llong _ => 2

def signed : IntArg → Int
  | int w => w.toInt
  | long w => w.toInt
  | llong w => w.toInt

def unsigned : IntArg → Nat
  | int w => w.toNat
  | long w => w.toNat
  | llong w => w.toNat

theorem signed_range (a : IntArg) : -2 ^ 63 ≤ a.signed ∧ a.signed < 2 ^ 63 := by
  cases a with
  | int w =>
    have hlo := BitVec.le_two_mul_toInt (x := w)
    have hhi := BitVec.two_mul_toInt_lt (x := w)
    rw [signed]
    omega
  | long w | llong w =>
    have hlo := BitVec.le_two_mul_toInt (x := w)
    have hhi := BitVec.two_mul_toInt_lt (x := w)
    rw [signed]
    omega

theorem unsigned_lt (a : IntArg) : a.unsigned < 2 ^ 64 := by
  cases a with
  | int w =>
    have := w.isLt
    rw [unsigned]
    omega
  | long w | llong w => exact w.isLt

end IntArg

inductive PrintfArg where
  | str (s : Option (List Char))
  | num (a : IntArg)

/-- `lf >= 2 ? va_arg(ap, long long) : lf == 1 ? va_arg(ap, long) : va_arg(ap, int)` -/
def vaInt (lf : Nat) : List PrintfArg → Option (IntArg × List PrintfArg)
  | .num a :: args => if a.ls = min lf 2 then some (a, args) else none
  | _ => none

/-! ## `numbuf` -/

def NUMBUF_SIZE : Nat := 24

/-- `numbuf[nlen++] = c`. The bytes are kept with the last one in front, so `nlen` is the length. -/
def numPush (c : Char) (numbuf : List Char) : Option (List Char) :=
  if numbuf.length < NUMBUF_SIZE then some (c :: numbuf) else none

/-- `while (u) { numbuf[nlen++] = '0' + u % 10; u /= 10; }` -/
def numDigits : Nat → Nat → List Char → Option (List Char)
  | 0, _, _ => none
  | k + 1, u, numbuf =>
    if u = 0 then some numbuf
    else do
      let numbuf ← numPush (Char.ofNat ('0'.toNat + u % 10)) numbuf
      numDigits k (u / 10) numbuf

/-- The digits of `u`, at the front of `numbuf`. -/
def numStart (u : Nat) : Option (List Char) :=
  if u = 0 then numPush '0' [] else numDigits (u + 1) u []

/-- `k` rounds of `while (nlen < width) numbuf[nlen++] = ' ';` -/
def numPad : Nat → List Char → Option (List Char)
  | 0, numbuf => some numbuf
  | k + 1, numbuf => do numPad k (← numPush ' ' numbuf)

/-- `while (nlen--) out_raw(numbuf[nlen]);` with `nlen` behind it. -/
def numFlush : List Char → List Char × Int
  | [] => ([], -1)
  | c :: numbuf =>
    let (text, nlen) := numFlush numbuf
    (c :: text, nlen)

/-- `for (; k < width; k++) out_raw(' ');` -/
def blanks (k width : Int) : List Char := List.replicate (width - k).toNat ' '

/-- The last lines of `case 'd'` and of `case 'u'`. -/
def numPrint (left : Bool) (width : Int) (numbuf : List Char) : Option (List Char) :=
  if left then
    let (text, nlen) := numFlush numbuf
    some (text ++ blanks (nlen + 1) width)
  else (numPad (width - numbuf.length).toNat numbuf).map fun numbuf => (numFlush numbuf).1

/-! ## The conversions -/

/-- `b[]` of `sh_print_hex` has room for the sixteen digits. -/
def shPrintHex (v : Nat) : List Char :=
  "0x".toList ++ if v = 0 then ['0'] else
    (Nat.digits 16 v).reverse.map fun d => "0123456789abcdef".toList.getD d NUL

/-- `case 'd'`. Like the processor, `-v` wraps. -/
def printSigned (left : Bool) (width v : Int) : Option (List Char) := do
  let w := BitVec.ofInt 64 v
  let neg := v < 0
  let numbuf ← numStart (if neg then (-w).toNat else w.toNat)
  let numbuf ← if neg then numPush '-' numbuf else some numbuf
  numPrint left width numbuf

/-- `case 'u'` -/
def printUnsigned (left : Bool) (width : Int) (v : Nat) : Option (List Char) := do
  let numbuf ← numStart v
  numPrint left width numbuf

/-- `case 's'` -/
def printStr (left : Bool) (width : Int) (s : List Char) : List Char :=
  if left then s ++ blanks s.length width else blanks s.length width ++ s

/-- `switch (c)` -/
def conversion (c : Char) (left : Bool) (width : Int) (lf : Nat) (args : List PrintfArg) :
    Option (List Char × List PrintfArg) :=
  if c = 's' then
    match args with
    | .str s :: args => some (printStr left width (s.getD "(null)".toList), args)
    | _ => none
  else if c = 'c' then do
    let (a, args) ← vaInt 0 args
    some ([Char.ofNat (a.unsigned % 256)], args)
  else if c = 'd' ∨ c = 'i' then do
    let (a, args) ← vaInt lf args
    let text ← printSigned left width a.signed
    some (text, args)
  else if c = 'u' then do
    let (a, args) ← vaInt lf args
    let text ← printUnsigned left width a.unsigned
    some (text, args)
  else if c = 'x' then do
    let (a, args) ← vaInt lf args
    some (shPrintHex a.unsigned, args)
  else if c = '%' then some (['%'], args)
  else some (['%', c], args)

/-- `while (*fmt)`. The width is read like a number by `atoi`. -/
def shPrintfLoop : Nat → List Char → List PrintfArg → Option (List Char)
  | _, [], _ => some []
  | 0, _ :: _, _ => none
  | k + 1, c :: fmt, args =>
    if c ≠ '%' then (shPrintfLoop k fmt args).map (c :: ·)
    else do
      let left := fmt.head? = some '-'
      let fmt := if left then fmt.drop 1 else fmt
      let width ← atoiLoop 0 fmt
      let fmt := fmt.dropWhile isdigit
      let lf := (fmt.takeWhile (· = 'l')).length
      match fmt.dropWhile (· = 'l') with
      | [] => none
      | c :: fmt => do
        let (text, args) ← conversion c left width lf args
        let rest ← shPrintfLoop k fmt args
        some (text ++ rest)

def shPrintf (fmt : List Char) (args : List PrintfArg) : Option (List Char) :=
  shPrintfLoop fmt.length fmt args

/-! ## Digits -/

/-- The digits of `u`, if it is not 0. -/
def digitsText (u : Nat) : List Char :=
  (Nat.digits 10 u).reverse.map fun d => Char.ofNat ('0'.toNat + d)

theorem digitsText_step {u : Nat} (h : u ≠ 0) :
    digitsText u = digitsText (u / 10) ++ [Char.ofNat ('0'.toNat + u % 10)] := by
  rw [digitsText, Nat.digits_def' (by decide) (Nat.pos_of_ne_zero h), List.reverse_cons,
    List.map_append]
  rfl

/-- The loop writes the digits from the last one on. -/
theorem numDigits_eq {k u : Nat} {numbuf : List Char} (hk : u < k)
    (hfits : (digitsText u).length + numbuf.length ≤ NUMBUF_SIZE) :
    numDigits k u numbuf = some (digitsText u ++ numbuf) := by
  induction k generalizing u numbuf with
  | zero => exact absurd hk (Nat.not_lt_zero u)
  | succ k ih =>
    rw [numDigits]
    split
    · rename_i hu
      subst hu
      rfl
    · rename_i hu
      have hlt : u / 10 < u := Nat.div_lt_self (Nat.pos_of_ne_zero hu) (by decide)
      rw [digitsText_step hu, List.length_append, List.length_singleton] at hfits
      have hpush : numPush (Char.ofNat ('0'.toNat + u % 10)) numbuf =
          some (Char.ofNat ('0'.toNat + u % 10) :: numbuf) := if_pos (by omega)
      rw [hpush, Option.bind_eq_bind, Option.bind_some,
        ih (by omega) (by rw [List.length_cons]; omega), digitsText_step hu, List.append_assoc]
      rfl

/-- A number of 64 bits has at most twenty digits. -/
theorem digitsText_length {u : Nat} (h : u < 2 ^ 64) : (digitsText u).length ≤ 20 := by
  rw [digitsText, List.length_map, List.length_reverse]
  apply Nat.digits_length_le_iff (by decide) u |>.mpr
  exact h.trans_le (by decide)

theorem decimal_natCast (u : Nat) :
    decimal u = if u = 0 then ['0'] else digitsText u := by
  rw [decimal, if_neg (by omega)]
  simp only [Int.natCast_eq_zero, Int.natAbs_natCast]
  rfl

theorem decimal_length_pos (v : Int) : 0 < (decimal v).length := by
  rw [decimal]
  split
  · exact Nat.succ_pos _
  · split
    · exact Nat.succ_pos _
    · rename_i h
      have hne : Nat.digits 10 v.natAbs ≠ [] :=
        Nat.digits_ne_nil_iff_ne_zero.mpr (Int.natAbs_ne_zero.mpr h)
      rw [List.length_map, List.length_reverse]
      exact List.length_pos_iff.mpr hne

theorem decimal_eq (v : Int) :
    decimal v = (if v < 0 then ['-'] else []) ++ decimal v.natAbs := by
  rw [decimal_natCast, decimal]
  simp only [Int.natAbs_eq_zero]
  split
  · rfl
  · rfl

theorem decimal_length {u : Nat} (h : u < 2 ^ 64) : (decimal u).length ≤ 20 := by
  rw [decimal_natCast]
  split
  · decide
  · exact digitsText_length h

theorem numStart_eq {u : Nat} (h : u < 2 ^ 64) : numStart u = some (decimal u) := by
  rw [numStart, decimal_natCast]
  split
  · rfl
  · have hlen := digitsText_length h
    rw [numDigits_eq (Nat.lt_succ_self u) (by rw [List.length_nil, NUMBUF_SIZE]; omega),
      List.append_nil]

/-! ## Padding -/

theorem numFlush_eq (numbuf : List Char) : numFlush numbuf = (numbuf, -1) := by
  induction numbuf with
  | nil => rfl
  | cons c numbuf ih => rw [numFlush, ih]

theorem numPad_eq {k : Nat} {numbuf : List Char} (h : k + numbuf.length ≤ NUMBUF_SIZE) :
    numPad k numbuf = some (List.replicate k ' ' ++ numbuf) := by
  induction k generalizing numbuf with
  | zero => rfl
  | succ k ih =>
    have hpush : numPush ' ' numbuf = some (' ' :: numbuf) := if_pos (by omega)
    rw [numPad, hpush, Option.bind_eq_bind, Option.bind_some, ih (by rw [List.length_cons]; omega),
      List.replicate_succ', List.append_assoc]
    rfl

/-- To the right the blanks fill the field up, to the left there are `width` of them. -/
theorem numPrint_eq {left : Bool} {width : Nat} {numbuf : List Char} (hw : width ≤ NUMBUF_SIZE)
    (h : numbuf.length ≤ NUMBUF_SIZE) : numPrint left width numbuf = some
      (if left then numbuf ++ List.replicate width ' '
      else List.replicate (width - numbuf.length) ' ' ++ numbuf) := by
  rw [numPrint]
  cases left with
  | true =>
    rw [if_pos rfl, if_pos rfl, numFlush_eq]
    rfl
  | false =>
    have hk : ((width : Int) - numbuf.length).toNat = width - numbuf.length :=
      Int.toNat_sub width numbuf.length
    rw [if_neg Bool.false_ne_true, if_neg Bool.false_ne_true, hk, numPad_eq (by omega),
      Option.map_some, numFlush_eq]

theorem printUnsigned_eq (left : Bool) {width v : Nat} (hw : width ≤ NUMBUF_SIZE)
    (hv : v < 2 ^ 64) : printUnsigned left width v = some
      (if left then decimal v ++ List.replicate width ' '
      else List.replicate (width - (decimal v).length) ' ' ++ decimal v) := by
  have hlen := decimal_length hv
  rw [printUnsigned, numStart_eq hv, Option.bind_eq_bind, Option.bind_some]
  exact numPrint_eq hw (hlen.trans (by decide))

/-- The negation wraps for the least number only, and there it has the right bits. -/
theorem abs_bits {v : Int} (hlo : -2 ^ 63 ≤ v) (hhi : v < 2 ^ 63) :
    (if v < 0 then (-BitVec.ofInt 64 v).toNat else (BitVec.ofInt 64 v).toNat) = v.natAbs := by
  split
  · rw [← BitVec.ofInt_neg, BitVec.toNat_ofInt]
    omega
  · rw [BitVec.toNat_ofInt]
    omega

theorem printSigned_eq (left : Bool) {width : Nat} {v : Int} (hw : width ≤ NUMBUF_SIZE)
    (hlo : -2 ^ 63 ≤ v) (hhi : v < 2 ^ 63) : printSigned left width v = some
      (if left then decimal v ++ List.replicate width ' '
      else List.replicate (width - (decimal v).length) ' ' ++ decimal v) := by
  have habs : v.natAbs < 2 ^ 64 := by omega
  have hlen := decimal_length habs
  have hstart := numStart_eq habs
  rw [printSigned, abs_bits hlo hhi, hstart, decimal_eq v, Option.bind_eq_bind, Option.bind_some]
  by_cases hneg : v < 0
  · have hpush : numPush '-' (decimal v.natAbs) = some ('-' :: decimal v.natAbs) :=
      if_pos (hlen.trans_lt (by decide))
    rw [if_pos hneg, if_pos hneg, hpush, Option.bind_some]
    apply numPrint_eq hw
    rw [List.length_cons, NUMBUF_SIZE]
    omega
  · rw [if_neg hneg, if_neg hneg, Option.bind_some]
    exact numPrint_eq hw (hlen.trans (by decide))

/-! ## The format -/

theorem isdigit_ofNat {d : Nat} (h : d < 10) : isdigit (Char.ofNat ('0'.toNat + d)) = true := by
  interval_cases d <;> decide

theorem toNat_ofNat {d : Nat} (h : d < 10) : (Char.ofNat ('0'.toNat + d)).toNat - '0'.toNat = d := by
  interval_cases d <;> decide

theorem isdigit_decimal {u : Nat} : ∀ c ∈ decimal u, isdigit c = true := by
  intro c hc
  rw [decimal_natCast] at hc
  split at hc
  · obtain rfl := List.mem_singleton.mp hc
    decide
  · obtain ⟨d, hd, rfl⟩ := List.mem_map.mp hc
    exact isdigit_ofNat (Nat.digits_lt_base (by decide) (List.mem_reverse.mp hd))

theorem natValue_decimal (u : Nat) : natValue (decimal u) = u := by
  rw [decimal_natCast]
  split
  · rename_i hu
    rw [hu]
    decide
  · have hmap : ((Nat.digits 10 u).map fun d => Char.ofNat ('0'.toNat + d)).map
        (fun c => c.toNat - '0'.toNat) = Nat.digits 10 u := by
      rw [List.map_map]
      apply (List.map_congr_left fun d hd => ?_).trans (List.map_id _)
      exact toNat_ofNat (Nat.digits_lt_base (by decide) hd)
    rw [natValue, digitsText, ← List.map_reverse, List.reverse_reverse, hmap]
    exact Nat.ofDigits_digits 10 u

/-- Nothing is read behind the digits. -/
theorem atoiLoop_append {n : Int} {ds rest : List Char} (hds : ∀ c ∈ ds, isdigit c = true)
    (hrest : ∀ c, rest.head? = some c → isdigit c = false) :
    atoiLoop n (ds ++ rest) = atoiLoop n ds := by
  induction ds generalizing n with
  | nil =>
    cases rest with
    | nil => rfl
    | cons c rest =>
      have hc : ¬ isdigit c = true := Bool.not_eq_true _ ▸ hrest c rfl
      have hstop : atoiLoop n (c :: rest) = some n := by rw [atoiLoop, if_neg hc]
      rw [List.nil_append, hstop]
      rfl
  | cons c ds ih =>
    rw [List.cons_append, atoiLoop, atoiLoop]
    simp only
    rw [ih fun d hd => hds d (List.mem_cons_of_mem c hd)]

theorem dropWhile_digits {ds rest : List Char} (hds : ∀ c ∈ ds, isdigit c = true)
    (hrest : ∀ c, rest.head? = some c → isdigit c = false) :
    (ds ++ rest).dropWhile isdigit = rest := by
  rw [List.dropWhile_append_of_pos hds]
  cases rest with
  | nil => rfl
  | cons c rest => exact List.dropWhile_cons_of_neg (Bool.not_eq_true _ ▸ hrest c rfl)

theorem head_modifiers (n : Nat) {c d : Char} {fmt : List Char}
    (h : (List.replicate n 'l' ++ c :: fmt).head? = some d) : d = 'l' ∨ d = c := by
  cases n with
  | zero => exact Or.inr (Option.some.inj h).symm
  | succ n => exact Or.inl (Option.some.inj h).symm

theorem takeWhile_modifiers (n : Nat) {c : Char} (fmt : List Char) (hc : c ≠ 'l') :
    (List.replicate n 'l' ++ c :: fmt).takeWhile (fun d => decide (d = 'l')) =
      List.replicate n 'l' := by
  rw [List.takeWhile_append_of_pos fun d hd => decide_eq_true (List.eq_of_mem_replicate hd),
    List.takeWhile_cons_of_neg (by simpa using hc), List.append_nil]

theorem dropWhile_modifiers (n : Nat) {c : Char} (fmt : List Char) (hc : c ≠ 'l') :
    (List.replicate n 'l' ++ c :: fmt).dropWhile (fun d => decide (d = 'l')) = c :: fmt := by
  rw [List.dropWhile_append_of_pos fun d hd => decide_eq_true (List.eq_of_mem_replicate hd),
    List.dropWhile_cons_of_neg (by simpa using hc)]

/-- A conversion, and what is behind it in the format. -/
theorem shPrintfLoop_conversion (left : Bool) {ds : List Char} (n k : Nat) {c : Char}
    (fmt : List Char) (args : List PrintfArg) (hds : ∀ c ∈ ds, isdigit c = true)
    (hfits : natValue ds ≤ INT_MAX) (hc : isdigit c = false) (hl : c ≠ 'l') (hm : c ≠ '-') :
    shPrintfLoop (k + 1)
        ('%' :: ((if left then ['-'] else []) ++ (ds ++ (List.replicate n 'l' ++ c :: fmt)))) args =
      (conversion c left (natValue ds) n args).bind fun r =>
        (shPrintfLoop k fmt r.2).map (r.1 ++ ·) := by
  have htail : ∀ d, (List.replicate n 'l' ++ c :: fmt).head? = some d → isdigit d = false := by
    intro d hd
    rcases head_modifiers n hd with rfl | rfl
    · decide
    · exact hc
  have hhead : (ds ++ (List.replicate n 'l' ++ c :: fmt)).head? ≠ some '-' := by
    intro h
    cases ds with
    | nil =>
      rcases head_modifiers n h with h | h
      · exact absurd h (by decide)
      · exact hm h.symm
    | cons d ds =>
      have hd := hds d List.mem_cons_self
      rw [Option.some.inj h] at hd
      exact absurd hd (by decide)
  have hwidth : atoiLoop 0 (ds ++ (List.replicate n 'l' ++ c :: fmt)) =
      some (natValue ds : Int) := by
    rw [atoiLoop_append hds htail, atoiLoop_digits le_rfl (by decide) hds, zero_mul, zero_add,
      if_pos hfits]
  have hrun : ∀ (text : List Char), (if text.head? = some '-' then text.drop 1 else text) =
        ds ++ (List.replicate n 'l' ++ c :: fmt) →
      shPrintfLoop (k + 1) ('%' :: text) args =
        (conversion c (text.head? = some '-') (natValue ds) n args).bind fun r =>
          (shPrintfLoop k fmt r.2).map (r.1 ++ ·) := by
    intro text htext
    rw [shPrintfLoop, if_neg (Classical.not_not.mpr rfl)]
    simp only
    rw [htext, hwidth, dropWhile_digits hds htail, takeWhile_modifiers n fmt hl,
      dropWhile_modifiers n fmt hl, List.length_replicate, Option.bind_eq_bind, Option.bind_some]
    simp only [Option.bind_eq_bind]
    cases conversion c (text.head? = some '-') (natValue ds) n args with
    | none => rfl
    | some r => cases hrest : shPrintfLoop k fmt r.2 <;> simp [hrest]
  cases left with
  | true => exact hrun _ rfl
  | false =>
    have h := hrun (ds ++ (List.replicate n 'l' ++ c :: fmt)) (if_neg hhead)
    rwa [decide_eq_false hhead] at h

/-- A format that is one conversion. -/
theorem shPrintf_one (left : Bool) {ds : List Char} (n : Nat) {c : Char} (args : List PrintfArg)
    (hds : ∀ c ∈ ds, isdigit c = true) (hfits : natValue ds ≤ INT_MAX) (hc : isdigit c = false)
    (hl : c ≠ 'l') (hm : c ≠ '-') :
    shPrintf ('%' :: (if left then ['-'] else []) ++ ds ++ List.replicate n 'l' ++ [c]) args =
      (conversion c left (natValue ds) n args).map Prod.fst := by
  have hfmt : '%' :: (if left then ['-'] else []) ++ ds ++ List.replicate n 'l' ++ [c] =
      '%' :: ((if left then ['-'] else []) ++ (ds ++ (List.replicate n 'l' ++ [c]))) := by
    simp only [List.cons_append, List.append_assoc]
  rw [hfmt, shPrintf, List.length_cons, shPrintfLoop_conversion left n _ [] args hds hfits hc hl hm]
  cases conversion c left (natValue ds) n args with
  | none => rfl
  | some r => simp [shPrintfLoop]

/-! ## Formats in parts -/

section parts

variable {fmt : List Char} {args : List PrintfArg}

/-- As much fuel as there are characters is enough. -/
theorem shPrintfLoop_fuel {k k' : Nat} (hk : fmt.length ≤ k) (hk' : fmt.length ≤ k') :
    shPrintfLoop k fmt args = shPrintfLoop k' fmt args := by
  induction k generalizing k' fmt args with
  | zero =>
    obtain rfl := List.length_eq_zero_iff.mp (Nat.le_zero.mp hk)
    cases k' <;> rfl
  | succ k ih =>
    cases fmt with
    | nil => cases k' <;> rfl
    | cons c fmt =>
      rw [List.length_cons] at hk hk'
      obtain ⟨k', rfl⟩ := Nat.exists_eq_succ_of_ne_zero (Nat.ne_of_gt (Nat.lt_of_lt_of_le
        (Nat.succ_pos _) hk'))
      have hfmt : fmt.length ≤ k ∧ fmt.length ≤ k' := ⟨by omega, by omega⟩
      rw [shPrintfLoop, shPrintfLoop]
      split
      · rw [ih hfmt.1 hfmt.2]
      · simp only
        generalize hrest : (if fmt.head? = some '-' then fmt.drop 1 else fmt) = rest
        have hle : rest.length ≤ fmt.length := by
          rw [← hrest]
          split
          · rw [List.length_drop]
            omega
          · exact le_rfl
        have hle' : (((rest.dropWhile isdigit).dropWhile (· = 'l')).length) ≤ rest.length :=
          (List.dropWhile_suffix _).length_le.trans (List.dropWhile_suffix _).length_le
        cases hc : (rest.dropWhile isdigit).dropWhile (· = 'l') with
        | nil => rfl
        | cons c fmt' =>
          rw [hc, List.length_cons] at hle'
          simp only
          have hih : ∀ args, shPrintfLoop k fmt' args = shPrintfLoop k' fmt' args := fun _ =>
            ih (by omega) (by omega)
          simp only [hih]

theorem shPrintfLoop_eq {k : Nat} (hk : fmt.length ≤ k) :
    shPrintfLoop k fmt args = shPrintf fmt args := shPrintfLoop_fuel hk le_rfl

theorem shPrintf_nil : shPrintf [] args = some [] := rfl

theorem shPrintf_text {text : List Char} (h : '%' ∉ text) :
    shPrintf (text ++ fmt) args = (shPrintf fmt args).map (text ++ ·) := by
  induction text with
  | nil => exact (Option.map_id' (x := shPrintf fmt args)).symm
  | cons c text ih =>
    have hc : c ≠ '%' := fun he => h (he ▸ List.mem_cons_self)
    rw [List.cons_append, shPrintf, List.length_cons, shPrintfLoop, if_pos hc,
      shPrintfLoop_eq le_rfl, ih fun hm => h (List.mem_cons_of_mem c hm), Option.map_map]
    rfl

theorem shPrintf_conversion (left : Bool) {ds : List Char} (n : Nat) {c : Char}
    (hds : ∀ c ∈ ds, isdigit c = true) (hfits : natValue ds ≤ INT_MAX) (hc : isdigit c = false)
    (hl : c ≠ 'l') (hm : c ≠ '-') :
    shPrintf ('%' :: ((if left then ['-'] else []) ++ (ds ++ (List.replicate n 'l' ++ c :: fmt))))
        args =
      (conversion c left (natValue ds) n args).bind fun r =>
        (shPrintf fmt r.2).map (r.1 ++ ·) := by
  have hlen : fmt.length ≤ ((if left then ['-'] else []) ++
      (ds ++ (List.replicate n 'l' ++ c :: fmt))).length := by
    simp only [List.length_append, List.length_cons]
    omega
  rw [shPrintf, List.length_cons, shPrintfLoop_conversion left n _ fmt args hds hfits hc hl hm]
  simp only [shPrintfLoop_eq hlen]

theorem shPrintf_s (text : List Char) :
    shPrintf ('%' :: 's' :: fmt) (.str (some text) :: args) =
      (shPrintf fmt args).map (text ++ ·) := by
  have hnil : ∀ c ∈ ([] : List Char), isdigit c = true := fun _ h => absurd h List.not_mem_nil
  have hblanks : blanks text.length (natValue []) = [] := by
    have h0 : natValue [] = 0 := by decide
    have hzero : ((natValue [] : Nat) : Int) - text.length ≤ 0 := by omega
    rw [blanks, Int.toNat_of_nonpos hzero]
    rfl
  apply (shPrintf_conversion false 0 hnil (by decide) (by decide) (by decide)
    (by decide)).trans
  rw [conversion.eq_def, if_pos rfl]
  simp only [Option.bind_some, printStr, Bool.false_eq_true, if_false, hblanks, Option.getD_some,
    List.nil_append]

/-- A number of type `int`, with the width that `ds` stands for. -/
theorem shPrintf_u {ds : List Char} (hds : ∀ c ∈ ds, isdigit c = true)
    (hw : natValue ds ≤ NUMBUF_SIZE) (v : BitVec 32) :
    shPrintf ('%' :: (ds ++ 'u' :: fmt)) (.num (.int v) :: args) = (shPrintf fmt args).map
      (List.replicate (natValue ds - (decimal v.toNat).length) ' ' ++ decimal v.toNat ++ ·) := by
  have hfits : natValue ds ≤ INT_MAX := by
    rw [NUMBUF_SIZE] at hw
    rw [INT_MAX]
    omega
  have hlt : v.toNat < 2 ^ 64 := v.isLt.trans (by decide)
  apply (shPrintf_conversion false 0 hds hfits (by decide) (by decide) (by decide)).trans
  rw [conversion.eq_def, if_neg (by decide), if_neg (by decide), if_neg (by decide),
    if_pos (by decide)]
  simp only [vaInt, IntArg.ls, IntArg.unsigned, Nat.zero_min, if_true, Option.bind_eq_bind,
    Option.bind_some, printUnsigned_eq false hw hlt, Bool.false_eq_true, if_false]

/-- A signed number in the same way. -/
theorem shPrintf_d {ds : List Char} (hds : ∀ c ∈ ds, isdigit c = true)
    (hw : natValue ds ≤ NUMBUF_SIZE) (v : BitVec 32) :
    shPrintf ('%' :: (ds ++ 'd' :: fmt)) (.num (.int v) :: args) = (shPrintf fmt args).map
      (List.replicate (natValue ds - (decimal v.toInt).length) ' ' ++ decimal v.toInt ++ ·) := by
  have hfits : natValue ds ≤ INT_MAX := by
    rw [NUMBUF_SIZE] at hw
    rw [INT_MAX]
    omega
  obtain ⟨hlo, hhi⟩ := (IntArg.int v).signed_range
  apply (shPrintf_conversion false 0 hds hfits (by decide) (by decide) (by decide)).trans
  rw [conversion.eq_def, if_neg (by decide), if_neg (by decide), if_pos (by decide)]
  simp only [vaInt, IntArg.ls, Nat.zero_min, if_true, Option.bind_eq_bind, Option.bind_some,
    printSigned_eq false hw hlo hhi, Bool.false_eq_true, if_false]
  rfl

/-- A number without a width. -/
theorem shPrintf_number (v : BitVec 32) :
    shPrintf ('%' :: 'u' :: fmt) (.num (.int v) :: args) =
      (shPrintf fmt args).map (decimal v.toNat ++ ·) := by
  have hnil : ∀ c ∈ ([] : List Char), isdigit c = true := fun _ h => absurd h List.not_mem_nil
  have hzero : natValue [] - (decimal v.toNat).length = 0 := by
    have h0 : natValue [] = 0 := by decide
    omega
  apply (shPrintf_u hnil (by decide) v).trans
  rw [hzero]
  rfl

end parts

/-- `sh_printf` -/
def Prog.putf (fmt : List Char) (args : List PrintfArg) : Prog Unit :=
  match shPrintf fmt args with
  | none => .fault
  | some text => puts text

theorem Prog.emits_putf {fmt text : List Char} {args : List PrintfArg}
    (h : shPrintf fmt args = some text) : (putf fmt args).emits = some (text, ()) := by
  rw [putf, h]
  exact emits_puts text

/-! ## The standard -/

inductive Flag where
  | none
  | minus
  | zero
  deriving DecidableEq

def Flag.text : Flag → List Char
  | none => []
  | minus => ['-']
  | zero => ['0']

/-- A field of `width` bytes: blanks on the left, blanks on the right, or zeros behind the sign. -/
def field (flag : Flag) (width : Nat) (sign body : List Char) : List Char :=
  let fill := width - (sign ++ body).length
  match flag with
  | .none => List.replicate fill ' ' ++ sign ++ body
  | .minus => sign ++ body ++ List.replicate fill ' '
  | .zero => sign ++ List.replicate fill '0' ++ body

/-- A conversion with its argument. For `%s` there is no flag but `-`. -/
inductive Directive where
  | d (flag : Flag) (a : IntArg)
  | u (flag : Flag) (a : IntArg)
  | s (left : Bool) (text : List Char)

namespace Directive

/-- `%`, the flag, the width, the length modifier and the letter. -/
def format (width : Nat) : Directive → List Char
  | d flag a => '%' :: flag.text ++ decimal width ++ List.replicate a.ls 'l' ++ ['d']
  | u flag a => '%' :: flag.text ++ decimal width ++ List.replicate a.ls 'l' ++ ['u']
  | s left _ => '%' :: (if left then ['-'] else []) ++ decimal width ++ ['s']

def arg : Directive → PrintfArg
  | d _ a => .num a
  | u _ a => .num a
  | s _ text => .str (some text)

/-- What the standard prescribes. -/
def text (width : Nat) : Directive → List Char
  | d flag a => field flag width (if a.signed < 0 then ['-'] else []) (decimal a.signed.natAbs)
  | u flag a => field flag width [] (decimal a.unsigned)
  | s left text => field (if left then .minus else .none) width [] text

/-- `sh_printf` prints that. -/
def Printed (width : Nat) (D : Directive) : Prop :=
  shPrintf (D.format width) [D.arg] = some (D.text width)

/-- A number may have `-` only with the width 0, and `0` only with a width that it fills. -/
def NumberRight (width : Nat) (flag : Flag) (v : Int) : Prop :=
  (flag = .minus → width = 0) ∧ (flag = .zero → width ≤ (decimal v).length)

def Right (width : Nat) : Directive → Prop
  | d flag a => NumberRight width flag a.signed
  | u flag a => NumberRight width flag a.unsigned
  | s _ _ => True

end Directive

/-- What the source prints for a number is the field only in these cases. -/
theorem field_iff {flag : Flag} {width : Nat} {sign body : List Char}
    (hsign : sign = [] ∨ sign = ['-']) (hbody : 0 < (sign ++ body).length) :
    (if flag = .minus then sign ++ body ++ List.replicate width ' '
      else List.replicate (width - (sign ++ body).length) ' ' ++ (sign ++ body)) =
        field flag width sign body ↔
      (flag = .minus → width = 0) ∧ (flag = .zero → width ≤ (sign ++ body).length) := by
  cases flag with
  | none =>
    rw [if_neg (by decide), field, List.append_assoc]
    exact iff_of_true rfl ⟨fun h => (by cases h), fun h => (by cases h)⟩
  | minus =>
    rw [if_pos rfl, field]
    constructor
    · intro h
      refine ⟨fun _ => ?_, fun h => (by cases h)⟩
      have hlen := congrArg List.length (List.append_cancel_left h)
      rw [List.length_replicate, List.length_replicate] at hlen
      omega
    · rintro ⟨h, -⟩
      rw [h rfl, Nat.zero_sub]
  | zero =>
    rw [if_neg (by decide), field]
    constructor
    · intro h
      refine ⟨fun h => (by cases h), fun _ => ?_⟩
      by_contra hlt
      obtain ⟨k, hk⟩ := Nat.exists_eq_succ_of_ne_zero (Nat.sub_ne_zero_of_lt (Nat.not_le.mp hlt))
      rw [hk, List.replicate_succ, List.replicate_succ] at h
      rcases hsign with rfl | rfl
      · exact absurd (List.cons.inj h).1 (by decide)
      · exact absurd (List.cons.inj h).1 (by decide)
    · rintro ⟨-, h⟩
      rw [Nat.sub_eq_zero_of_le (h rfl), List.replicate_zero, List.nil_append, List.replicate_zero,
        List.append_nil]

namespace IntArg

theorem vaInt_ls (a : IntArg) (args : List PrintfArg) :
    vaInt a.ls (.num a :: args) = some (a, args) := by
  cases a <;> rfl

end IntArg

theorem natValue_zero_cons (ds : List Char) : natValue ('0' :: ds) = natValue ds := by
  rw [natValue_cons, Nat.sub_self, Nat.zero_mul, Nat.zero_add]

namespace Directive

variable {width : Nat}

/-- The flag `0` is read as a digit of the width. -/
theorem shPrintf_flag (hw : width ≤ NUMBUF_SIZE) (flag : Flag) (n : Nat) {c : Char}
    {args : List PrintfArg} (hc : isdigit c = false) (hl : c ≠ 'l') (hm : c ≠ '-') :
    shPrintf ('%' :: flag.text ++ decimal width ++ List.replicate n 'l' ++ [c]) args =
      (conversion c (flag = .minus) width n args).map Prod.fst := by
  have hmax : ((width : Nat) : Int) ≤ INT_MAX := by
    rw [NUMBUF_SIZE] at hw
    rw [INT_MAX]
    omega
  have hvalue := natValue_decimal width
  have hfits : (natValue (decimal width) : Int) ≤ INT_MAX := by rwa [hvalue]
  cases flag with
  | none =>
    have h := shPrintf_one false n args isdigit_decimal hfits hc hl hm
    rwa [hvalue] at h
  | minus =>
    have h := shPrintf_one true n args isdigit_decimal hfits hc hl hm
    rwa [hvalue] at h
  | zero =>
    have hds : ∀ d ∈ '0' :: decimal width, isdigit d = true :=
      List.forall_mem_cons.mpr ⟨by decide, isdigit_decimal⟩
    have hzero := natValue_zero_cons (decimal width)
    have h := shPrintf_one false n args hds (by rwa [hzero]) hc hl hm
    rwa [hzero, hvalue] at h

/-- The conversions of numbers. -/
theorem num_iff {flag : Flag} {v : Int} {p : Option (List Char)}
    (hp : p = some (if flag = .minus then decimal v ++ List.replicate width ' '
      else List.replicate (width - (decimal v).length) ' ' ++ decimal v)) :
    p = some (field flag width (if v < 0 then ['-'] else []) (decimal v.natAbs)) ↔
      (flag = .minus → width = 0) ∧ (flag = .zero → width ≤ (decimal v).length) := by
  have hsign : (if v < 0 then ['-'] else []) = [] ∨ (if v < 0 then ['-'] else []) = ['-'] := by
    split
    · exact Or.inr rfl
    · exact Or.inl rfl
  have hpos := decimal_length_pos v
  rw [decimal_eq v] at hp hpos ⊢
  rw [hp, Option.some.injEq]
  exact field_iff hsign hpos

theorem conversion_d (width : Nat) (left : Bool) (a : IntArg) :
    conversion 'd' left width a.ls [.num a] =
      (printSigned left width a.signed).map fun text => (text, []) := by
  rw [conversion.eq_def, if_neg (by decide), if_neg (by decide), if_pos (by decide), a.vaInt_ls,
    Option.bind_eq_bind, Option.bind_some]
  simp only
  cases printSigned left width a.signed <;> rfl

theorem conversion_u (left : Bool) (a : IntArg) :
    conversion 'u' left width a.ls [.num a] =
      (printUnsigned left width a.unsigned).map fun text => (text, []) := by
  rw [conversion.eq_def, if_neg (by decide), if_neg (by decide), if_neg (by decide), if_pos (by decide),
    a.vaInt_ls, Option.bind_eq_bind, Option.bind_some]
  simp only
  cases printUnsigned left width a.unsigned <;> rfl

/-- A string is always printed right. -/
theorem printed_s (left : Bool) (text : List Char) (hw : width ≤ NUMBUF_SIZE) :
    (s left text).Printed width := by
  have hformat : (s left text).format width =
      '%' :: (if left then Flag.minus else .none).text ++ decimal width ++
        List.replicate 0 'l' ++ ['s'] := by
    cases left <;> rw [format, List.replicate_zero, List.append_nil] <;> rfl
  have hconv : ∀ left, conversion 's' left width 0 [.str (some text)] =
      some (printStr left width text, []) := fun _ => rfl
  have hfill : ((width : Int) - text.length).toNat = width - text.length := Int.toNat_sub _ _
  have harg : (s left text).arg = .str (some text) := rfl
  rw [Printed, hformat, shPrintf_flag hw _ 0 (by decide) (by decide) (by decide), harg, hconv,
    Option.map_some, printStr, blanks, hfill, Directive.text]
  cases left with
  | false =>
    rw [if_neg (by decide), if_neg Bool.false_ne_true, field, List.append_nil]
    rfl
  | true => rfl

/-- Up to a width of 23, `sh_printf` prints what the standard says in these cases, and otherwise
something else. -/
theorem printed_iff (D : Directive) (width : Nat) (hw : width ≤ 23) :
    D.Printed width ↔ D.Right width := by
  have hw : width ≤ NUMBUF_SIZE := hw.trans (by decide)
  cases D with
  | d flag a =>
    obtain ⟨hlo, hhi⟩ := a.signed_range
    apply num_iff
    rw [format, shPrintf_flag hw flag a.ls (by decide) (by decide) (by decide), arg, conversion_d,
      printSigned_eq _ hw hlo hhi]
    simp
  | u flag a =>
    have hlt : ¬ (a.unsigned : Int) < 0 := by omega
    have hrun : shPrintf (format width (u flag a)) [arg (u flag a)] =
        some (if flag = .minus then decimal a.unsigned ++ List.replicate width ' '
          else List.replicate (width - (decimal a.unsigned).length) ' ' ++ decimal a.unsigned) := by
      rw [format, shPrintf_flag hw flag a.ls (by decide) (by decide) (by decide), arg,
        conversion_u, printUnsigned_eq _ hw a.unsigned_lt]
      simp
    have hnum := num_iff hrun
    rwa [if_neg hlt, Int.natAbs_natCast] at hnum
  | s left text => exact iff_of_true (printed_s left text hw) trivial

/-- `%02u` of 45 fills its width. -/
theorem printed_minutes : (u .zero (.int 45)).Printed 2 := by
  apply (printed_iff (u .zero (.int 45)) 2 (by decide)).mpr
  refine And.intro (fun h => ?_) fun _ => ?_
  · cases h
  · decide

/-- `%02u` of 5 prints a blank for the zero. -/
theorem not_printed_minutes : ¬ ∀ (D : Directive) (width : Nat), width ≤ 23 → D.Printed width := by
  intro h
  have h5 := h (u .zero (.int 5)) 2 (by decide)
  rw [Printed] at h5
  revert h5
  decide

end Directive

/-! ## The way back -/

theorem shPrintf_decimal (v : BitVec 32) :
    shPrintf "%d".toList [.num (.int v)] = some (decimal v.toInt) := by
  have hnil : ∀ c ∈ ([] : List Char), isdigit c = true := fun _ h => absurd h List.not_mem_nil
  have hzero : natValue [] - (decimal v.toInt).length = 0 := Nat.zero_sub _
  have hfmt : "%d".toList = '%' :: ([] ++ 'd' :: []) := by decide
  rw [hfmt, shPrintf_d hnil (by decide), hzero, shPrintf_nil, Option.map_some, List.append_nil]
  rfl

theorem isDecimal_decimal (v : Int) : IsDecimal (decimal v) ∧ intValue (decimal v) = v := by
  have hpos := decimal_length_pos v.natAbs
  have hne : decimal v.natAbs ≠ [] := List.ne_nil_of_length_pos hpos
  rw [decimal_eq v]
  by_cases hneg : v < 0
  · rw [if_pos hneg]
    have hu : unsigned (['-'] ++ decimal v.natAbs) = decimal v.natAbs := rfl
    refine ⟨⟨hu ▸ hne, hu ▸ isdigit_decimal⟩, ?_⟩
    have hhead : (['-'] ++ decimal v.natAbs).head? = some '-' := rfl
    rw [intValue, if_pos hhead, hu, natValue_decimal]
    omega
  · rw [if_neg hneg, List.nil_append]
    have hhead : ∀ c, (decimal v.natAbs).head? = some c → isdigit c = true := fun c hc =>
      isdigit_decimal c (List.mem_of_mem_head? hc)
    have hminus : (decimal v.natAbs).head? ≠ some '-' := fun h =>
      absurd (hhead _ h) (by decide)
    have hplus : (decimal v.natAbs).head? ≠ some '+' := fun h =>
      absurd (hhead _ h) (by decide)
    have hu : unsigned (decimal v.natAbs) = decimal v.natAbs := by
      rw [unsigned, if_neg]
      rintro (h | h)
      · exact hminus h
      · exact hplus h
    refine ⟨⟨hu.symm ▸ hne, hu.symm ▸ isdigit_decimal⟩, ?_⟩
    rw [intValue, if_neg hminus, hu, natValue_decimal]
    omega

/-- The digits of a number are read back unless it is the least one. -/
theorem atoi_decimal_iff (v : BitVec 32) :
    (shPrintf "%d".toList [.num (.int v)]).bind atoi = some v.toInt ↔ v.toInt ≠ -2 ^ 31 := by
  obtain ⟨hdec, hval⟩ := isDecimal_decimal v.toInt
  have hlo := BitVec.le_two_mul_toInt (x := v)
  have hhi := BitVec.two_mul_toInt_lt (x := v)
  rw [shPrintf_decimal, Option.bind_some, atoi_decimal hdec, hval, INT_MAX]
  constructor
  · intro h
    split at h
    · omega
    · cases h
  · intro h
    rw [if_pos (by omega)]

/-- -2147483648 is printed, and the digits leave the range of `int`. -/
theorem not_atoi_decimal_least : ¬ ∀ v : BitVec 32,
    (shPrintf "%d".toList [.num (.int v)]).bind atoi = some v.toInt := by
  intro h
  have hleast := h (BitVec.intMin 32)
  revert hleast
  decide

end BojanOS
