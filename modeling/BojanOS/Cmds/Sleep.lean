import BojanOS.Lib.Loop
import BojanOS.Shell.Printf

/-!
# The timer and `sleep` (`timer.c`, `cmd_sleep`)

`sleep_ms` looks at the timer until the time is over. A `TimerRun` says how many ticks there were at
each of its looks. A negative number of seconds becomes a number of milliseconds near `2 ^ 64`.
-/

namespace BojanOS

/-! ## The timer -/

/-- The values of `ticks` at the calls of `timer_uptime_ms`. -/
structure TimerRun where
  ticks : Nat → Nat
  mono : Monotone ticks
  ticks_lt : ∀ k, ticks k < 2 ^ 60

namespace TimerRun

/-- `timer_uptime_ms` -/
def uptimeMs (c : TimerRun) (k : Nat) : BitVec 64 := BitVec.ofNat 64 (c.ticks k) * 10#64

/-- The milliseconds that have passed since the first call. -/
def advanced (c : TimerRun) (k : Nat) : Nat := (c.ticks k - c.ticks 0) * 10

theorem toNat_uptimeMs (c : TimerRun) (k : Nat) : (c.uptimeMs k).toNat = c.ticks k * 10 := by
  have h := c.ticks_lt k
  rw [uptimeMs, BitVec.toNat_mul, BitVec.toNat_ofNat, BitVec.toNat_ofNat]
  omega

end TimerRun

/-- The first call gives the target; the state of the loop is the number of the call. -/
def sleepMs (uptimeMs : Nat → BitVec 64) (fuel : Nat) (ms : BitVec 64) : Option Nat :=
  let target := uptimeMs 0 + ms
  Loop.run (Loop.poll fun k => ¬ uptimeMs k < target) fuel 1

/-- The exit code, and the number of the call with which `sleep_ms` ends. -/
def cmdSleep (uptimeMs : Nat → BitVec 64) (fuel : Nat) (argv : List (List Char)) :
    Option (Int × Nat) :=
  if argv.length < 2 then some (1, 0)
  else do
    let secs ← atoi (argv.getD 1 [])
    let k ← sleepMs uptimeMs fuel (BitVec.ofInt 64 secs * 1000#64)
    some (0, k)

/-! ## The number of seconds -/

/-- The number that a string begins with, behind blanks and a sign. -/
def decimalValue (s : List Char) : Int :=
  let s := s.dropWhile isspace
  let n := natValue ((unsigned s).takeWhile isdigit)
  if s.head? = some '-' then -n else n

theorem atoiLoop_value (s : List Char) : atoiLoop 0 s =
    if (natValue (s.takeWhile isdigit) : Int) ≤ INT_MAX then some ↑(natValue (s.takeWhile isdigit))
    else none := by
  have hds : ∀ c ∈ s.takeWhile isdigit, isdigit c = true := fun _ h => List.mem_takeWhile_imp h
  have hrest : ∀ c, (s.dropWhile isdigit).head? = some c → isdigit c = false := by
    intro c hc
    have h := List.head?_dropWhile_not isdigit s
    rw [hc] at h
    simpa using h
  have hloop := atoiLoop_digits (n := 0) le_rfl (by decide) hds
  rw [zero_mul, zero_add] at hloop
  rw [← hloop, ← atoiLoop_append hds hrest, List.takeWhile_append_dropWhile]

/-- `atoi` finds the number if it is in the range of `int`. -/
theorem atoi_value (s : List Char) : atoi s =
    if ((decimalValue s).natAbs : Int) ≤ INT_MAX then some (decimalValue s) else none := by
  rw [atoi, decimalValue]
  generalize s.dropWhile isspace = t
  split
  · rename_i t
    have hdigits : unsigned ('-' :: t) = t := rfl
    rw [List.head?_cons, if_pos rfl, hdigits, atoiLoop_value, Int.natAbs_neg, Int.natAbs_natCast]
    split_ifs
    · exact congrArg some (mul_neg_one _)
    · rfl
  · rename_i t
    have hdigits : unsigned ('+' :: t) = t := rfl
    have hplus : some '+' ≠ some '-' := by decide
    rw [List.head?_cons, if_neg hplus, hdigits, atoiLoop_value, Int.natAbs_natCast]
  · rename_i hminus hplus
    have hsign : ∀ c ∈ ['-', '+'], t.head? ≠ some c := by
      intro c hc h
      obtain ⟨u, rfl⟩ := List.head?_eq_some_iff.mp h
      rw [List.mem_cons, List.mem_singleton] at hc
      rcases hc with rfl | rfl
      · exact hminus u rfl
      · exact hplus u rfl
    have hdigits : unsigned t = t := by
      rw [unsigned, if_neg]
      rintro (h | h)
      · exact hsign '-' (by decide) h
      · exact hsign '+' (by decide) h
    rw [if_neg (hsign '-' (by decide)), hdigits, atoiLoop_value, Int.natAbs_natCast]

/-! ## What is waited for -/

/-- The loop is left at the first call that comes `ms` milliseconds or more behind the first one. -/
def WaitsFor (c : TimerRun) (argv : List (List Char)) (ms : Nat) : Prop :=
  ∀ fuel k, cmdSleep c.uptimeMs fuel argv = some (0, k) ↔
    1 ≤ k ∧ k ≤ fuel ∧ ms ≤ c.advanced k ∧ ∀ j, 1 ≤ j → j < k → c.advanced j < ms

/-- `sleep` reads the number of seconds, the product and the target are those of the integers, and
the loop is left in time. -/
def SleepsRight (c : TimerRun) (argv : List (List Char)) : Prop :=
  ∃ secs, atoi (argv.getD 1 []) = some secs ∧ secs = decimalValue (argv.getD 1 []) ∧
    ((BitVec.ofInt 64 secs * 1000#64).toNat : Int) = secs * 1000 ∧
    ((c.uptimeMs 0 + BitVec.ofInt 64 secs * 1000#64).toNat : Int) =
      (c.uptimeMs 0).toNat + secs * 1000 ∧
    WaitsFor c argv ((max 0 secs).toNat * 1000)

variable {c : TimerRun} {name arg : List Char} {rest : List (List Char)} {n : Nat}

theorem cmdSleep_eq {secs : Int} (h : atoi arg = some secs) (fuel : Nat) :
    cmdSleep c.uptimeMs fuel (name :: arg :: rest) =
      (sleepMs c.uptimeMs fuel (BitVec.ofInt 64 secs * 1000#64)).map fun k => (0, k) := by
  have harg : (name :: arg :: rest).getD 1 [] = arg := rfl
  have hlen : ¬ (name :: arg :: rest).length < 2 := by
    rw [List.length_cons, List.length_cons]
    omega
  rw [cmdSleep, if_neg hlen, harg, h, Option.bind_eq_bind, Option.bind_some]
  cases sleepMs c.uptimeMs fuel (BitVec.ofInt 64 secs * 1000#64) with
  | none => rfl
  | some k => rfl

theorem toNat_product (hn : (n : Int) ≤ INT_MAX) :
    (BitVec.ofInt 64 n * 1000#64).toNat = n * 1000 := by
  rw [INT_MAX] at hn
  rw [BitVec.ofInt_natCast, BitVec.toNat_mul, BitVec.toNat_ofNat, BitVec.toNat_ofNat]
  omega

theorem toNat_target (c : TimerRun) (hn : (n : Int) ≤ INT_MAX) :
    (c.uptimeMs 0 + BitVec.ofInt 64 n * 1000#64).toNat = c.ticks 0 * 10 + n * 1000 := by
  have h0 := c.ticks_lt 0
  rw [BitVec.toNat_add, toNat_product hn, c.toNat_uptimeMs]
  rw [INT_MAX] at hn
  omega

/-- A number of seconds that is not negative is waited for. -/
theorem waitsFor_seconds (c : TimerRun) (h : atoi arg = some (n : Int)) (hn : (n : Int) ≤ INT_MAX) :
    WaitsFor c (name :: arg :: rest) (n * 1000) := by
  have hover : ∀ k, ¬ c.uptimeMs k < c.uptimeMs 0 + BitVec.ofInt 64 n * 1000#64 ↔
      n * 1000 ≤ c.advanced k := by
    intro k
    have hmono := c.mono (Nat.zero_le k)
    rw [BitVec.lt_def, toNat_target c hn, c.toNat_uptimeMs, TimerRun.advanced]
    omega
  intro fuel k
  rw [cmdSleep_eq h, sleepMs]
  simp only [Option.map_eq_some_iff, Prod.mk.injEq, true_and, exists_eq_right, Loop.run_poll, hover,
    Nat.not_le, Nat.lt_one_add_iff]

theorem toNat_product_negative (h0 : 0 < n) (hn : (n : Int) ≤ INT_MAX) :
    (BitVec.ofInt 64 (-n) * 1000#64).toNat = 2 ^ 64 - n * 1000 := by
  rw [INT_MAX] at hn
  have hneg : (BitVec.ofInt 64 (-n)).toNat = 2 ^ 64 - n := by
    rw [BitVec.toNat_ofInt]
    omega
  rw [BitVec.toNat_mul, hneg, BitVec.toNat_ofNat]
  omega

/-- Before as many seconds have passed since the boot as a negative number asks back for, `sleep`
does not return. -/
theorem cmdSleep_negative (c : TimerRun) (h : atoi arg = some (-(n : Int)))
    (hearly : c.ticks 0 * 10 < n * 1000) (hn : (n : Int) ≤ INT_MAX) (fuel : Nat) :
    cmdSleep c.uptimeMs fuel (name :: arg :: rest) = none := by
  have h0 : 0 < n := by omega
  have hlate : ∀ k, c.uptimeMs k < c.uptimeMs 0 + BitVec.ofInt 64 (-n) * 1000#64 := by
    intro k
    have hk := c.ticks_lt k
    have hmax : n ≤ 2 ^ 31 := by
      rw [INT_MAX] at hn
      omega
    have hlt : c.ticks 0 * 10 + (2 ^ 64 - n * 1000) < 2 ^ 64 := by omega
    rw [BitVec.lt_def, BitVec.toNat_add, toNat_product_negative h0 hn, c.toNat_uptimeMs,
      c.toNat_uptimeMs, Nat.mod_eq_of_lt hlt]
    omega
  rw [cmdSleep_eq h, Option.map_eq_none_iff, Option.eq_none_iff_forall_ne_some]
  intro k hk
  exact (Loop.run_poll.mp hk).2.2.1 (hlate k)

/-- `sleep` is right exactly for the numbers of seconds that are not negative and fit in an
`int`. -/
theorem sleepsRight_iff (c : TimerRun) (name arg : List Char) (rest : List (List Char)) :
    SleepsRight c (name :: arg :: rest) ↔ 0 ≤ decimalValue arg ∧ decimalValue arg ≤ INT_MAX := by
  have harg : (name :: arg :: rest).getD 1 [] = arg := rfl
  rw [SleepsRight, harg]
  constructor
  · rintro ⟨secs, hatoi, rfl, hproduct, -⟩
    rw [atoi_value] at hatoi
    split_ifs at hatoi with hfits
    omega
  · rintro ⟨hlo, hhi⟩
    obtain ⟨n, hn⟩ := Int.eq_ofNat_of_zero_le hlo
    rw [hn] at hhi
    have hatoi : atoi arg = some (n : Int) := by
      rw [atoi_value, hn, Int.natAbs_natCast, if_pos hhi]
    refine ⟨n, hatoi, hn.symm, ?_, ?_, ?_⟩
    · rw [toNat_product hhi]
      push_cast
      rfl
    · rw [toNat_target c hhi, c.toNat_uptimeMs]
      push_cast
      rfl
    · have hmax : (max 0 (n : Int)).toNat = n := by omega
      rw [hmax]
      exact waitsFor_seconds c hatoi hhi

/-- The machine has just been started, and the timer goes on by one tick a look for ten seconds. -/
def freshTimer : TimerRun where
  ticks k := min k 1000
  mono _ _ h := min_le_min_right 1000 h
  ticks_lt k := (min_le_right k 1000).trans_lt (by decide)

/-- `sleep -1` does not return. -/
theorem not_sleepsRight_negative :
    ¬ SleepsRight freshTimer ["sleep".toList, "-1".toList] ∧
    ∀ fuel, cmdSleep freshTimer.uptimeMs fuel ["sleep".toList, "-1".toList] = none := by
  have hatoi : atoi "-1".toList = some (-((1 : Nat) : Int)) := by decide
  refine ⟨?_, cmdSleep_negative freshTimer hatoi (by decide) (by decide)⟩
  rintro ⟨secs, hsecs, -, hproduct, -⟩
  have harg : ["sleep".toList, "-1".toList].getD 1 [] = "-1".toList := rfl
  rw [harg, hatoi] at hsecs
  obtain rfl := Option.some.inj hsecs
  omega

end BojanOS
