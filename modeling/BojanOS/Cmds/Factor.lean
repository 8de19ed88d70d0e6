import BojanOS.Cmds.Numerals
import Mathlib.Data.Nat.Factors

/-!
# Trial division (`cmd_factor`)

`n` and `d` are `long`s of 64 bits. A product `d * d` that leaves them makes the program fault, so a
text that it emits says that none did.
-/

namespace BojanOS

def LONG_MAX : Int := 2 ^ 63 - 1

/-- `d * d`; `none` when that leaves the range of `long`. -/
def longSquare (d : Int) : Option Int := if d * d ≤ LONG_MAX then some (d * d) else none

/-- `while (n % d == 0)`. What is printed divides a number of type `int`, so `(int)d` is `d`. -/
def factorDivide (d : Int) : Nat → Int → Prog Int
  | 0, _ => .fault
  | k + 1, n =>
    if n.tmod d = 0 then do
      Prog.puts (' ' :: decimal d)
      factorDivide d k (n.tdiv d)
    else pure n

/-- `for (long d = 2; d * d <= n; d++)`, with what is left of `n`. -/
def factorLoop : Nat → Int → Int → Prog Int
  | 0, _, _ => .fault
  | k + 1, d, n =>
    match longSquare d with
    | none => .fault
    | some q =>
      if q ≤ n then do
        let n ← factorDivide d n.natAbs n
        factorLoop k (d + 1) n
      else pure n

def cmdFactor (argv : List (List Char)) : Prog Int :=
  if argv.length < 2 then do
    Prog.puts "factor: missing number\n".toList
    pure 1
  else
    match atoi (argv.getD 1 []) with
    | none => .fault
    | some n => do
      Prog.puts (decimal n ++ [':'])
      if n < 2 then do
        Prog.shPutc '\n'
        pure 0
      else do
        let n ← factorLoop n.natAbs 2 n
        if 1 < n then Prog.puts (' ' :: decimal n) else pure ()
        Prog.shPutc '\n'
        pure 0

/-! ## The factors -/

/-- How a list of factors is printed. -/
def factorsText (ps : List Nat) : List Char := ps.flatMap fun p : Nat => ' ' :: decimal p

/-- Trial division has come to `d`: nothing below it divides `n`. -/
structure Rough (d n : Nat) : Prop where
  pos : 0 < n
  le : ∀ p, p.Prime → p ∣ n → d ≤ p

namespace Rough

variable {d n : Nat}

theorem two (h : 0 < n) : Rough 2 n := ⟨h, fun _ hp _ => hp.two_le⟩

theorem div (h : Rough d n) (hd : d ∣ n) : Rough d (n / d) :=
  ⟨Nat.div_pos (Nat.le_of_dvd h.pos hd) (Nat.pos_of_dvd_of_pos hd h.pos),
    fun p hp hn => h.le p hp (hn.trans (Nat.div_dvd_of_dvd hd))⟩

theorem succ (h : Rough d n) (hd : ¬ d ∣ n) : Rough (d + 1) n := by
  refine ⟨h.pos, fun p hp hn => ?_⟩
  rcases (h.le p hp hn).lt_or_eq with hlt | rfl
  · exact hlt
  · exact absurd hn hd

/-- A divisor that is found is the smallest factor. -/
theorem primeFactorsList_eq (h : Rough d n) (h2 : 2 ≤ d) (hd : d ∣ n) :
    n.primeFactorsList = d :: (n / d).primeFactorsList := by
  have hle : d ≤ n := Nat.le_of_dvd h.pos hd
  have hmin : n.minFac = d :=
    le_antisymm (Nat.minFac_le_of_dvd h2 hd)
      (h.le _ (Nat.minFac_prime (by omega)) (Nat.minFac_dvd n))
  obtain ⟨m, rfl⟩ := Nat.exists_eq_add_of_le' (h2.trans hle)
  rw [Nat.primeFactorsList_add_two, hmin]

/-- Past the square root, what is left has one factor at most. -/
theorem primeFactorsList_lt (h : Rough d n) (hn : n < d * d) :
    n.primeFactorsList = if 1 < n then [n] else [] := by
  split
  · rename_i h1
    apply Nat.primeFactorsList_prime
    by_contra hnp
    have hsq : n.minFac ^ 2 ≤ n := Nat.minFac_sq_le_self h.pos hnp
    have hle : d ≤ n.minFac := h.le _ (Nat.minFac_prime h1.ne') (Nat.minFac_dvd n)
    have hmul : d * d ≤ n.minFac * n.minFac := Nat.mul_le_mul hle hle
    rw [pow_two] at hsq
    omega
  · rename_i h1
    apply (Nat.primeFactorsList_eq_nil n).mpr
    have := h.pos
    omega

end Rough

/-! ## The loops -/

/-- The inner loop prints the factors `d`. -/
theorem factorDivide_emits {d n k : Nat} (h2 : 2 ≤ d) (h : Rough d n) (hk : n ≤ k) :
    ∃ (ps : List Nat) (m : Nat), (factorDivide d k n).emits = some (factorsText ps, ↑m) ∧
      n.primeFactorsList = ps ++ m.primeFactorsList ∧ m ≤ n ∧ Rough (d + 1) m := by
  induction k generalizing n with
  | zero => exact absurd h.pos (Nat.not_lt.mpr hk)
  | succ k ih =>
    have hmod : (n : Int).tmod d = 0 ↔ d ∣ n := by
      rw [← Int.ofNat_tmod]
      exact Int.natCast_eq_zero.trans (Nat.dvd_iff_mod_eq_zero).symm
    rw [factorDivide]
    by_cases hd : d ∣ n
    · have hlt : n / d < n := Nat.div_lt_self h.pos h2
      obtain ⟨ps, m, hrun, hlist, hle, hr⟩ := ih (h.div hd) (by omega)
      refine ⟨d :: ps, m, ?_, ?_, hle.trans hlt.le, hr⟩
      · rw [if_pos (hmod.mpr hd), Prog.emits_bind, Prog.emits_puts, ← Int.ofNat_tdiv, Option.bind_some,
          hrun]
        rfl
      · rw [h.primeFactorsList_eq h2 hd, hlist]
        rfl
    · refine ⟨[], n, ?_, rfl, le_rfl, h.succ hd⟩
      rw [if_neg fun h0 => hd (hmod.mp h0)]
      rfl

/-- The squares stay small: `d` is at most `N`, and so is every square that does not end the loop. -/
theorem longSquare_eq {d : Nat} (h : d ≤ 2 ^ 31) : longSquare d = some ((d * d : Nat) : Int) := by
  have hmul : d * d ≤ 2 ^ 31 * 2 ^ 31 := Nat.mul_le_mul h h
  have hle : (d : Int) * d ≤ LONG_MAX := by
    rw [LONG_MAX]
    omega
  rw [longSquare, if_pos hle]
  rfl

theorem atoi_le {s : List Char} {v : Int} (h : atoi s = some v) : v ≤ INT_MAX := by
  have hzero : (0 : Int) ≤ 0 ∧ 0 ≤ INT_MAX := by decide
  obtain ⟨ds, ⟨ha, -⟩ | ⟨ha, -⟩⟩ := atoi_digits s
  · rw [ha] at h
    obtain ⟨n, hn, rfl⟩ := Option.map_eq_some_iff.mp h
    have := atoiLoop_range hzero hn
    omega
  · rw [ha] at h
    exact (atoiLoop_range hzero h).2

/-- The outer loop prints all factors but the last one, which is left in `n`. -/
theorem factorLoop_emits {N d n k : Nat} (hN : (N : Int) ≤ INT_MAX) (h2 : 2 ≤ d) (hd : d ≤ N + 1)
    (h : Rough d n) (hn : n ≤ N) (hk : N < k + d) (h0 : 0 < k) :
    ∃ (ps : List Nat) (m : Nat), (factorLoop k d n).emits = some (factorsText ps, ↑m) ∧
      n.primeFactorsList = ps ++ if 1 < m then [m] else [] := by
  induction k generalizing d n with
  | zero => exact absurd h0 (Nat.lt_irrefl 0)
  | succ k ih =>
    rw [INT_MAX] at hN
    have hsq : longSquare d = some ((d * d : Nat) : Int) := longSquare_eq (by omega)
    rw [factorLoop, hsq]
    simp only [Int.ofNat_le]
    split
    · rename_i hdd
      have hlt : d < d * d := (Nat.lt_mul_iff_one_lt_left (by omega)).mpr h2
      obtain ⟨ps, m, hrun, hlist, hle, hr⟩ := factorDivide_emits h2 h (le_refl n)
      obtain ⟨qs, r, hloop, hlist'⟩ := ih (d := d + 1) (by omega) (by omega) hr (hle.trans hn)
        (by omega) (by omega)
      refine ⟨ps ++ qs, r, ?_, ?_⟩
      · rw [Prog.emits_bind, Int.natAbs_natCast, hrun, Option.bind_some]
        simp only
        rw [← Int.natCast_succ, hloop, factorsText, factorsText, factorsText, List.flatMap_append]
        rfl
      · rw [hlist, hlist', List.append_assoc]
    · rename_i hdd
      exact ⟨[], n, rfl, h.primeFactorsList_lt (Nat.not_le.mp hdd)⟩

/-- `factor` prints the prime factors in order. -/
theorem cmdFactor_emits {argv : List (List Char)} {n : Nat} (ha : 2 ≤ argv.length)
    (hn : atoi (argv.getD 1 []) = some (n : Int)) (h2 : 2 ≤ n) :
    (cmdFactor argv).emits =
      some (decimal n ++ ':' :: factorsText n.primeFactorsList ++ ['\n'], 0) := by
  obtain ⟨ps, m, hloop, hlist⟩ := factorLoop_emits (atoi_le hn) le_rfl (by omega)
    (Rough.two (by omega)) le_rfl (by omega) (by omega : 0 < n)
  have hlt : ¬ (n : Int) < 2 := by omega
  have hcast : ((2 : Nat) : Int) = 2 := rfl
  rw [cmdFactor, if_neg (Nat.not_lt.mpr ha), hn]
  simp only [Prog.emits_bind, Prog.emits_puts, Option.bind_some, if_neg hlt, Int.natAbs_natCast]
  rw [← hcast, hloop, hlist]
  by_cases hm : 1 < m
  · simp [if_pos hm, factorsText]
  · simp [if_neg hm, factorsText]

/-- For every number from 2 on: primes in order, with the number for their product. -/
theorem cmdFactor_primes (argv : List (List Char)) (n : Int) (ha : 2 ≤ argv.length)
    (hn : atoi (argv.getD 1 []) = some n) (h2 : 2 ≤ n) :
    ∃ ps : List Nat,
      (cmdFactor argv).emits = some (decimal n ++ ':' :: factorsText ps ++ ['\n'], 0) ∧
      ps.Pairwise (· ≤ ·) ∧ (∀ p ∈ ps, p.Prime) ∧ (ps.prod : Int) = n := by
  obtain ⟨m, rfl⟩ := Int.eq_ofNat_of_zero_le (by omega : 0 ≤ n)
  refine ⟨m.primeFactorsList, cmdFactor_emits ha hn (by omega), ?_, ?_, ?_⟩
  · exact (Nat.primeFactorsList_sorted m).pairwise
  · exact fun p => Nat.prime_of_mem_primeFactorsList
  · rw [Nat.prod_primeFactorsList (by omega)]

/-- `factor 60` -/
theorem cmdFactor_primes_sixty : ∃ ps : List Nat,
    (cmdFactor ["factor".toList, "60".toList]).emits =
      some (decimal 60 ++ ':' :: factorsText ps ++ ['\n'], 0) ∧
    ps.Pairwise (· ≤ ·) ∧ (∀ p ∈ ps, p.Prime) ∧ (ps.prod : Int) = 60 :=
  cmdFactor_primes ["factor".toList, "60".toList] 60 (by decide) (by decide) (by decide)

end BojanOS
