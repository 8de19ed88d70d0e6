import BojanOS.Cmds.Input
import Mathlib.Data.Nat.Digits.Lemmas
import Mathlib.Tactic.Linarith
import Mathlib.Tactic.Ring

/-!
# Numbers in arguments and lines (`atoi`)

`atoi` of `Print` is the checked one. Here the arithmetic of its `int` wraps, and both are compared
with the number that a decimal numeral stands for.
-/

namespace BojanOS

/-! ## `atoi` on an `int` of 32 bits -/

/-- `n = n * 10 + (*s - '0')` while there are digits, without a look at the range. -/
def atoiWordLoop : BitVec 32 → List Char → BitVec 32
  | n, [] => n
  | n, c :: s =>
    if isdigit c then atoiWordLoop (n * 10 + BitVec.ofInt 32 (c.toNat - '0'.toNat)) s else n

/-- `atoi` where the arithmetic of `int` wraps; `atoi_word` compares it with the checked one. -/
def atoiWord (s : List Char) : Int :=
  match s.dropWhile isspace with
  | '-' :: s => (atoiWordLoop 0 s * BitVec.ofInt 32 (-1)).toInt
  | '+' :: s => (atoiWordLoop 0 s).toInt
  | s => (atoiWordLoop 0 s).toInt

theorem atoiLoop_word {n v : Int} {s : List Char} (h : atoiLoop n s = some v) :
    atoiWordLoop (BitVec.ofInt 32 n) s = BitVec.ofInt 32 v := by
  induction s generalizing n with
  | nil =>
    obtain rfl := Option.some.inj h
    rfl
  | cons c s ih =>
    rw [atoiLoop] at h
    rw [atoiWordLoop]
    split at h
    · rename_i hc
      simp only at h
      split at h
      · rw [if_pos hc, ← ih h, BitVec.ofInt_add, BitVec.ofInt_mul]
        rfl
      · cases h
    · rename_i hc
      obtain rfl := Option.some.inj h
      rw [if_neg hc]

theorem atoiLoop_range {n v : Int} {s : List Char} (hn : 0 ≤ n ∧ n ≤ INT_MAX)
    (h : atoiLoop n s = some v) : 0 ≤ v ∧ v ≤ INT_MAX := by
  induction s generalizing n with
  | nil => exact Option.some.inj h ▸ hn
  | cons c s ih =>
    rw [atoiLoop] at h
    split at h
    · rename_i hc
      simp only at h
      split at h
      · rename_i hmax
        refine ih ⟨?_, hmax⟩ h
        have hdigit : '0'.toNat ≤ c.toNat := (of_decide_eq_true hc).1
        omega
      · cases h
    · exact Option.some.inj h ▸ hn

/-- Both read the digits `ds` behind the blanks, and behind the sign, if there is one. -/
theorem atoi_digits (s : List Char) : ∃ ds,
    (atoi s = (atoiLoop 0 ds).map (fun n => n * -1) ∧
      atoiWord s = (atoiWordLoop 0 ds * BitVec.ofInt 32 (-1)).toInt) ∨
    (atoi s = atoiLoop 0 ds ∧ atoiWord s = (atoiWordLoop 0 ds).toInt) := by
  rw [atoi]
  split
  · rename_i ds hds
    refine ⟨ds, .inl ⟨rfl, ?_⟩⟩
    simp only [atoiWord, hds]
  · rename_i ds hds
    refine ⟨ds, .inr ⟨rfl, ?_⟩⟩
    simp only [atoiWord, hds]
  · rename_i hminus hplus
    refine ⟨_, .inr ⟨rfl, ?_⟩⟩
    rw [atoiWord]
    split
    · rename_i hds
      exact absurd hds (hminus _)
    · rename_i hds
      exact absurd hds (hplus _)
    · rfl

/-- Where no intermediate value leaves the range of `int`, nothing wraps. -/
theorem atoi_word {s : List Char} {v : Int} (h : atoi s = some v) : atoiWord s = v := by
  have hrange : ∀ {v : Int}, -INT_MAX ≤ v → v ≤ INT_MAX → (BitVec.ofInt 32 v).toInt = v := by
    intro v hlo hhi
    simp only [INT_MAX] at hlo hhi
    rw [BitVec.toInt_ofInt]
    exact Int.bmod_eq_of_le (by omega) (by omega)
  have hzero : (0 : Int) ≤ 0 ∧ 0 ≤ INT_MAX := by decide
  obtain ⟨ds, ⟨ha, hw⟩ | ⟨ha, hw⟩⟩ := atoi_digits s
  · rw [ha] at h
    obtain ⟨n, hn, rfl⟩ := Option.map_eq_some_iff.mp h
    have hword : atoiWordLoop 0 ds = BitVec.ofInt 32 n := atoiLoop_word hn
    have := atoiLoop_range hzero hn
    rw [hw, hword, ← BitVec.ofInt_mul]
    apply hrange
    · omega
    · omega
  · rw [ha] at h
    have hword : atoiWordLoop 0 ds = BitVec.ofInt 32 v := atoiLoop_word h
    have := atoiLoop_range hzero h
    rw [hw, hword]
    apply hrange
    · omega
    · omega

/-! ## Decimal numbers -/

/-- What is behind the sign. -/
def unsigned (l : List Char) : List Char :=
  if l.head? = some '-' ∨ l.head? = some '+' then l.drop 1 else l

/-- An optional sign, and then digits only. -/
def IsDecimal (l : List Char) : Prop := unsigned l ≠ [] ∧ ∀ c ∈ unsigned l, isdigit c = true

instance (l : List Char) : Decidable (IsDecimal l) :=
  decidable_of_iff (unsigned l ≠ [] ∧ (unsigned l).all isdigit = true) (by
    rw [IsDecimal, List.all_eq_true])

def natValue (ds : List Char) : Nat :=
  Nat.ofDigits 10 (ds.reverse.map fun c => c.toNat - '0'.toNat)

/-- The number that a decimal numeral stands for. -/
def intValue (l : List Char) : Int :=
  if l.head? = some '-' then -natValue (unsigned l) else natValue (unsigned l)

theorem IsDecimal.nul_notMem {l : List Char} (h : IsDecimal l) : NUL ∉ l := by
  intro hn
  have hmem : NUL ∈ unsigned l := by
    rw [unsigned]
    split_ifs with hsign
    · cases l with
      | nil => cases hn
      | cons c l =>
        refine (List.mem_cons.mp hn).resolve_left fun hc => ?_
        subst hc
        rcases hsign with hsign | hsign
        · exact absurd (Option.some.inj hsign) (by decide)
        · exact absurd (Option.some.inj hsign) (by decide)
    · exact hn
  exact absurd (h.2 _ hmem) (by decide)

theorem natValue_cons (c : Char) (ds : List Char) :
    natValue (c :: ds) = (c.toNat - '0'.toNat) * 10 ^ ds.length + natValue ds := by
  simp only [natValue, List.reverse_cons, List.map_append, Nat.ofDigits_append, List.length_map,
    List.length_reverse, List.map_cons, List.map_nil, Nat.ofDigits_singleton]
  ring

theorem isspace_digit {c : Char} (hc : isdigit c = true) : isspace c = false := by
  by_contra h
  simp only [isspace, Bool.not_eq_false, decide_eq_true_eq, List.mem_cons, List.not_mem_nil,
    or_false] at h
  rcases h with rfl | rfl | rfl | rfl | rfl | rfl
  all_goals exact absurd hc (by decide)

theorem natValue_step {n : Int} {c : Char} (hc : isdigit c = true) (ds : List Char) :
    n * 10 ^ (c :: ds).length + natValue (c :: ds) =
      (n * 10 + (c.toNat - '0'.toNat)) * 10 ^ ds.length + natValue ds := by
  have hlow : '0'.toNat ≤ c.toNat := (of_decide_eq_true hc).1
  rw [natValue_cons, List.length_cons, pow_succ, Nat.cast_add, Nat.cast_mul, Nat.cast_pow,
    Nat.cast_sub hlow]
  push_cast
  ring

/-- The loop ends with the number if that is in the range of `int`. -/
theorem atoiLoop_digits {n : Int} {ds : List Char} (h0 : 0 ≤ n) (hn : n ≤ INT_MAX)
    (hds : ∀ c ∈ ds, isdigit c = true) : atoiLoop n ds =
      if n * 10 ^ ds.length + natValue ds ≤ INT_MAX then some (n * 10 ^ ds.length + natValue ds)
      else none := by
  induction ds generalizing n with
  | nil =>
    have hz : n * 10 ^ ([] : List Char).length + natValue [] = n := by simp [natValue]
    rw [hz, if_pos hn]
    rfl
  | cons c ds ih =>
    have hc := hds c List.mem_cons_self
    have hlow : '0'.toNat ≤ c.toNat := (of_decide_eq_true hc).1
    have hnext : 0 ≤ n * 10 + (c.toNat - '0'.toNat : Int) := by omega
    rw [atoiLoop, if_pos hc, natValue_step hc]
    generalize n * 10 + (c.toNat - '0'.toNat : Int) = m at hnext ⊢
    simp only
    by_cases hm : m ≤ INT_MAX
    · rw [if_pos hm]
      exact ih hnext hm fun d hd => hds d (List.mem_cons_of_mem c hd)
    · have hpow : (1 : Int) ≤ 10 ^ ds.length := one_le_pow₀ (by decide)
      have hge : m ≤ m * 10 ^ ds.length + natValue ds := by nlinarith
      rw [if_neg hm, if_neg (by omega)]

/-- The wrapping loop ends with the number modulo 2³². -/
theorem atoiWordLoop_digits {n : Int} {ds : List Char} (hds : ∀ c ∈ ds, isdigit c = true) :
    atoiWordLoop (BitVec.ofInt 32 n) ds =
      BitVec.ofInt 32 (n * 10 ^ ds.length + natValue ds) := by
  induction ds generalizing n with
  | nil => simp [atoiWordLoop, natValue]
  | cons c ds ih =>
    have hc := hds c List.mem_cons_self
    have hten : (10 : BitVec 32) = BitVec.ofInt 32 10 := rfl
    rw [natValue_step hc, ← ih fun d hd => hds d (List.mem_cons_of_mem c hd), atoiWordLoop,
      if_pos hc, BitVec.ofInt_add, BitVec.ofInt_mul, hten]

/-- `n` in an `int`. -/
def asInt (n : Nat) : Int := (n : Int).bmod (2 ^ 32)

/-- A number that is not an `int` becomes a smaller one. -/
theorem asInt_cases (n : Nat) : (asInt n = n ∨ (2 ^ 31 : Int) ≤ n) ∧ asInt n < 2 ^ 31 := by
  unfold asInt
  constructor
  · by_cases hn : (2 ^ 31 : Int) ≤ n
    · exact .inr hn
    · exact .inl (Int.bmod_eq_of_le (by omega) (by omega))
  · have := Int.bmod_lt (x := n) (m := 2 ^ 32) (by decide)
    omega

theorem atoiWord_digits {w : List Char} (hne : w ≠ []) (hw : ∀ c ∈ w, isdigit c = true) :
    atoiWord w = asInt (natValue w) := by
  cases w with
  | nil => exact absurd rfl hne
  | cons c ds =>
    have hc := hw c List.mem_cons_self
    have hminus : c ≠ '-' := by
      rintro rfl
      exact absurd hc (by decide)
    have hplus : c ≠ '+' := by
      rintro rfl
      exact absurd hc (by decide)
    have hword : atoiWord (c :: ds) = (atoiWordLoop 0 (c :: ds)).toInt := by
      rw [atoiWord, List.dropWhile_cons, isspace_digit hc]
      simp [hminus, hplus]
    have hloop := atoiWordLoop_digits (n := 0) hw
    rw [zero_mul, zero_add] at hloop
    have hvalue : (BitVec.ofInt 32 (natValue (c :: ds))).toInt = asInt (natValue (c :: ds)) :=
      BitVec.toInt_ofInt _
    rw [hword, ← hvalue, ← hloop]
    rfl

theorem atoi_decimal {l : List Char} (h : IsDecimal l) :
    atoi l = if (intValue l).natAbs ≤ INT_MAX then some (intValue l) else none := by
  obtain ⟨hne, hds⟩ := h
  have hloop := atoiLoop_digits (n := 0) (by decide) (by decide) hds
  rw [zero_mul, zero_add] at hloop
  cases l with
  | nil => exact absurd rfl hne
  | cons c l =>
    by_cases hminus : c = '-'
    · subst hminus
      have hd : unsigned ('-' :: l) = l := rfl
      have hv : intValue ('-' :: l) = -natValue l := rfl
      have ha : atoi ('-' :: l) = (atoiLoop 0 l).map fun n => n * -1 := rfl
      rw [hd] at hloop
      rw [ha, hloop, hv, Int.natAbs_neg, Int.natAbs_natCast]
      split_ifs
      · simp
      · rfl
    by_cases hplus : c = '+'
    · subst hplus
      have hd : unsigned ('+' :: l) = l := rfl
      have hv : intValue ('+' :: l) = natValue l := rfl
      have ha : atoi ('+' :: l) = atoiLoop 0 l := rfl
      rw [hd] at hloop
      rw [ha, hloop, hv, Int.natAbs_natCast]
    · have hd : unsigned (c :: l) = c :: l := by
        rw [unsigned, if_neg]
        simp [hminus, hplus]
      have hv : intValue (c :: l) = natValue (c :: l) := by
        rw [intValue, if_neg (by simpa using hminus), hd]
      rw [hd] at hloop hds
      have ha : atoi (c :: l) = atoiLoop 0 (c :: l) := by
        rw [atoi, List.dropWhile_cons, isspace_digit (hds c List.mem_cons_self)]
        simp [hminus, hplus]
      rw [ha, hloop, hv, Int.natAbs_natCast]

end BojanOS
