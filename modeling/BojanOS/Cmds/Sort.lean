import BojanOS.Cmds.Numerals
import BojanOS.Lib.InsertionSort

/-!
# Sorting lines (`cmd_sort`)

The comparisons of `cmd_sort` are total orders of the strings, so its loop, which is the insertion
sort of `InsertionSort`, puts the lines in order. A line with a terminator inside is the string in
front of it to `strcmp` and to `sh_puts`.
-/

namespace BojanOS

open Prog

/-! ## `strcmp` -/

/-- The byte behind the last one is the terminator. -/
def strcmp : List Char → List Char → Int
  | [], [] => 0
  | [], y :: _ => 0 - y.toNat
  | x :: _, [] => x.toNat - 0
  | x :: a, y :: b => if x ≠ NUL ∧ x = y then strcmp a b else (x.toNat : Int) - y.toNat

/-- The bytes as numbers. -/
theorem strcmp_cons (x y : Char) (a b : List Char) : strcmp (x :: a) (y :: b) =
    if x.toNat ≠ 0 ∧ x.toNat = y.toNat then strcmp a b else (x.toNat : Int) - y.toNat := by
  have h0 : x ≠ NUL ↔ x.toNat ≠ 0 := not_congr Char.toNat_inj.symm
  have heq : x = y ↔ x.toNat = y.toNat := Char.toNat_inj.symm
  rw [strcmp]
  simp only [h0, heq]

theorem strcmp_comparator : InsertionSort.Comparator strcmp where
  swap a b := by
    induction a generalizing b with
    | nil =>
      cases b with
      | nil => rfl
      | cons y b =>
        rw [strcmp, strcmp]
        omega
    | cons x a ih =>
      cases b with
      | nil =>
        rw [strcmp, strcmp]
        omega
      | cons y b =>
        have := ih b
        rw [strcmp_cons, strcmp_cons]
        split_ifs <;> omega
  trans {a b c} hab hbc := by
    induction a generalizing b c with
    | nil =>
      cases c with
      | nil => exact Int.le_refl 0
      | cons z c =>
        rw [strcmp]
        omega
    | cons x a ih =>
      cases b with
      | nil =>
        -- the first string is empty too
        rw [strcmp] at hab
        cases c with
        | nil =>
          rw [strcmp]
          exact hab
        | cons z c =>
          rw [strcmp_cons]
          split_ifs <;> omega
      | cons y b =>
        rw [strcmp_cons] at hab
        cases c with
        | nil =>
          rw [strcmp] at hbc ⊢
          split_ifs at hab <;> omega
        | cons z c =>
          have := @ih b c
          rw [strcmp_cons] at hbc ⊢
          split_ifs at hab hbc ⊢ <;> omega

theorem strcmp_eq_zero {a b : List Char} : strcmp a b = 0 ↔ untilNul a = untilNul b := by
  have h0 : ∀ c : Char, c = NUL ↔ c.toNat = 0 := fun c => Char.toNat_inj.symm
  induction a generalizing b with
  | nil =>
    cases b with
    | nil => exact iff_of_true rfl rfl
    | cons y b =>
      rw [strcmp, untilNul_cons]
      by_cases hy : y = NUL
      · rw [if_pos hy, (h0 y).mp hy]
        exact iff_of_true rfl rfl
      · rw [if_neg hy]
        have : y.toNat ≠ 0 := fun h => hy ((h0 y).mpr h)
        exact iff_of_false (by omega) (List.cons_ne_nil _ _).symm
  | cons x a ih =>
    cases b with
    | nil =>
      rw [strcmp, untilNul_cons]
      by_cases hx : x = NUL
      · rw [if_pos hx, (h0 x).mp hx]
        exact iff_of_true rfl rfl
      · rw [if_neg hx]
        have : x.toNat ≠ 0 := fun h => hx ((h0 x).mpr h)
        exact iff_of_false (by omega) (List.cons_ne_nil _ _)
    | cons y b =>
      rw [strcmp, untilNul_cons, untilNul_cons]
      by_cases hxy : x = y
      · subst hxy
        by_cases hx : x = NUL
        · simp [hx]
        · simp [hx, ih]
      · have hne : (x.toNat : Int) - y.toNat ≠ 0 := fun h => hxy (Char.toNat_inj.mp (by omega))
        rw [if_neg fun h => hxy h.2]
        refine iff_of_false hne fun h => hxy ?_
        split_ifs at h with hx hy hy
        · exact hx.trans hy.symm
        · exact (List.cons.inj h).1

/-! ## The two comparisons -/

def cmpStr (x y : List Char) : Int := strcmp x y

def cmpStrNum (x y : List Char) : Int :=
  let a := atoiWord x
  let b := atoiWord y
  if a < b then -1
  else if a > b then 1
  else cmpStr x y

/-- `num ? cmp_str_num(&key, &lines[j]) : cmp_str(&key, &lines[j])` -/
def cmpLines (num : Bool) : List Char → List Char → Int := if num then cmpStrNum else cmpStr

theorem cmpLines_comparator (num : Bool) : InsertionSort.Comparator (cmpLines num) := by
  cases num with
  | false => exact strcmp_comparator
  | true => exact strcmp_comparator.byValue atoiWord

theorem cmpLines_eq_zero {num : Bool} {x y : List Char} (hx : NUL ∉ x) (hy : NUL ∉ y)
    (h : cmpLines num x y = 0) : x = y := by
  have hstr : strcmp x y = 0 → x = y := by
    intro h
    rw [strcmp_eq_zero, untilNul_eq_self hx, untilNul_eq_self hy] at h
    exact h
  cases num with
  | false => exact hstr h
  | true =>
    rw [cmpLines, if_pos rfl, cmpStrNum] at h
    split_ifs at h
    · cases h
    · exact hstr h

/-! ## `sort` -/

/-- `if (rev) c = -c;` and `c < 0` -/
def keyLess (rev num : Bool) (key x : List Char) : Bool :=
  let c := cmpLines num key x
  decide ((if rev then -c else c) < 0)

/-- The loops over `lines`. -/
def sortLines (rev num : Bool) (lines : List (List Char)) : Option (List (List Char)) :=
  InsertionSort.sort (fun key x => some (keyLess rev num key x)) lines

/-- The loop that prints, with `prev` the line printed last. -/
def sortPrint (uniq : Bool) : Option (List Char) → List (List Char) → Prog Unit
  | _, [] => pure ()
  | prev, l :: ls =>
    if uniq ∧ prev.any fun p => strcmp p l = 0 then sortPrint uniq prev ls
    else do
      putLine l
      sortPrint uniq (some l) ls

/-- `argv` without the name is `options` and an operand at most; the other operands are not looked
at. -/
def cmdSort (fuel : Nat) (argv : List (List Char)) : Prog Int :=
  let (letters, operands) := options (argv.drop 1)
  onLines fuel operands.head? 2 fun lines =>
    match sortLines ('r' ∈ letters) ('n' ∈ letters) lines with
    | none => .fault
    | some lines => do
      sortPrint ('u' ∈ letters) none lines
      pure 0

/-- The order that the options ask for. -/
def InOrder (letters : List Char) (x y : List Char) : Prop :=
  if 'r' ∈ letters then 0 ≤ cmpLines ('n' ∈ letters) x y else cmpLines ('n' ∈ letters) x y ≤ 0

theorem sortLines_ordered (letters : List Char) (lines : List (List Char)) :
    ∃ out, sortLines ('r' ∈ letters) ('n' ∈ letters) lines = some out ∧ out.Perm lines ∧
      out.Pairwise (InOrder letters) := by
  have C := cmpLines_comparator ('n' ∈ letters)
  by_cases hr : 'r' ∈ letters
  · obtain ⟨out, hout, hperm, hord⟩ := C.neg.sorted lines
    refine ⟨out, ?_, hperm, hord.imp fun h => ?_⟩
    · rw [decide_eq_true hr]
      exact hout
    · rw [InOrder, if_pos hr]
      omega
  · obtain ⟨out, hout, hperm, hord⟩ := C.sorted lines
    refine ⟨out, ?_, hperm, hord.imp fun h => ?_⟩
    · rw [decide_eq_false hr]
      exact hout
    · rw [InOrder, if_neg hr]
      exact h

theorem sortPrint_emits (prev : Option (List Char)) {lines : List (List Char)}
    (h : ∀ l ∈ lines, NUL ∉ l) : (sortPrint false prev lines).emits = some (unlines lines, ()) := by
  induction lines generalizing prev with
  | nil => rfl
  | cons l ls ih =>
    have hl := untilNul_eq_self (h l List.mem_cons_self)
    have hls := ih (some l) fun l' hl' => h l' (List.mem_cons_of_mem l hl')
    simp [sortPrint, hls, hl, unlines]

theorem cmdSort_prints {fuel : Nat} {argv : List (List Char)} {σ σ₁ : Shell} {text : List Char}
    {out : List (List Char)} (hu : 'u' ∉ (options (argv.drop 1)).1)
    (hin : Opens fuel (options (argv.drop 1)).2.head? σ text σ₁) (hmem : GrantsLines text σ₁)
    (hout : sortLines ('r' ∈ (options (argv.drop 1)).1) ('n' ∈ (options (argv.drop 1)).1)
      (lineTexts [] text) = some out) (hnul : ∀ l ∈ out, NUL ∉ l) :
    Prints (cmdSort fuel argv) σ σ₁ (unlines out) 0 := by
  apply onLines_prints hin hmem
  rw [hout, decide_eq_false hu]
  simp [sortPrint_emits none hnul]

/-- The lines that `sort` prints are the lines of its input in the order that `-r` and `-n` ask for,
and both comparisons are total orders of the strings. -/
theorem cmdSort_ordered {fuel : Nat} {argv : List (List Char)} {σ σ₁ : Shell} {text : List Char}
    (hu : 'u' ∉ (options (argv.drop 1)).1)
    (hin : Opens fuel (options (argv.drop 1)).2.head? σ text σ₁) (hmem : GrantsLines text σ₁)
    (hnul : NUL ∉ text) :
    (∃ out, Prints (cmdSort fuel argv) σ σ₁ (unlines out) 0 ∧ out.Perm (lineTexts [] text) ∧
      out.Pairwise (InOrder (options (argv.drop 1)).1)) ∧
    (IsLinearOrder {l : List Char // NUL ∉ l} fun x y => cmpStr x y ≤ 0) ∧
    IsLinearOrder {l : List Char // NUL ∉ l} fun x y => cmpStrNum x y ≤ 0 := by
  obtain ⟨out, hout, hperm, hord⟩ := sortLines_ordered (options (argv.drop 1)).1 (lineTexts [] text)
  have hlines : ∀ l ∈ out, NUL ∉ l := fun l hl => nul_notMem hnul (hperm.mem_iff.mp hl)
  refine ⟨⟨out, cmdSort_prints hu hin hmem hout hlines, hperm, hord⟩, ?_, ?_⟩
  · apply (cmpLines_comparator false).isLinearOrder
    exact fun hx hy => cmpLines_eq_zero hx hy
  · apply (cmpLines_comparator true).isLinearOrder
    exact fun hx hy => cmpLines_eq_zero hx hy

theorem cmdSort_osRelease : ∃ out, Prints (cmdSort 0 ["sort".toList, "-r".toList,
      "/etc/os-release".toList]) bootShell bootShell (unlines out) 0 ∧
    out.Perm (lineTexts [] Vfs.osReleaseText) ∧ out.Pairwise (InOrder ['r']) := by
  obtain ⟨hopen, hmem, hnul⟩ := opens_osRelease
  have h := @cmdSort_ordered 0 ["sort".toList, "-r".toList, "/etc/os-release".toList]
    bootShell bootShell _ (by decide) hopen hmem hnul
  exact h.1

end BojanOS
