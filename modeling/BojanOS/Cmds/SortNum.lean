import BojanOS.Cmds.Sort

/-!
# Sorting numbers (`sort -n`)

`atoi` reads a decimal number as long as it fits into an `int`. Beyond that the product or the sum
overflows, and what the comparison sees is not the number any more.
-/

namespace BojanOS

open Prog

/-! ## `sort -n` -/

/-- The same loops with the checked `atoi` in front of every comparison: `none` as soon as a product
or a sum leaves the range of `int`. -/
def sortChecked (lines : List (List Char)) : Option (List (List Char)) :=
  InsertionSort.sort (fun key x => do
    let _ ← atoi key
    let _ ← atoi x
    some (keyLess false true key x)) lines

theorem sortChecked_isSome (lines : List (List Char)) :
    (sortChecked lines).isSome ↔ lines.length < 2 ∨ ∀ l ∈ lines, (atoi l).isSome := by
  apply InsertionSort.sort_isSome
  intro a b
  cases atoi a with
  | none => simp
  | some v =>
    cases atoi b with
    | none => simp
    | some w => simp

/-- Without an overflow the comparison of two numerals is the one of the numbers. -/
theorem intValue_le {x y : List Char} (hx : IsDecimal x) (hy : IsDecimal y)
    (hvx : (intValue x).natAbs ≤ INT_MAX) (hvy : (intValue y).natAbs ≤ INT_MAX)
    (h : cmpStrNum x y ≤ 0) : intValue x ≤ intValue y := by
  have hax : atoiWord x = intValue x := atoi_word (by rw [atoi_decimal hx, if_pos hvx])
  have hay : atoiWord y = intValue y := atoi_word (by rw [atoi_decimal hy, if_pos hvy])
  rw [cmpStrNum, hax, hay] at h
  by_contra hlt
  rw [if_neg (by omega), if_pos (by omega)] at h
  omega

/-- `sort -n` puts decimal numerals in the order of their numbers and without an overflow exactly
when there is nothing to compare, or when every number is in the range of `int`, and is not the
least one of it, whose digits alone are out of range. -/
theorem sortNum_iff {fuel : Nat} {argv : List (List Char)} {σ σ₁ : Shell} {text : List Char}
    (hn : 'n' ∈ (options (argv.drop 1)).1)
    (hru : 'r' ∉ (options (argv.drop 1)).1 ∧ 'u' ∉ (options (argv.drop 1)).1)
    (hin : Opens fuel (options (argv.drop 1)).2.head? σ text σ₁) (hmem : GrantsLines text σ₁)
    (hdec : ∀ l ∈ lineTexts [] text, IsDecimal l) :
    ∃ out, Prints (cmdSort fuel argv) σ σ₁ (unlines out) 0 ∧ out.Perm (lineTexts [] text) ∧
      ((out.Pairwise (fun x y => intValue x ≤ intValue y) ∧
          (sortChecked (lineTexts [] text)).isSome) ↔
        (lineTexts [] text).length < 2 ∨
          ∀ l ∈ lineTexts [] text, (intValue l).natAbs ≤ INT_MAX) := by
  obtain ⟨out, hout, hperm, hord⟩ := sortLines_ordered (options (argv.drop 1)).1 (lineTexts [] text)
  have hnul : ∀ l ∈ out, NUL ∉ l := by
    intro l hl
    exact (hdec l (hperm.mem_iff.mp hl)).nul_notMem
  refine ⟨out, cmdSort_prints hru.2 hin hmem hout hnul, hperm, ?_⟩
  have hrange : ∀ l ∈ lineTexts [] text,
      (atoi l).isSome ↔ (intValue l).natAbs ≤ INT_MAX := by
    intro l hl
    rw [atoi_decimal (hdec l hl)]
    split_ifs with h
    · exact iff_of_true rfl h
    · exact iff_of_false (by simp) h
  rw [sortChecked_isSome, forall₂_congr hrange]
  refine and_iff_right_of_imp fun h => ?_
  rcases h with h | h
  · rw [← hperm.length_eq] at h
    match out, h with
    | [], _ => exact .nil
    | [x], _ => exact List.pairwise_singleton _ x
  · refine hord.imp_of_mem fun {x y} hx hy hxy => ?_
    rw [hperm.mem_iff] at hx hy
    rw [InOrder, if_neg hru.1, decide_eq_true hn] at hxy
    exact intValue_le (hdec x hx) (hdec y hy) (h x hx) (h y hy) hxy

/-- The numbers 10 and 9, in the pipe that `sort` reads. -/
theorem sortNum_seq : ∃ σ₁ out, Prints (cmdSort 6 ["sort".toList, "-n".toList])
      (pipedShell "10\n9\n".toList) σ₁ (unlines out) 0 ∧
    out.Perm ["10".toList, "9".toList] ∧
      out.Pairwise (fun x y => intValue x ≤ intValue y) ∧
        (sortChecked ["10".toList, "9".toList]).isSome := by
  obtain ⟨σ₁, hopen, hmem, -, -⟩ : ∃ σ₁, Opens 6 none (pipedShell "10\n9\n".toList)
      "10\n9\n".toList σ₁ ∧ GrantsLines "10\n9\n".toList σ₁ ∧ σ₁.outFile = none ∧
        σ₁.pipeWriting = false := by
    apply opens_piped
    rw [pipedShell, bootShell_spelled]
    decide +kernel
  have hpath : (options (["sort".toList, "-n".toList].drop 1)).2.head? = none := by decide
  rw [← hpath] at hopen
  obtain ⟨out, hprint, hperm, hiff⟩ :=
    sortNum_iff (by decide) (by decide) hopen hmem (by decide)
  obtain ⟨hord, hchecked⟩ := hiff.mpr (.inr (by decide))
  exact ⟨σ₁, out, hprint, hperm, hord, hchecked⟩

/-- `4294967296` is read as 0, and stays in front of `1`. -/
theorem sortNum_wraps : ¬ ∀ (fuel : Nat) (argv : List (List Char)) (σ σ₁ : Shell)
    (text : List Char), 'n' ∈ (options (argv.drop 1)).1 →
    'r' ∉ (options (argv.drop 1)).1 ∧ 'u' ∉ (options (argv.drop 1)).1 →
    Opens fuel (options (argv.drop 1)).2.head? σ text σ₁ → GrantsLines text σ₁ →
    (∀ l ∈ lineTexts [] text, IsDecimal l) →
    ∃ out, Prints (cmdSort fuel argv) σ σ₁ (unlines out) 0 ∧ out.Perm (lineTexts [] text) ∧
      out.Pairwise (fun x y => intValue x ≤ intValue y) ∧
        (sortChecked (lineTexts [] text)).isSome := by
  intro H
  let argv := ["sort".toList, "-n".toList]
  let wrong := ["4294967296".toList, "1".toList]
  obtain ⟨σ₁, hopen, hmem, hout, hpipe⟩ : ∃ σ₁, Opens 14 none (pipedShell (unlines wrong))
      (unlines wrong) σ₁ ∧ GrantsLines (unlines wrong) σ₁ ∧ σ₁.outFile = none ∧
        σ₁.pipeWriting = false := by
    apply opens_piped
    rw [pipedShell, bootShell_spelled]
    decide +kernel
  have hpath : (options (argv.drop 1)).2.head? = none := by decide
  rw [← hpath] at hopen
  have hlines : lineTexts [] (unlines wrong) = wrong := lineTexts_unlines (by decide)
  obtain ⟨out, hprint, hperm, hord, -⟩ := H 14 argv _ σ₁ _ (by decide) (by decide) hopen hmem
    (by rw [hlines]; decide)
  have hwrong : Prints (cmdSort 14 argv) (pipedShell (unlines wrong)) σ₁ (unlines wrong) 0 := by
    refine cmdSort_prints (by decide) hopen hmem ?_ (by decide)
    rw [hlines]
    decide +kernel
  have hsame := congrArg (lineTexts []) (hprint.unique hout hpipe hwrong).1
  rw [lineTexts_unlines fun l hl => newline_notMem (hperm.mem_iff.mp hl), hlines] at hsame
  subst hsame
  revert hord
  decide

end BojanOS
