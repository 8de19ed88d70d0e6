import BojanOS.Cmds.Sort
import Mathlib.Data.List.Destutter

/-!
# Equal lines (`cmd_uniq` and `sort -u`)

`cmd_uniq` prints the last line of each run of equal lines, `sort -u` the first one. Both are what
`List.destutter` leaves of the lines, and in an order there is one run of each line.
-/

namespace BojanOS

open Prog

/-- The loop of `cmd_uniq`, with `run` the equal lines so far; `%7d ` is in front of a line that is
counted. -/
def uniqLoop (count : Bool) : Nat → List (List Char) → Prog Unit
  | _, [] => pure ()
  | run, l :: ls =>
    if ls.head?.any fun m => strcmp l m = 0 then uniqLoop count (run + 1) ls
    else do
      if count then
        let digits := decimal (run + 1 : Nat)
        puts (List.replicate (7 - digits.length) ' ' ++ digits ++ [' '])
      putLine l
      uniqLoop count 0 ls

def cmdUniq (fuel : Nat) (argv : List (List Char)) : Prog Int :=
  let (letters, operands) := options (argv.drop 1)
  onLines fuel operands.head? 1 fun lines => do
    uniqLoop ('c' ∈ letters) 0 lines
    pure 0

theorem strcmp_lines {x y : List Char} (hx : NUL ∉ x) (hy : NUL ∉ y) : strcmp x y = 0 ↔ x = y := by
  rw [strcmp_eq_zero, untilNul_eq_self hx, untilNul_eq_self hy]

theorem unlines_cons (l : List Char) (ls : List (List Char)) :
    unlines (l :: ls) = l ++ '\n' :: unlines ls := by simp [unlines]

/-- The first line of each run. -/
theorem sortPrint_unique {lines : List (List Char)} (h : ∀ l ∈ lines, NUL ∉ l) :
    (sortPrint true none lines).emits = some (unlines (lines.destutter (· ≠ ·)), ()) := by
  cases lines with
  | nil => rfl
  | cons p lines =>
    have hbehind : ∃ t, (sortPrint true (some p) lines).emits = some (t, ()) ∧
        unlines (lines.destutter' (· ≠ ·) p) = p ++ '\n' :: t := by
      induction lines generalizing p with
      | nil => exact ⟨[], rfl, unlines_cons p []⟩
      | cons m lines ih =>
        have hp : NUL ∉ p := h p List.mem_cons_self
        have hm : NUL ∉ m := h m (by simp)
        rw [sortPrint]
        by_cases he : p = m
        · subst he
          have hz : strcmp p p = 0 := (strcmp_lines hp hp).mpr rfl
          rw [if_pos (by simp [hz]), List.destutter'_cons_neg _ (by simp)]
          apply ih
          intro l hl
          exact h l (List.mem_cons_of_mem p hl)
        · have hz : strcmp p m ≠ 0 := fun hz => he ((strcmp_lines hp hm).mp hz)
          obtain ⟨t, ht, hu⟩ := ih m fun l hl => h l (List.mem_cons_of_mem p hl)
          rw [if_neg (by simp [hz]), List.destutter'_cons_pos _ he]
          refine ⟨m ++ '\n' :: t, ?_, ?_⟩
          · simp [ht, untilNul_eq_self hm]
          · rw [unlines_cons, hu]
    obtain ⟨t, ht, hu⟩ := hbehind
    have hp : NUL ∉ p := h p List.mem_cons_self
    rw [List.destutter_cons', hu, sortPrint]
    simp [ht, untilNul_eq_self hp]

/-- The last line of each run. -/
theorem uniqLoop_emits (run : Nat) {lines : List (List Char)} (h : ∀ l ∈ lines, NUL ∉ l) :
    (uniqLoop false run lines).emits = some (unlines (lines.destutter (· ≠ ·)), ()) := by
  induction lines generalizing run with
  | nil => rfl
  | cons l lines ih =>
    have hl : NUL ∉ l := h l List.mem_cons_self
    have hnext := fun run => ih run fun m hm => h m (List.mem_cons_of_mem l hm)
    rw [uniqLoop]
    cases lines with
    | nil => simp [uniqLoop, untilNul_eq_self hl, unlines]
    | cons m lines =>
      have hm : NUL ∉ m := h m (by simp)
      rw [List.destutter_cons_cons, ← List.destutter_cons', ← List.destutter_cons']
      by_cases he : l = m
      · subst he
        have hz : strcmp l l = 0 := (strcmp_lines hl hl).mpr rfl
        rw [if_pos (by simp [hz]), if_neg (by simp)]
        exact hnext (run + 1)
      · have hz : strcmp l m ≠ 0 := fun hz => he ((strcmp_lines hl hm).mp hz)
        rw [if_neg (by simp [hz]), if_pos he]
        simp [hnext 0, untilNul_eq_self hl, unlines_cons]

/-- In an order the runs are all of a line. -/
theorem nodup_destutter {letters : List Char} {out : List (List Char)}
    (hord : out.Pairwise (InOrder letters)) (hnul : ∀ l ∈ out, NUL ∉ l) :
    (out.destutter (· ≠ ·)).Nodup := by
  let r (x y : List Char) : Prop := InOrder letters x y ∧ (InOrder letters y x → x = y)
  have hanti : Std.Antisymm r := ⟨fun x y hxy hyx => hxy.2 hyx.1⟩
  have hr : out.Pairwise r := by
    refine hord.imp_of_mem fun {x y} hx hy hxy => ⟨hxy, fun hyx => ?_⟩
    have hswap := (cmpLines_comparator ('n' ∈ letters)).swap x y
    refine @cmpLines_eq_zero ('n' ∈ letters) x y (hnul x hx) (hnul y hy) ?_
    rw [InOrder] at hxy hyx
    split_ifs at hxy hyx
    · omega
    · omega
  rw [hr.destutter_eq_dedup]
  exact List.nodup_dedup out

/-- `sort -u` prints what `uniq` makes of the output of `sort`, whatever `-r` and `-n` say, and no
line twice. -/
theorem sortUnique_eq_uniq {fuel fuel' : Nat} {argv argv' : List (List Char)} {σ σ₁ τ τ₁ : Shell}
    {text : List Char} (hu : 'u' ∉ (options (argv.drop 1)).1)
    (hu' : 'u' ∈ (options (argv'.drop 1)).1)
    (hr : 'r' ∈ (options (argv'.drop 1)).1 ↔ 'r' ∈ (options (argv.drop 1)).1)
    (hn : 'n' ∈ (options (argv'.drop 1)).1 ↔ 'n' ∈ (options (argv.drop 1)).1)
    (hin : Opens fuel (options (argv.drop 1)).2.head? σ text σ₁) (hmem : GrantsLines text σ₁)
    (hin' : Opens fuel' (options (argv'.drop 1)).2.head? τ text τ₁) (hmem' : GrantsLines text τ₁)
    (hnul : NUL ∉ text) :
    ∃ out unique, Prints (cmdSort fuel argv) σ σ₁ (unlines out) 0 ∧
      Prints (cmdSort fuel' argv') τ τ₁ (unlines unique) 0 ∧
      (∀ (fuel : Nat) (argv : List (List Char)) (υ υ₁ : Shell),
        'c' ∉ (options (argv.drop 1)).1 →
        Opens fuel (options (argv.drop 1)).2.head? υ (unlines out) υ₁ →
        GrantsLines (unlines out) υ₁ → Prints (cmdUniq fuel argv) υ υ₁ (unlines unique) 0) ∧
      unique.Nodup := by
  obtain ⟨out, hout, hperm, hord⟩ := sortLines_ordered (options (argv.drop 1)).1 (lineTexts [] text)
  have hlines : ∀ l ∈ out, NUL ∉ l := fun l hl => nul_notMem hnul (hperm.mem_iff.mp hl)
  have hresplit : lineTexts [] (unlines out) = out :=
    lineTexts_unlines fun l hl => newline_notMem (hperm.mem_iff.mp hl)
  refine ⟨out, out.destutter (· ≠ ·), cmdSort_prints hu hin hmem hout hlines, ?_, ?_,
    nodup_destutter hord hlines⟩
  · apply onLines_prints hin' hmem'
    rw [decide_eq_decide.mpr hr, decide_eq_decide.mpr hn, hout, decide_eq_true hu']
    simp [sortPrint_unique hlines]
  · intro fuel argv υ υ₁ hc hopen hgrant
    apply onLines_prints hopen hgrant
    rw [hresplit, decide_eq_false hc]
    simp [uniqLoop_emits 0 hlines]

/-- `sort` prints both lines `b` of the pipe, `sort -u` and `uniq` behind `sort` print one. -/
theorem sortUnique_piped : ∃ σ₁ υ₁,
    Prints (cmdSort 8 ["sort".toList]) (pipedShell "b\na\nb\n".toList) σ₁ "a\nb\nb\n".toList 0 ∧
    Prints (cmdSort 8 ["sort".toList, "-u".toList]) (pipedShell "b\na\nb\n".toList) σ₁
      "a\nb\n".toList 0 ∧
    Prints (cmdUniq 8 ["uniq".toList]) (pipedShell "a\nb\nb\n".toList) υ₁ "a\nb\n".toList 0 := by
  obtain ⟨σ₁, hopen, hmem, hout, hpipe⟩ : ∃ σ₁, Opens 8 none (pipedShell "b\na\nb\n".toList)
      "b\na\nb\n".toList σ₁ ∧ GrantsLines "b\na\nb\n".toList σ₁ ∧ σ₁.outFile = none ∧
        σ₁.pipeWriting = false := by
    apply opens_piped
    rw [pipedShell, bootShell_spelled]
    decide +kernel
  obtain ⟨υ₁, hopen', hmem', hout', hpipe'⟩ : ∃ υ₁, Opens 8 none (pipedShell "a\nb\nb\n".toList)
      "a\nb\nb\n".toList υ₁ ∧ GrantsLines "a\nb\nb\n".toList υ₁ ∧ υ₁.outFile = none ∧
        υ₁.pipeWriting = false := by
    apply opens_piped
    rw [pipedShell, bootShell_spelled]
    decide +kernel
  have hplain : (options (["sort".toList].drop 1)).2.head? = none := by decide
  have hflag : (options (["sort".toList, "-u".toList].drop 1)).2.head? = none := by decide
  have huniq : (options (["uniq".toList].drop 1)).2.head? = none := by decide
  obtain ⟨out, unique, hprint, hprint', hruns, -⟩ :=
    @sortUnique_eq_uniq 8 8 ["sort".toList] ["sort".toList, "-u".toList] _ σ₁ _ σ₁ _ (by decide)
      (by decide) (by decide) (by decide) (by rwa [hplain]) hmem (by rwa [hflag]) hmem (by decide)
  -- What `sort` and `uniq` print here is computed, and a run has one output only.
  have hsort : sortLines ('r' ∈ (options (["sort".toList].drop 1)).1)
      ('n' ∈ (options (["sort".toList].drop 1)).1) (lineTexts [] "b\na\nb\n".toList) =
        some ["a".toList, "b".toList, "b".toList] := by
    decide +kernel
  have hsorted := @cmdSort_prints 8 ["sort".toList] _ σ₁ _ _ (by decide) (by rwa [hplain]) hmem
    hsort (by decide)
  have htext : unlines out = "a\nb\nb\n".toList := (hprint.unique hout hpipe hsorted).1
  rw [htext] at hprint hruns
  have hbehind := hruns 8 ["uniq".toList] _ υ₁ (by decide) (by rwa [huniq]) hmem'
  have hcomputed : Prints (cmdUniq 8 ["uniq".toList]) (pipedShell "a\nb\nb\n".toList) υ₁
      "a\nb\n".toList 0 := by
    apply onLines_prints hopen' hmem'
    decide +kernel
  have hlines : unlines unique = "a\nb\n".toList := (hbehind.unique hout' hpipe' hcomputed).1
  rw [hlines] at hprint' hbehind
  exact ⟨σ₁, υ₁, hprint, hprint', hbehind⟩

end BojanOS
