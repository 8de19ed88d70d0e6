import BojanOS.Cmds.Input
import Mathlib.Data.List.Infix

/-!
# Lines with a pattern (`cmd_grep`)

The loops of `cmd_grep` try the pattern at every place of a line at which it fits. They find it
exactly if it is an infix of the line, both folded to lower case with `-i`.
-/

namespace BojanOS

open Prog

def tolower (c : Char) : Char := if 'A' ≤ c ∧ c ≤ 'Z' then Char.ofNat (c.toNat + 32) else c

/-- How a byte is compared. -/
def fold (ci : Bool) (c : Char) : Char := if ci then tolower c else c

/-- The loop over the pattern: `line[p + k]` and `pat[k]`. -/
def matchHere (ci : Bool) (line : List Char) : Nat → List Char → Bool
  | _, [] => true
  | p, y :: pat =>
    if fold ci (line.getD p NUL) ≠ fold ci y then false else matchHere ci line (p + 1) pat

/-- The loop over the places from `j` on, for as many rounds as there are such places. -/
def matchLoop (ci : Bool) (line pat : List Char) : Nat → Nat → Bool
  | 0, _ => false
  | r + 1, j => if matchHere ci line j pat then true else matchLoop ci line pat r (j + 1)

/-- `match`; `j + patlen <= llen` holds for `llen + 1 - patlen` values of `j`. -/
def grepMatch (ci : Bool) (pat line : List Char) : Bool :=
  let line := untilNul line
  if pat.length = 0 then true else matchLoop ci line pat (line.length + 1 - pat.length) 0

/-- The loop over the lines, with `found` so far. -/
def grepLoop (ci inv : Bool) (pat : List Char) : Bool → List (List Char) → Prog Bool
  | found, [] => pure found
  | found, l :: ls =>
    if grepMatch ci pat l ^^ inv then do
      putLine l
      grepLoop ci inv pat true ls
    else grepLoop ci inv pat found ls

def cmdGrep (fuel : Nat) (argv : List (List Char)) : Prog Int :=
  let (letters, operands) := options (argv.drop 1)
  match operands with
  | [] => do
    puts "grep: missing pattern\n".toList
    pure 2
  | pat :: operands => onLines fuel operands.head? 2 fun lines => do
    let found ← grepLoop ('i' ∈ letters) ('v' ∈ letters) pat false lines
    pure (if found then 0 else 1)

/-! ## Matches -/

/-- The pattern is a contiguous part of the line. -/
def Occurs (ci : Bool) (pat line : List Char) : Prop := pat.map (fold ci) <:+: line.map (fold ci)

instance (ci : Bool) (pat line : List Char) : Decidable (Occurs ci pat line) :=
  inferInstanceAs (Decidable (_ <:+: _))

theorem matchHere_iff {ci : Bool} {line pat : List Char} {p : Nat}
    (hp : p + pat.length ≤ line.length) : matchHere ci line p pat = true ↔
      pat.map (fold ci) <+: (line.map (fold ci)).drop p := by
  induction pat generalizing p with
  | nil => exact iff_of_true rfl (List.nil_prefix)
  | cons y pat ih =>
    rw [List.length_cons] at hp
    have hlt : p < line.length := by omega
    have hdrop : (line.map (fold ci)).drop p =
        fold ci (line)[p] :: (line.map (fold ci)).drop (p + 1) := by
      rw [List.drop_eq_getElem_cons (by rwa [List.length_map]), List.getElem_map]
    rw [matchHere, List.getD_eq_getElem _ _ hlt, List.map_cons, hdrop, List.cons_prefix_cons]
    split_ifs with hne
    · exact iff_of_false (by simp) fun h => hne h.1.symm
    · rw [ih (by omega), and_iff_right (not_not.mp hne).symm]

theorem matchLoop_iff {ci : Bool} {line pat : List Char} (r j : Nat) :
    matchLoop ci line pat r j = true ↔ ∃ i, j ≤ i ∧ i < j + r ∧ matchHere ci line i pat = true := by
  induction r generalizing j with
  | zero =>
    refine iff_of_false (by simp [matchLoop]) ?_
    rintro ⟨i, hlo, hhi, -⟩
    omega
  | succ r ih =>
    rw [matchLoop]
    split_ifs with h
    · exact iff_of_true rfl ⟨j, Nat.le_refl j, by omega, h⟩
    · rw [ih]
      constructor
      · rintro ⟨i, hlo, hhi, hi⟩
        exact ⟨i, by omega, by omega, hi⟩
      · rintro ⟨i, hlo, hhi, hi⟩
        have hne : i ≠ j := by
          rintro rfl
          exact h hi
        exact ⟨i, by omega, by omega, hi⟩

theorem grepMatch_iff (ci : Bool) (pat : List Char) {line : List Char} (hline : NUL ∉ line) :
    grepMatch ci pat line = true ↔ Occurs ci pat line := by
  rw [grepMatch, untilNul_eq_self hline, Occurs]
  split_ifs with h0
  · obtain rfl := List.eq_nil_of_length_eq_zero h0
    exact iff_of_true rfl List.nil_infix
  · rw [matchLoop_iff]
    constructor
    · rintro ⟨i, -, hi, hmatch⟩
      have hprefix := (matchHere_iff (by omega)).mp hmatch
      exact hprefix.isInfix.trans (List.drop_suffix i _).isInfix
    · rintro ⟨s, t, hst⟩
      have hlen : s.length + pat.length + t.length = line.length := by
        have := congrArg List.length hst
        simp only [List.length_append, List.length_map] at this
        exact this
      refine ⟨s.length, Nat.zero_le _, by omega, (matchHere_iff (by omega)).mpr ⟨t, ?_⟩⟩
      rw [← hst, List.append_assoc, List.drop_left]

/-! ## What is printed -/

/-- What `-v` or its absence asks of a line. -/
def wanted (ci inv : Bool) (pat line : List Char) : Bool :=
  if inv then !decide (Occurs ci pat line) else decide (Occurs ci pat line)

def selected (ci inv : Bool) (pat : List Char) (lines : List (List Char)) : List (List Char) :=
  lines.filter (wanted ci inv pat)

theorem grepMatch_wanted (ci inv : Bool) (pat : List Char) {line : List Char}
    (hline : NUL ∉ line) : (grepMatch ci pat line ^^ inv) = wanted ci inv pat line := by
  have hdec : decide (Occurs ci pat line) = grepMatch ci pat line := by
    rw [Bool.eq_iff_iff, decide_eq_true_iff, grepMatch_iff ci pat hline]
  rw [wanted, hdec]
  cases inv with
  | false => exact Bool.xor_false _
  | true => exact Bool.xor_true _

theorem grepLoop_emits {ci inv : Bool} {pat : List Char} (found : Bool) {lines : List (List Char)}
    (h : ∀ l ∈ lines, NUL ∉ l) : (grepLoop ci inv pat found lines).emits =
      some (unlines (selected ci inv pat lines), found || (selected ci inv pat lines ≠ [])) := by
  induction lines generalizing found with
  | nil => simp [grepLoop, selected, unlines]
  | cons l lines ih =>
    have hl : NUL ∉ l := h l List.mem_cons_self
    have hrest := fun found => ih found fun m hm => h m (List.mem_cons_of_mem l hm)
    rw [grepLoop, grepMatch_wanted ci inv pat hl, selected, List.filter_cons]
    cases wanted ci inv pat l with
    | true => simp [hrest, selected, unlines, untilNul_eq_self hl]
    | false => exact hrest found

/-- `grep` prints the lines with the pattern, or with `-v` the others, in the order of the text, and
answers 0 if there is one, and 1 otherwise. -/
theorem grep_selected {fuel : Nat} {argv operands : List (List Char)} {pat : List Char}
    {σ σ₁ : Shell} {text : List Char} (hargs : (options (argv.drop 1)).2 = pat :: operands)
    (hin : Opens fuel operands.head? σ text σ₁) (hmem : GrantsLines text σ₁) (hnul : NUL ∉ text) :
    Prints (cmdGrep fuel argv) σ σ₁
      (unlines (selected ('i' ∈ (options (argv.drop 1)).1) ('v' ∈ (options (argv.drop 1)).1) pat
        (lineTexts [] text)))
      (if selected ('i' ∈ (options (argv.drop 1)).1) ('v' ∈ (options (argv.drop 1)).1) pat
        (lineTexts [] text) = [] then 1 else 0) := by
  have hgrep : cmdGrep fuel argv = onLines fuel operands.head? 2 (fun lines => do
      let found ← grepLoop ('i' ∈ (options (argv.drop 1)).1) ('v' ∈ (options (argv.drop 1)).1) pat
        false lines
      pure (if found then 0 else 1)) := by
    rw [cmdGrep]
    simp only [hargs]
  rw [hgrep]
  apply onLines_prints hin hmem
  rw [emits_bind, grepLoop_emits false fun l hl => nul_notMem hnul hl]
  simp

theorem grep_osRelease : Prints (cmdGrep 0 ["grep".toList, "-iv".toList, "name".toList,
      "/etc/os-release".toList]) bootShell bootShell
    (unlines (selected true true "name".toList (lineTexts [] Vfs.osReleaseText)))
    (if selected true true "name".toList (lineTexts [] Vfs.osReleaseText) = [] then 1 else 0) := by
  obtain ⟨hopen, hmem, hnul⟩ := opens_osRelease
  exact @grep_selected 0 ["grep".toList, "-iv".toList, "name".toList, "/etc/os-release".toList]
    ["/etc/os-release".toList] _ bootShell bootShell _ (by decide) hopen hmem hnul

end BojanOS
