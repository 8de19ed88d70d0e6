import BojanOS.Cmds.DeepPaths
import Mathlib.Computability.Language

/-!
# The patterns of `find -name` (`glob_match`)

`globCalls` is `glob_match` call by call, with its depth, and `globLanguage` is what a pattern
stands for. `globMatch`, which `find` uses, is the value of the calls and decides the language.
-/

namespace BojanOS

/-! ## The calls -/

/-- `glob_match` where calls are nested at most `k` deep, and `none` if they go deeper. -/
def globCalls : Nat → List Char → List Char → Option Bool
  | 0, _, _ => none
  | _ + 1, [], s => some (s = [])
  | k + 1, p :: pat, s =>
    if p = '*' then do
      -- `glob_match(pat + 1, s) || (*s && glob_match(pat, s + 1))`
      if ← globCalls k pat s then pure true
      else match s with
        | [] => pure false
        | _ :: s => globCalls k (p :: pat) s
    else match s with
      | [] => some false
      | c :: s => if p = '?' || c = p then globCalls k pat s else some false

theorem globCalls_cons (k : Nat) (p : Char) (pat s : List Char) :
    globCalls (k + 1) (p :: pat) s =
      if p = '*' then (globCalls k pat s).bind fun b =>
        if b then some true
        else match s with
          | [] => some false
          | _ :: s => globCalls k (p :: pat) s
      else match s with
        | [] => some false
        | c :: s => if p = '?' || c = p then globCalls k pat s else some false := by
  rw [globCalls.eq_def]
  rfl

theorem globMatch_cons (p : Char) (pat s : List Char) :
    globMatch (p :: pat) s =
      if p = '*' then globStar (globMatch pat) s
      else match s with
        | [] => false
        | c :: s => (p = '?' || c = p) && globMatch pat s :=
  globMatch.eq_def (p :: pat) s

theorem globMatch_star (pat : List Char) (c : Char) (s : List Char) :
    globMatch ('*' :: pat) (c :: s) = (globMatch pat (c :: s) || globMatch ('*' :: pat) s) := rfl

/-- A call leaves the pattern or the string shorter. -/
theorem globCalls_eq {k : Nat} {pat s : List Char} (hk : pat.length + s.length < k) :
    globCalls k pat s = some (globMatch pat s) := by
  induction k generalizing pat s with
  | zero => exact absurd hk (Nat.not_lt_zero _)
  | succ k ih =>
    cases pat with
    | nil => rfl
    | cons p pat =>
      rw [List.length_cons] at hk
      rw [globCalls_cons]
      split
      · rename_i hp
        subst hp
        have hrest : globCalls k pat s = some (globMatch pat s) := ih (by omega)
        rw [hrest, Option.bind_some]
        cases s with
        | nil =>
          rw [globMatch_cons, if_pos rfl, globStar]
          cases globMatch pat [] <;> rfl
        | cons c s =>
          rw [List.length_cons] at hk
          have hstar : globCalls k ('*' :: pat) s = some (globMatch ('*' :: pat) s) :=
            ih (by rw [List.length_cons]; omega)
          rw [globMatch_star]
          cases globMatch pat (c :: s) with
          | true => rfl
          | false => exact hstar
      · rename_i hp
        rw [globMatch_cons, if_neg hp]
        cases s with
        | nil => rfl
        | cons c s =>
          rw [List.length_cons] at hk
          simp only
          split
          · rename_i hc
            rw [hc, Bool.true_and]
            exact ih (by omega)
          · rename_i hc
            rw [Bool.not_eq_true _ |>.mp hc, Bool.false_and]

/-! ## The language -/

/-- What one byte of a pattern stands for. -/
def globPiece (p : Char) : Language Char :=
  {s | p = '*' ∨ (p = '?' ∧ s.length = 1) ∨ (p ≠ '*' ∧ p ≠ '?' ∧ s = [p])}

/-- What a pattern stands for. -/
def globLanguage (pat : List Char) : Language Char := (pat.map globPiece).prod

variable {p : Char} {pat s : List Char}

theorem mem_globLanguage_nil : s ∈ globLanguage [] ↔ s = [] := Language.mem_one s

theorem mem_globLanguage_cons :
    s ∈ globLanguage (p :: pat) ↔ ∃ a ∈ globPiece p, ∃ b ∈ globLanguage pat, a ++ b = s := by
  rw [globLanguage, List.map_cons, List.prod_cons]
  exact Language.mem_mul

/-- A piece other than `*` stands for single bytes. -/
theorem mem_globPiece (hp : p ≠ '*') : s ∈ globPiece p ↔ ∃ c, s = [c] ∧ (p = '?' ∨ c = p) := by
  constructor
  · rintro (h | ⟨hq, hs⟩ | ⟨-, -, hs⟩)
    · exact absurd h hp
    · obtain ⟨c, rfl⟩ := List.length_eq_one_iff.mp hs
      exact ⟨c, rfl, Or.inl hq⟩
    · exact ⟨p, hs, Or.inr rfl⟩
  · rintro ⟨c, rfl, h⟩
    by_cases hq : p = '?'
    · exact Or.inr (Or.inl ⟨hq, rfl⟩)
    · obtain rfl := h.resolve_left hq
      exact Or.inr (Or.inr ⟨hp, hq, rfl⟩)

/-- The tails that a `*` can leave. -/
theorem globStar_iff {f : List Char → Bool} : globStar f s ↔ ∃ a b, a ++ b = s ∧ f b := by
  induction s with
  | nil =>
    rw [globStar]
    constructor
    · intro h
      exact ⟨[], [], rfl, h⟩
    · rintro ⟨a, b, hab, h⟩
      rwa [(List.append_eq_nil_iff.mp hab).2] at h
  | cons c s ih =>
    rw [globStar, Bool.or_eq_true, ih]
    constructor
    · rintro (h | ⟨a, b, rfl, h⟩)
      · exact ⟨[], _, rfl, h⟩
      · exact ⟨c :: a, b, rfl, h⟩
    · rintro ⟨a, b, hab, h⟩
      rcases a with _ | ⟨d, a⟩
      · exact Or.inl (hab ▸ h)
      · exact Or.inr ⟨a, b, (List.cons.inj hab).2, h⟩

/-- The induction is on the pattern; the string is split as its first byte says. -/
theorem globMatch_iff (pat s : List Char) : globMatch pat s ↔ s ∈ globLanguage pat := by
  induction pat generalizing s with
  | nil => rw [globMatch, mem_globLanguage_nil, decide_eq_true_iff]
  | cons p pat ih =>
    rw [mem_globLanguage_cons, globMatch_cons]
    split
    · rename_i hp
      rw [globStar_iff]
      constructor
      · rintro ⟨a, b, hab, h⟩
        exact ⟨a, Or.inl hp, b, (ih b).mp h, hab⟩
      · rintro ⟨a, -, b, hb, hab⟩
        exact ⟨a, b, hab, (ih b).mpr hb⟩
    · rename_i hp
      constructor
      · intro h
        cases s with
        | nil => cases h
        | cons c s =>
          obtain ⟨hc, hs⟩ := Bool.and_eq_true_iff.mp h
          rw [Bool.or_eq_true, decide_eq_true_iff, decide_eq_true_iff] at hc
          exact ⟨[c], (mem_globPiece hp).mpr ⟨c, rfl, hc⟩, s, (ih s).mp hs, rfl⟩
      · rintro ⟨a, ha, b, hb, rfl⟩
        obtain ⟨c, rfl, hc⟩ := (mem_globPiece hp).mp ha
        apply Bool.and_eq_true_iff.mpr
        refine ⟨?_, (ih b).mpr hb⟩
        rwa [Bool.or_eq_true, decide_eq_true_iff, decide_eq_true_iff]

/-- `glob_match` comes to its end and says whether the whole string is in the language. -/
theorem globCalls_language (pat s : List Char) :
    (∀ k, pat.length + s.length < k → globCalls k pat s = some (globMatch pat s)) ∧
      (globMatch pat s = true ↔ s ∈ globLanguage pat) :=
  ⟨fun _ hk => globCalls_eq hk, globMatch_iff pat s⟩

example : globMatch "*.t?t".toList "notes.old.txt".toList = true := by decide

end BojanOS
