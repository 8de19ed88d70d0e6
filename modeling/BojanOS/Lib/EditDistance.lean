import Mathlib.Algebra.GroupWithZero.Nat
import Mathlib.Data.List.Basic
import Mathlib.Order.Bounds.Defs
import Mathlib.Order.MinMax
import Mathlib.Tactic.SplitIfs

/-!
# The edit distance of two lists

A script turns one list into another by steps that keep, insert, delete or replace one element, and
all but the first kind cost 1. `lev` is the recurrence of Levenshtein, and it is the least cost of a
script (`isLeast_lev`).

`cell M` is the same recurrence in a table whose cells hold numbers modulo `M`. It is the distance
as long as both lists are shorter than `M` (`cell_eq_lev`). Beyond that `M` elements at the end of
one list count for nothing if the other list is short enough (`cell_append`), so a cell is zero for
lists that differ by such an end only (`cell_eq_zero`).
-/

namespace EditDistance

variable {α : Type}

/-! ## Scripts -/

inductive Step (α : Type) where
  | same (a : α)
  | ins (b : α)
  | del (a : α)
  | rep (a b : α)

namespace Step

/-- What the step takes from the first list. -/
def old : Step α → List α
  | same a => [a]
  | ins _ => []
  | del a => [a]
  | rep a _ => [a]

/-- What the step gives to the second list. -/
def new : Step α → List α
  | same a => [a]
  | ins b => [b]
  | del _ => []
  | rep _ b => [b]

def cost : Step α → Nat
  | same _ => 0
  | ins _ => 1
  | del _ => 1
  | rep _ _ => 1

end Step

/-- The script turns `A` into `B`. -/
structure Turns (script : List (Step α)) (A B : List α) : Prop where
  old : script.flatMap Step.old = A
  new : script.flatMap Step.new = B

def cost (script : List (Step α)) : Nat := (script.map Step.cost).sum

section turns

variable {script : List (Step α)} {A B : List α}

theorem Turns.nil : Turns ([] : List (Step α)) [] [] := ⟨rfl, rfl⟩

theorem Turns.cons (s : Step α) (H : Turns script A B) :
    Turns (s :: script) (s.old ++ A) (s.new ++ B) := by
  constructor
  · rw [List.flatMap_cons, H.old]
  · rw [List.flatMap_cons, H.new]

theorem cost_cons (s : Step α) (script : List (Step α)) :
    cost (s :: script) = s.cost + cost script := by
  rw [cost, List.map_cons, List.sum_cons, cost]

end turns

/-! ## The distance -/

section lev

variable [DecidableEq α]

def lev : List α → List α → Nat
  | [], B => B.length
  | a :: A, [] => (a :: A).length
  | a :: A, b :: B =>
    min (min (lev A B + if a = b then 0 else 1) (lev A (b :: B) + 1)) (lev (a :: A) B + 1)

@[simp] theorem nil_lev (B : List α) : lev [] B = B.length := by rw [lev]

@[simp] theorem lev_nil (A : List α) : lev A [] = A.length := by
  cases A with
  | nil => rw [nil_lev]
  | cons a A => rw [lev]

theorem lev_cons (a b : α) (A B : List α) : lev (a :: A) (b :: B) =
    min (min (lev A B + if a = b then 0 else 1) (lev A (b :: B) + 1)) (lev (a :: A) B + 1) := by
  rw [lev]

/-- One more element in the first list. -/
theorem lev_del (a : α) (A B : List α) : lev (a :: A) B ≤ lev A B + 1 := by
  cases B with
  | nil => simp
  | cons b B =>
    rw [lev_cons]
    omega

theorem lev_ins (b : α) (A B : List α) : lev A (b :: B) ≤ lev A B + 1 := by
  cases A with
  | nil => simp
  | cons a A =>
    rw [lev_cons]
    omega

theorem lev_rep (a b : α) (A B : List α) : lev (a :: A) (b :: B) ≤ lev A B + 1 := by
  rw [lev_cons]
  split_ifs <;> omega

/-- The distance to a list with one element less is at most one more. -/
theorem lev_tail (a : α) (A B : List α) : lev A B ≤ lev (a :: A) B + 1 := by
  induction B generalizing a A with
  | nil =>
    simp only [lev_nil, List.length_cons]
    omega
  | cons b B ih =>
    have hins := lev_ins b A B
    have htail := ih a A
    rw [lev_cons]
    split_ifs <;> omega

theorem lev_tail' (b : α) (A B : List α) : lev A B ≤ lev A (b :: B) + 1 := by
  induction A generalizing b B with
  | nil =>
    simp only [nil_lev, List.length_cons]
    omega
  | cons a A ih =>
    have hdel := lev_del a A B
    have htail := ih b B
    rw [lev_cons]
    split_ifs <;> omega

/-- Equal elements at the front can be kept. -/
theorem lev_same (a : α) (A B : List α) : lev (a :: A) (a :: B) = lev A B := by
  have h := lev_tail' a A B
  have h' := lev_tail a A B
  rw [lev_cons, if_pos rfl]
  omega

theorem length_le_lev (A B : List α) : A.length ≤ B.length + lev A B := by
  induction A generalizing B with
  | nil => exact Nat.zero_le _
  | cons a A ih =>
    induction B with
    | nil => simp
    | cons b B ihB =>
      have h := ih B
      have h' := ih (b :: B)
      rw [lev_cons]
      simp only [List.length_cons] at *
      split_ifs <;> omega

theorem lev_le_max (A B : List α) : lev A B ≤ max A.length B.length := by
  induction A generalizing B with
  | nil => simp
  | cons a A ih =>
    cases B with
    | nil => simp
    | cons b B =>
      have h := ih B
      rw [lev_cons]
      simp only [List.length_cons]
      split_ifs <;> omega

theorem lev_eq_zero {A B : List α} : lev A B = 0 ↔ A = B := by
  induction A generalizing B with
  | nil =>
    rw [nil_lev, List.length_eq_zero_iff]
    exact eq_comm
  | cons a A ih =>
    cases B with
    | nil =>
      rw [lev_nil]
      exact iff_of_false (Nat.succ_ne_zero _) (List.cons_ne_nil _ _)
    | cons b B =>
      by_cases hab : a = b
      · subst hab
        rw [lev_same, ih, List.cons_inj_right]
      · rw [lev_cons, if_neg hab]
        refine iff_of_false (by omega) fun h => hab (List.cons.inj h).1

theorem lev_le_cost {script : List (Step α)} {A B : List α} (H : Turns script A B) :
    lev A B ≤ cost script := by
  obtain ⟨rfl, rfl⟩ := H
  induction script with
  | nil => simp
  | cons s script ih =>
    rw [cost_cons, List.flatMap_cons, List.flatMap_cons]
    generalize script.flatMap Step.old = A at ih ⊢
    generalize script.flatMap Step.new = B at ih ⊢
    cases s with
    | same a =>
      have := lev_same a A B
      simp only [Step.old, Step.new, Step.cost, List.singleton_append]
      omega
    | ins b =>
      have := lev_ins b A B
      simp only [Step.old, Step.new, Step.cost, List.singleton_append, List.nil_append]
      omega
    | del a =>
      have := lev_del a A B
      simp only [Step.old, Step.new, Step.cost, List.singleton_append, List.nil_append]
      omega
    | rep a b =>
      have := lev_rep a b A B
      simp only [Step.old, Step.new, Step.cost, List.singleton_append]
      omega

/-- The branches of the recurrence are steps of a script. -/
theorem exists_turns (A B : List α) : ∃ script, Turns script A B ∧ cost script = lev A B := by
  induction A generalizing B with
  | nil =>
    induction B with
    | nil => exact ⟨[], .nil, by simp [cost]⟩
    | cons b B ih =>
      obtain ⟨script, H, hc⟩ := ih
      refine ⟨.ins b :: script, H.cons (.ins b), ?_⟩
      rw [cost_cons, hc, nil_lev, nil_lev, List.length_cons, Step.cost, Nat.add_comm]
  | cons a A ih =>
    induction B with
    | nil =>
      obtain ⟨script, H, hc⟩ := ih []
      refine ⟨.del a :: script, H.cons (.del a), ?_⟩
      rw [cost_cons, hc, lev_nil, lev_nil, List.length_cons, Step.cost, Nat.add_comm]
    | cons b B ihB =>
      obtain ⟨rep, Hrep, hrep⟩ := ih B
      obtain ⟨del, Hdel, hdel⟩ := ih (b :: B)
      obtain ⟨ins, Hins, hins⟩ := ihB
      by_cases hab : a = b
      · subst hab
        refine ⟨.same a :: rep, Hrep.cons (.same a), ?_⟩
        rw [cost_cons, hrep, lev_same, Step.cost, Nat.zero_add]
      · have hcases : lev (a :: A) (b :: B) = lev A B + 1 ∨
            lev (a :: A) (b :: B) = lev A (b :: B) + 1 ∨
            lev (a :: A) (b :: B) = lev (a :: A) B + 1 := by
          rw [lev_cons, if_neg hab]
          omega
        rcases hcases with h | h | h
        · refine ⟨.rep a b :: rep, Hrep.cons (.rep a b), ?_⟩
          rw [cost_cons, hrep, h, Step.cost, Nat.add_comm]
        · refine ⟨.del a :: del, Hdel.cons (.del a), ?_⟩
          rw [cost_cons, hdel, h, Step.cost, Nat.add_comm]
        · refine ⟨.ins b :: ins, Hins.cons (.ins b), ?_⟩
          rw [cost_cons, hins, h, Step.cost, Nat.add_comm]

theorem isLeast_lev (A B : List α) :
    IsLeast {c | ∃ script, Turns script A B ∧ cost script = c} (lev A B) := by
  constructor
  · exact exists_turns A B
  · rintro c ⟨script, H, rfl⟩
    exact lev_le_cost H

end lev

/-! ## Cells with numbers modulo `M` -/

section cell

variable [DecidableEq α] {M : Nat}

def cell (M : Nat) : List α → List α → Nat
  | [], B => B.length % M
  | a :: A, [] => (a :: A).length % M
  | a :: A, b :: B =>
    min (min (cell M A B + if a = b then 0 else 1) (cell M A (b :: B) + 1))
      (cell M (a :: A) B + 1) % M

@[simp] theorem nil_cell (B : List α) : cell M [] B = B.length % M := by rw [cell]

@[simp] theorem cell_nil (A : List α) : cell M A [] = A.length % M := by
  cases A with
  | nil => rw [nil_cell]
  | cons a A => rw [cell]

theorem cell_cons (a b : α) (A B : List α) : cell M (a :: A) (b :: B) =
    min (min (cell M A B + if a = b then 0 else 1) (cell M A (b :: B) + 1))
      (cell M (a :: A) B + 1) % M := by
  rw [cell]

/-- No cell wraps. -/
theorem cell_eq_lev {A B : List α} (hA : A.length < M) (hB : B.length < M) :
    cell M A B = lev A B := by
  induction A generalizing B with
  | nil => rw [nil_cell, nil_lev, Nat.mod_eq_of_lt hB]
  | cons a A ih =>
    induction B with
    | nil => rw [cell_nil, lev_nil, Nat.mod_eq_of_lt hA]
    | cons b B ihB =>
      have hA' : A.length < M := by
        rw [List.length_cons] at hA
        omega
      have hB' : B.length < M := by
        rw [List.length_cons] at hB
        omega
      have hmax := lev_le_max (a :: A) (b :: B)
      rw [cell_cons, ih hA' hB', ih hA' hB, ihB hB', ← lev_cons]
      exact Nat.mod_eq_of_lt (by omega)

theorem cell_comm (A B : List α) : cell M A B = cell M B A := by
  induction A generalizing B with
  | nil => rw [nil_cell, cell_nil]
  | cons a A ih =>
    induction B with
    | nil => rw [nil_cell, cell_nil]
    | cons b B ihB =>
      rw [cell_cons, cell_cons, ih B, ih (b :: B), ihB, min_right_comm]
      simp only [eq_comm]

/-- The row of `M` more elements is the row of none. -/
theorem cell_block {T B : List α} (hT : T.length = M) (hB : 2 * B.length ≤ M) :
    cell M T B = B.length % M := by
  cases T with
  | nil => exact nil_cell B
  | cons t T =>
    rw [List.length_cons] at hT
    have hrow : ∀ B' : List α, 2 * B'.length ≤ M → M - 1 - B'.length ≤ cell M T B' := by
      intro B' hB'
      have := length_le_lev T B'
      rw [cell_eq_lev (by omega) (by omega)]
      omega
    induction B with
    | nil =>
      rw [cell_nil, List.length_cons, hT, Nat.mod_self, List.length_nil, Nat.zero_mod]
    | cons b B ih =>
      have hdiag := hrow B (by rw [List.length_cons] at hB; omega)
      have hdel := hrow (b :: B) hB
      rw [List.length_cons] at hB hdel
      have hins : cell M (t :: T) B = B.length :=
        (ih (by omega)).trans (Nat.mod_eq_of_lt (by omega))
      -- the other two cells are in rows of `M - 1` elements
      have hmin : min (min (cell M T B + if t = b then 0 else 1) (cell M T (b :: B) + 1))
          (B.length + 1) = B.length + 1 := by
        split_ifs <;> omega
      rw [cell_cons, hins, hmin, List.length_cons]

/-- So they count for nothing behind any other elements. -/
theorem cell_append {T : List α} (hT : T.length = M) (A : List α) {B : List α}
    (hB : 2 * B.length ≤ M) : cell M (A ++ T) B = cell M A B := by
  induction A generalizing B with
  | nil => rw [List.nil_append, nil_cell, cell_block hT hB]
  | cons a A ih =>
    induction B with
    | nil =>
      rw [cell_nil, cell_nil, List.cons_append, List.length_cons, List.length_cons,
        List.length_append, hT, Nat.add_right_comm, Nat.add_mod_right]
    | cons b B ihB =>
      have hB' : 2 * B.length ≤ M := by
        rw [List.length_cons] at hB
        omega
      have hrow := ihB hB'
      rw [List.cons_append] at hrow ⊢
      rw [cell_cons, cell_cons, ih hB', ih hB, hrow]

theorem cell_take (hM : 0 < M) (A : List α) {B : List α} (hB : 2 * B.length ≤ M) :
    cell M A B = cell M (A.take (A.length % M)) B := by
  induction hn : A.length using Nat.strongRecOn generalizing A with
  | _ n ih =>
    by_cases hlt : n < M
    · rw [Nat.mod_eq_of_lt hlt, List.take_of_length_le (by omega)]
    · have hlen : (A.take (n - M)).length = n - M := by
        rw [List.length_take]
        omega
      have hT : (A.drop (n - M)).length = M := by
        rw [List.length_drop]
        omega
      have hfront := ih (n - M) (by omega) (A.take (n - M)) hlen
      have hmod : (n - M) % M = n % M := (Nat.mod_eq_sub_mod (by omega)).symm
      have hle : n % M ≤ n - M := by
        rw [← hmod]
        exact Nat.mod_le _ _
      rw [hmod, List.take_take, Nat.min_eq_left hle] at hfront
      rw [← hfront]
      conv_lhs => rw [← List.take_append_drop (n - M) A]
      exact cell_append hT _ hB

/-- What a table with cells modulo `M` takes for equal: lists without the last elements, as many as
the greatest multiple of `M` that there are. -/
theorem cell_eq_zero (hM : 0 < M) {A B : List α} (hA : A.length < M ∨ 2 * B.length ≤ M)
    (hB : B.length < M ∨ 2 * A.length ≤ M) :
    cell M A B = 0 ↔ A.take (A.length % M) = B.take (B.length % M) := by
  have hshort : ∀ A B : List α, A.length < M → B.length < M →
      (cell M A B = 0 ↔ A = B) := by
    intro A B hA hB
    rw [cell_eq_lev hA hB, lev_eq_zero]
  have hall : ∀ {A : List α}, A.length < M → A.take (A.length % M) = A := by
    intro A hA
    rw [Nat.mod_eq_of_lt hA, List.take_length]
  have hcut : ∀ A : List α, (A.take (A.length % M)).length < M := by
    intro A
    have := Nat.mod_lt A.length hM
    rw [List.length_take]
    omega
  by_cases hAlt : A.length < M
  · by_cases hBlt : B.length < M
    · rw [hshort A B hAlt hBlt, hall hAlt, hall hBlt]
    · rw [cell_comm, cell_take hM B (hB.resolve_left hBlt), cell_comm, hall hAlt]
      exact hshort A _ hAlt (hcut B)
  · have hshortB := hA.resolve_left hAlt
    have hBlt : B.length < M := by omega
    rw [cell_take hM A hshortB, hall hBlt]
    exact hshort _ B (hcut A) hBlt

/-- One list is the other with further elements behind it, a multiple of `M` of them. -/
theorem cell_eq_zero_iff (hM : 0 < M) {A B : List α} (hA : A.length < M ∨ 2 * B.length ≤ M)
    (hB : B.length < M ∨ 2 * A.length ≤ M) :
    cell M A B = 0 ↔ ∃ t : List α, M ∣ t.length ∧ (A = B ++ t ∨ B = A ++ t) := by
  have hone : ∀ A B : List α, B.length < M →
      (A.take (A.length % M) = B.take (B.length % M) ↔
        ∃ t : List α, M ∣ t.length ∧ (A = B ++ t ∨ B = A ++ t)) := by
    intro A B hB
    rw [Nat.mod_eq_of_lt hB, List.take_length]
    constructor
    · intro h
      refine ⟨A.drop (A.length % M), ?_, .inl ?_⟩
      · rw [List.length_drop]
        exact Nat.dvd_sub_mod _
      · rw [← h, List.take_append_drop]
    · rintro ⟨t, hdvd, rfl | rfl⟩
      · obtain ⟨k, hk⟩ := hdvd
        rw [List.length_append, hk, Nat.add_mul_mod_self_left, Nat.mod_eq_of_lt hB, List.take_left]
      · rw [List.length_append] at hB
        have ht : t.length = 0 := Nat.eq_zero_of_dvd_of_lt hdvd (by omega)
        rw [List.eq_nil_of_length_eq_zero ht, List.append_nil, Nat.mod_eq_of_lt (by omega),
          List.take_length]
  rw [cell_eq_zero hM hA hB]
  by_cases hBlt : B.length < M
  · exact hone A B hBlt
  · have hAlt : A.length < M := by omega
    rw [eq_comm, hone B A hAlt]
    simp only [or_comm]

end cell

end EditDistance
