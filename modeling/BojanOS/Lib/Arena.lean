import Mathlib.Logic.Function.Basic
import Mathlib.Data.List.Basic

/-!
# Blocks of a flat memory

A memory is a function from addresses to cells, a `segment` of it a list. An `Arena` is a family of
blocks that lie below a bound and do not meet. A bump allocator keeps it by placing a block at the
bound (`place`).
-/

variable {ι β : Type}

namespace Arena

/-- The `n` cells from `b` on. -/
def segment (mem : Nat → β) (b n : Nat) : List β := (List.range n).map fun i => mem (b + i)

section segment
variable {mem mem' : Nat → β} {b c n k : Nat}

@[simp] theorem length_segment : (segment mem b n).length = n := by
  rw [segment, List.length_map, List.length_range]

@[simp] theorem segment_zero : segment mem b 0 = [] := rfl

theorem segment_congr (h : ∀ i < n, mem (b + i) = mem' (c + i)) :
    segment mem b n = segment mem' c n :=
  List.map_congr_left fun i hi => h i (List.mem_range.mp hi)

theorem segment_add : segment mem b (n + k) = segment mem b n ++ segment mem (b + n) k := by
  rw [segment, List.range_add, List.map_append, List.map_map]
  refine congrArg (segment mem b n ++ ·) (List.map_congr_left fun i _ => ?_)
  simp [Nat.add_assoc]

theorem segment_succ : segment mem b (n + 1) = mem b :: segment mem (b + 1) n := by
  rw [Nat.add_comm n, segment_add]
  rfl

theorem segment_take (h : k ≤ n) : (segment mem b n).take k = segment mem b k := by
  obtain ⟨j, rfl⟩ := Nat.exists_eq_add_of_le h
  rw [segment_add, List.take_left' length_segment]

end segment

end Arena

structure Block where
  start : Nat
  size : Nat
  deriving DecidableEq

structure Arena (blk : ι → Option Block) (top : Nat) : Prop where
  below : ∀ {i B}, blk i = some B → B.start + B.size ≤ top
  apart : ∀ {i j B C}, i ≠ j → blk i = some B → blk j = some C →
    B.start + B.size ≤ C.start ∨ C.start + C.size ≤ B.start

namespace Arena

variable {blk : ι → Option Block} {top top' n : Nat} {i j : ι} {B C : Block}

theorem raise (H : Arena blk top) (h : top ≤ top') : Arena blk top' where
  below hB := Nat.le_trans (H.below hB) h
  apart := H.apart

/-- The allocator places the block of `i` at the bound. -/
theorem place [DecidableEq ι] (H : Arena blk top) (h : top + n ≤ top') (i : ι) :
    Arena (Function.update blk i (some ⟨top, n⟩)) top' where
  below {j B} hB := by
    by_cases hj : j = i
    · subst hj
      rw [Function.update_self] at hB
      obtain rfl := Option.some.inj hB
      exact h
    · rw [Function.update_of_ne hj] at hB
      exact Nat.le_trans (H.below hB) (by omega)
  apart {j k B C} hne hB hC := by
    by_cases hj : j = i
    · subst hj
      rw [Function.update_self] at hB
      rw [Function.update_of_ne hne.symm] at hC
      obtain rfl := Option.some.inj hB
      exact .inr (H.below hC)
    · rw [Function.update_of_ne hj] at hB
      by_cases hk : k = i
      · subst hk
        rw [Function.update_self] at hC
        obtain rfl := Option.some.inj hC
        exact .inl (H.below hB)
      · rw [Function.update_of_ne hk] at hC
        exact H.apart hne hB hC

end Arena
