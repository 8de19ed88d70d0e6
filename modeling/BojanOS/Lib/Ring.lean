import Mathlib.Logic.Function.Basic
import Mathlib.Data.List.Basic
import Mathlib.Tactic.SplitIfs

/-!
# Ring buffers

A buffer of `N` slots with a position to write at (`head`) and one to read at (`tail`). One slot is
kept free: the buffer is empty when the two meet, and full when the next position is the `tail`.
`pending` is the queue that such a buffer stands for.
-/

namespace Ring

variable {α : Type} {N head tail i : Nat} {buf : Nat → α} {c : α}

def next (N i : Nat) : Nat := (i + 1) % N

/-- The slot `i` places behind the tail. -/
def slot (N tail i : Nat) : Nat := if tail + i < N then tail + i else tail + i - N

def count (N head tail : Nat) : Nat := if tail ≤ head then head - tail else head + N - tail

/-- The values that wait in the buffer, oldest first. -/
def pending (N : Nat) (buf : Nat → α) (head tail : Nat) : List α :=
  (List.range (count N head tail)).map fun i => buf (slot N tail i)

theorem pending_length : (pending N buf head tail).length = count N head tail := by
  rw [pending, List.length_map, List.length_range]

theorem next_eq (h : i < N) : next N i = if i + 1 = N then 0 else i + 1 := by
  rw [next]
  split
  · rename_i he
    rw [he, Nat.mod_self]
  · exact Nat.mod_eq_of_lt (by omega)

theorem next_lt (h : i < N) : next N i < N := Nat.mod_lt _ (Nat.zero_lt_of_lt h)

theorem pending_self : pending N buf head head = [] := by
  rw [pending, count, if_pos (Nat.le_refl _), Nat.sub_self]
  rfl

/-- A full buffer holds one value less than it has slots. -/
theorem count_full_iff (hhead : head < N) (htail : tail < N) :
    count N head tail = N - 1 ↔ next N head = tail := by
  rw [next_eq hhead, count]
  split_ifs <;> omega

theorem count_full (hhead : head < N) (htail : tail < N) (hfull : next N head = tail) :
    count N head tail = N - 1 := (count_full_iff hhead htail).mpr hfull

/-- A write at the head puts the value behind the others. -/
theorem pending_push (hhead : head < N) (htail : tail < N) (hfree : next N head ≠ tail) :
    pending N (Function.update buf head c) (next N head) tail = pending N buf head tail ++ [c] := by
  have hnext : next N head = _ := next_eq hhead
  have hcount : count N (next N head) tail = count N head tail + 1 := by
    rw [hnext] at hfree ⊢
    rw [count, count]
    split_ifs at hfree ⊢ <;> omega
  have hlast : slot N tail (count N head tail) = head := by
    rw [slot, count]
    split_ifs <;> omega
  rw [pending, hcount, List.range_succ, List.map_append, List.map_singleton, hlast,
    Function.update_self]
  refine congrArg (· ++ [c]) (List.map_congr_left fun i hi => ?_)
  have hlt := List.mem_range.mp hi
  apply Function.update_of_ne
  rw [slot]
  rw [count] at hlt
  split_ifs at hlt ⊢ <;> omega

/-- The value at the tail is the first one. -/
theorem pending_pop (hhead : head < N) (htail : tail < N) (hne : head ≠ tail) :
    pending N buf head tail = buf tail :: pending N buf head (next N tail) := by
  have hnext : next N tail = _ := next_eq htail
  have hcount : count N head tail = count N head (next N tail) + 1 := by
    rw [hnext, count, count]
    split_ifs <;> omega
  have hfirst : slot N tail 0 = tail := if_pos htail
  rw [pending, hcount, List.range_succ_eq_map, List.map_cons, List.map_map, hfirst, pending]
  refine congrArg (buf tail :: ·) (List.map_congr_left fun i hi => congrArg buf ?_)
  have hlt := List.mem_range.mp hi
  rw [slot, slot, hnext]
  rw [hnext, count] at hlt
  split_ifs at hlt ⊢ <;> omega

end Ring
