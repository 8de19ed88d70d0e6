import BojanOS.Lib.Arena
import BojanOS.Lib.PointerForest
import Mathlib.Algebra.Order.BigOperators.Group.Finset
import Mathlib.Order.Interval.Finset.Nat

/-!
# Sums over an arena and over a tree

The blocks of an arena do not need more room than there is. The nodes at and below a node are a list
that has each of them once, so what a recursion over the children adds up is a sum over a set.
-/

variable {ι : Type}

namespace Block

def cells (b : Option Block) : Finset Nat := b.elim ∅ fun B => Finset.Ico B.start (B.start + B.size)

/-- The size of a block that is there. -/
def room (b : Option Block) : Nat := b.elim 0 Block.size

theorem card_cells (b : Option Block) : (cells b).card = room b := by
  cases b with
  | none => rfl
  | some B => simp [cells, room]

theorem mem_cells {b : Option Block} {a : Nat} :
    a ∈ cells b ↔ ∃ B, b = some B ∧ B.start ≤ a ∧ a < B.start + B.size := by
  cases b with
  | none => simp [cells]
  | some B => simp [cells]

end Block

open Block in
theorem Arena.sum_room_le {blk : ι → Option Block} {top : Nat} (H : Arena blk top)
    (s : Finset ι) : ∑ i ∈ s, room (blk i) ≤ top := by
  classical
  have hapart : ∀ i ∈ s, ∀ j ∈ s, i ≠ j → Disjoint (cells (blk i)) (cells (blk j)) := by
    intro i _ j _ hij
    rw [Finset.disjoint_left]
    intro a hi hj
    obtain ⟨B, hB, hB₁, hB₂⟩ := mem_cells.mp hi
    obtain ⟨C, hC, hC₁, hC₂⟩ := mem_cells.mp hj
    rcases H.apart hij hB hC with h | h <;> omega
  have hbelow : s.biUnion (fun i => cells (blk i)) ⊆ Finset.range top := by
    intro a ha
    obtain ⟨i, -, ha⟩ := Finset.mem_biUnion.mp ha
    obtain ⟨B, hB, -, hlt⟩ := mem_cells.mp ha
    exact Finset.mem_range.mpr (hlt.trans_le (H.below hB))
  calc ∑ i ∈ s, room (blk i)
      = ∑ i ∈ s, (cells (blk i)).card := Finset.sum_congr rfl fun i _ => (card_cells _).symm
    _ = (s.biUnion fun i => cells (blk i)).card := (Finset.card_biUnion hapart).symm
    _ ≤ (Finset.range top).card := Finset.card_le_card hbelow
    _ = top := Finset.card_range top

namespace Forest

variable {kids : ι → List ι} {par : ι → Option ι} {root n m : ι} {k : Nat}

/-- The nodes at `n` and below it, over at most `k` levels, a node in front of what is below it. -/
def nodes (kids : ι → List ι) : Nat → ι → List ι
  | 0, n => [n]
  | k + 1, n => n :: (kids n).flatMap (nodes kids k)

theorem below_of_mem_nodes (h : m ∈ nodes kids k n) : Below kids n m := by
  induction k generalizing n with
  | zero =>
    obtain rfl := List.mem_singleton.mp h
    exact .refl
  | succ k ih =>
    rcases List.mem_cons.mp h with rfl | h
    · exact .refl
    · obtain ⟨c, hc, h⟩ := List.mem_flatMap.mp h
      exact Relation.ReflTransGen.head hc (ih h)

theorem mem_nodes_of_path {l : List ι} (h : Path kids n l m) (hk : l.length ≤ k) :
    m ∈ nodes kids k n := by
  induction k generalizing n l with
  | zero =>
    obtain rfl := List.eq_nil_of_length_eq_zero (Nat.le_zero.mp hk)
    cases h
    exact List.mem_singleton_self _
  | succ k ih =>
    rcases eq_or_ne l [] with rfl | hne
    · cases h
      exact List.mem_cons_self
    · obtain ⟨c, hc, l', h', rfl⟩ := h.exists_cons hne
      rw [List.length_append, List.length_singleton] at hk
      exact List.mem_cons_of_mem _ (List.mem_flatMap.mpr ⟨c, hc, ih h' (by omega)⟩)

section

variable (H : Forest kids par root) (hup : ∀ {p c}, c ∈ kids p → ¬ Below kids c p)

include H hup

/-- A child has no other child of the same node below it. -/
theorem eq_of_below_kid {c d : ι} (hc : c ∈ kids n) (hd : d ∈ kids n) (h : Below kids c d) :
    c = d := by
  obtain he | ⟨q, hq, hdq⟩ := Relation.ReflTransGen.cases_tail h
  · exact he.symm
  · exact absurd (H.eq_of_mem hdq hd ▸ hq) (hup hc)

theorem nodup_nodes (k : Nat) (n : ι) : (nodes kids k n).Nodup := by
  induction k generalizing n with
  | zero => exact List.nodup_singleton n
  | succ k ih =>
    rw [nodes, List.nodup_cons, List.nodup_flatMap]
    refine ⟨fun h => ?_, fun c _ => ih c, (H.nodup n).imp_of_mem fun {c d} hc hd hne m hm hm' => ?_⟩
    · obtain ⟨c, hc, h⟩ := List.mem_flatMap.mp h
      exact hup hc (below_of_mem_nodes h)
    · -- what is below both children would put one of them below the other
      obtain ⟨l, hl⟩ := (below_of_mem_nodes hm).exists_path
      obtain ⟨l', hl'⟩ := (below_of_mem_nodes hm').exists_path
      rcases hl.comparable H hl' with ⟨x, hx, -⟩ | ⟨x, hx, -⟩
      · exact hne (eq_of_below_kid H hup hc hd hx.toBelow)
      · exact hne (eq_of_below_kid H hup hd hc hx.toBelow).symm

end

end Forest
