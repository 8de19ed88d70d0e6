import Mathlib.Logic.Relation
import Mathlib.Logic.Function.Basic
import Mathlib.Data.List.Nodup
import Mathlib.Data.Set.Finite.Basic

/-!
# Forests stored as child arrays with parent pointers

`kids p` is the child array of the node `p` and `par c` the parent field of `c`. `Forest` is the
local consistency that a program can keep node by node: a child array has no repetition, its
members point back, and the root is in no array. It is enough for the global shape: the nodes below
the root form a tree (`path_unique`), and each of them other than the root is in one array, once
(`count_eq_one`, `eq_of_mem`). Hanging a fresh leaf below a node keeps it (`link`), and so does
taking children away (`mono`). `Cut` says that a node and all below it are gone and nothing else
has changed; a loop that cuts off the children first and the node last comes to it (`Cut.trans`,
`Cut.leaf`).
-/

variable {ι : Type}

/-- `n` is `r` or below it. -/
def Below (kids : ι → List ι) (r n : ι) : Prop :=
  Relation.ReflTransGen (fun p c => c ∈ kids p) r n

/-- `Path kids r l n`: `l` lists the nodes passed on the way down from `r` to `n`, the last one
first, without `r`. -/
inductive Forest.Path (kids : ι → List ι) (r : ι) : List ι → ι → Prop
  | nil : Forest.Path kids r [] r
  | snoc {l : List ι} {p c : ι} :
    Forest.Path kids r l p → c ∈ kids p → Forest.Path kids r (c :: l) c

/-- A way down that starts with a child. -/
theorem Forest.Path.cons {kids : ι → List ι} {r c n : ι} {l : List ι} (hc : c ∈ kids r)
    (h : Forest.Path kids c l n) : Forest.Path kids r (l ++ [c]) n := by
  induction h with
  | nil => exact .snoc .nil hc
  | snoc _ hd ih => exact .snoc ih hd

/-- Any way down other than the empty one. -/
theorem Forest.Path.exists_cons {kids : ι → List ι} {r n : ι} {l : List ι}
    (h : Forest.Path kids r l n) (hl : l ≠ []) :
    ∃ c ∈ kids r, ∃ l', Forest.Path kids c l' n ∧ l = l' ++ [c] := by
  induction h with
  | nil => exact absurd rfl hl
  | @snoc l p c h hc ih =>
    rcases eq_or_ne l [] with rfl | hne
    · cases h with
      | nil => exact ⟨c, hc, [], .nil, rfl⟩
    · obtain ⟨d, hd, l', h', rfl⟩ := ih hne
      exact ⟨d, hd, c :: l', .snoc h' hc, rfl⟩

structure Forest (kids : ι → List ι) (par : ι → Option ι) (root : ι) : Prop where
  par_eq : ∀ {p c}, c ∈ kids p → par c = some p
  nodup : ∀ p, (kids p).Nodup
  root_not_mem : ∀ p, root ∉ kids p

namespace Below

variable {kids kids' : ι → List ι} {r p c n : ι}

theorem refl : Below kids r r := Relation.ReflTransGen.refl

theorem tail (h : Below kids r p) (hc : c ∈ kids p) : Below kids r c :=
  Relation.ReflTransGen.tail h hc

theorem exists_path (h : Below kids r n) : ∃ l, Forest.Path kids r l n := by
  induction h with
  | refl => exact ⟨[], .nil⟩
  | tail _ hc ih =>
    obtain ⟨l, hl⟩ := ih
    exact ⟨_, .snoc hl hc⟩

theorem mono (hk : ∀ p c, c ∈ kids p → c ∈ kids' p) (h : Below kids r n) : Below kids' r n :=
  Relation.ReflTransGen.mono hk _ _ h

/-- Everything below the root stays inside a set that is closed under children. -/
theorem mem_of_closed {S : Set ι} (hr : r ∈ S) (hS : ∀ p c, p ∈ S → c ∈ kids p → c ∈ S)
    (h : Below kids r n) : n ∈ S := by
  induction h with
  | refl => exact hr
  | tail _ hc ih => exact hS _ _ ih hc

theorem eq_of_leaf (h : Below kids r n) (hleaf : kids r = []) : n = r := by
  obtain rfl | ⟨d, hd, -⟩ := Relation.ReflTransGen.cases_head h
  · rfl
  · rw [hleaf] at hd
    cases hd

end Below

namespace Forest

variable {kids : ι → List ι} {par : ι → Option ι} {root p q c n : ι}

theorem eq_of_mem (H : Forest kids par root) (hp : c ∈ kids p) (hq : c ∈ kids q) : p = q :=
  Option.some.inj ((H.par_eq hp).symm.trans (H.par_eq hq))

theorem count_eq_one [DecidableEq ι] (H : Forest kids par root) (h : c ∈ kids p) :
    (kids p).count c = 1 := List.count_eq_one_of_mem (H.nodup p) h

/-- There is one way down to a node. -/
theorem path_unique (H : Forest kids par root) {l l' : List ι} (h : Forest.Path kids root l n)
    (h' : Forest.Path kids root l' n) : l = l' := by
  induction h generalizing l' with
  | nil =>
    cases h' with
    | nil => rfl
    | snoc _ hc => exact absurd hc (H.root_not_mem _)
  | snoc _ hc ih =>
    cases h' with
    | nil => exact absurd hc (H.root_not_mem _)
    | snoc h' hc' =>
      obtain rfl := H.eq_of_mem hc hc'
      rw [ih h']

namespace Path

variable {r a b : ι} {l l' : List ι}

theorem append (h : Path kids r l p) (h' : Path kids p l' n) : Path kids r (l' ++ l) n := by
  induction h' with
  | nil => exact h
  | snoc _ hc ih => exact .snoc ih hc

theorem toBelow (h : Path kids r l n) : Below kids r n := by
  induction h with
  | nil => exact .refl
  | snoc _ hc ih => exact ih.tail hc

/-- Of two nodes above the same node one is above the other. -/
theorem comparable (H : Forest kids par root) (h : Path kids a l n) (h' : Path kids b l' n) :
    (∃ x, Path kids a x b ∧ l = l' ++ x) ∨ ∃ x, Path kids b x a ∧ l' = l ++ x := by
  induction h generalizing l' with
  | nil => exact .inr ⟨l', h', rfl⟩
  | @snoc l p c h hc ih =>
    cases h' with
    | nil => exact .inl ⟨_ :: l, .snoc h hc, rfl⟩
    | snoc h' hc' =>
      obtain rfl := H.eq_of_mem hc hc'
      rcases ih h' with ⟨x, hx, rfl⟩ | ⟨x, hx, rfl⟩
      · exact .inl ⟨x, hx, rfl⟩
      · exact .inr ⟨x, hx, rfl⟩

section Rank

variable {rank : ι → Nat} (hrank : ∀ {p c}, c ∈ kids p → rank p < rank c)

include hrank

theorem length_le (h : Path kids r l n) : rank r + l.length ≤ rank n := by
  induction h with
  | nil => exact le_rfl
  | snoc _ hc ih =>
    have := hrank hc
    rw [List.length_cons]
    omega

theorem unique (H : Forest kids par root) (h : Path kids r l n) (h' : Path kids r l' n) :
    l = l' := by
  have hnil : ∀ {x}, Path kids r x r → x = [] := by
    intro x hx
    have := hx.length_le hrank
    exact List.length_eq_zero_iff.mp (by omega)
  rcases comparable H h h' with ⟨x, hx, rfl⟩ | ⟨x, hx, rfl⟩
  · rw [hnil hx, List.append_nil]
  · rw [hnil hx, List.append_nil]

end Rank

end Path

/-- A node below the root is the root or a child of a node below the root. -/
theorem parent_below (h : Below kids root n) (hn : n ≠ root) :
    ∃ p, Below kids root p ∧ n ∈ kids p := by
  obtain rfl | ⟨p, hp, hc⟩ := Relation.ReflTransGen.cases_tail h
  · exact absurd rfl hn
  · exact ⟨p, hp, hc⟩

/-- Child arrays may lose members. -/
theorem mono {kids' : ι → List ι} (H : Forest kids par root)
    (hk : ∀ p, (kids' p).Sublist (kids p)) : Forest kids' par root where
  par_eq hc := H.par_eq ((hk _).subset hc)
  nodup p := (H.nodup p).sublist (hk p)
  root_not_mem p hp := H.root_not_mem p ((hk p).subset hp)

/-! ## All ways down -/

/-- The ways down from `n`, over at most `k` levels, a node in front of what is below it. Behind
each of them stands `l`, which leads to `n`. -/
def preorder (kids : ι → List ι) : Nat → ι → List ι → List (List ι)
  | 0, _, _ => []
  | k + 1, n, l => (kids n).flatMap fun c => (c :: l) :: preorder kids k c (c :: l)

theorem mem_preorder {k : Nat} {l z : List ι} : z ∈ preorder kids k n l ↔
    ∃ x c, Path kids n x c ∧ x ≠ [] ∧ x.length ≤ k ∧ z = x ++ l := by
  induction k generalizing n l with
  | zero =>
    refine iff_of_false List.not_mem_nil ?_
    rintro ⟨x, c, -, hx, hlen, -⟩
    exact hx (List.length_eq_zero_iff.mp (Nat.le_zero.mp hlen))
  | succ k ih =>
    rw [preorder, List.mem_flatMap]
    constructor
    · rintro ⟨d, hd, hz⟩
      rcases List.mem_cons.mp hz with rfl | hz
      · exact ⟨[d], d, .snoc .nil hd, List.cons_ne_nil _ _, by simp, rfl⟩
      · obtain ⟨x, c, hx, -, hlen, rfl⟩ := ih.mp hz
        refine ⟨x ++ [d], c, .cons hd hx, by simp, ?_, by simp⟩
        rw [List.length_append, List.length_singleton]
        omega
    · rintro ⟨x, c, hx, hne, hlen, rfl⟩
      obtain ⟨d, hd, x', hx', rfl⟩ := hx.exists_cons hne
      rw [List.length_append, List.length_singleton] at hlen
      refine ⟨d, hd, ?_⟩
      rcases eq_or_ne x' [] with rfl | hne'
      · exact List.mem_cons_self
      · apply List.mem_cons_of_mem
        exact ih.mpr ⟨x', c, hx', hne', by omega, by simp⟩

theorem nodup_preorder (hkids : ∀ p, (kids p).Nodup) (k : Nat) (n : ι) (l : List ι) :
    (preorder kids k n l).Nodup := by
  induction k generalizing n l with
  | zero => exact List.nodup_nil
  | succ k ih =>
    have hends : ∀ {d z}, z ∈ (d :: l) :: preorder kids k d (d :: l) → ∃ x, z = x ++ d :: l := by
      intro d z hz
      rcases List.mem_cons.mp hz with rfl | hz
      · exact ⟨[], rfl⟩
      · obtain ⟨x, -, -, -, -, rfl⟩ := mem_preorder.mp hz
        exact ⟨x, rfl⟩
    rw [preorder, List.nodup_flatMap]
    refine ⟨fun d _ => List.nodup_cons.mpr ⟨fun hmem => ?_, ih d (d :: l)⟩, ?_⟩
    · obtain ⟨x, -, -, hne, -, he⟩ := mem_preorder.mp hmem
      exact hne (List.self_eq_append_left.mp he)
    · refine (hkids n).imp fun {d e} hde z hd he => ?_
      obtain ⟨x, rfl⟩ := hends hd
      obtain ⟨y, hy⟩ := hends he
      have htail := (List.append_inj' hy rfl).2
      exact hde (List.cons.inj htail).1

variable [DecidableEq ι]

/-- A node that is in no child array is hung below `p`. -/
theorem link (H : Forest kids par root) (hc : ∀ q, c ∉ kids q) (hpar : par c = some p)
    (hroot : c ≠ root) : Forest (Function.update kids p (kids p ++ [c])) par root where
  par_eq {q d} hd := by
    by_cases hq : q = p
    · subst hq
      rw [Function.update_self, List.mem_append, List.mem_singleton] at hd
      obtain hd | rfl := hd
      · exact H.par_eq hd
      · exact hpar
    · rw [Function.update_of_ne hq] at hd
      exact H.par_eq hd
  nodup q := by
    by_cases hq : q = p
    · subst hq
      rw [Function.update_self]
      exact (List.nodup_append_comm.mp (List.nodup_cons.mpr ⟨hc q, H.nodup q⟩))
    · rw [Function.update_of_ne hq]
      exact H.nodup q
  root_not_mem q := by
    by_cases hq : q = p
    · subst hq
      rw [Function.update_self, List.mem_append, List.mem_singleton]
      rintro (h | h)
      · exact H.root_not_mem q h
      · exact hroot h.symm
    · rw [Function.update_of_ne hq]
      exact H.root_not_mem q

theorem erase_sublist (kids : ι → List ι) (p c q : ι) :
    (Function.update kids p ((kids p).erase c) q).Sublist (kids q) := by
  by_cases hq : q = p
  · subst hq
    rw [Function.update_self]
    exact List.erase_sublist
  · rw [Function.update_of_ne hq]

/-! ## Cutting a node off with all that is below it -/

/-- The arrays at and below `c` are empty, and `c` is gone from the others. -/
structure Cut (kids kids' : ι → List ι) (c : ι) : Prop where
  gone : ∀ {m}, Below kids c m → kids' m = []
  kept : ∀ {m}, ¬ Below kids c m → kids' m = (kids m).filter (· ≠ c)

namespace Cut

variable {kids₁ kids' : ι → List ι} {r m : ι}

theorem sublist (C : Cut kids kids' c) (m : ι) : (kids' m).Sublist (kids m) := by
  by_cases hm : Below kids c m
  · rw [C.gone hm]
    exact List.nil_sublist _
  · rw [C.kept hm]
    exact List.filter_sublist

/-- What is left below a node that was not cut off. -/
theorem below (H : Forest kids par root) (C : Cut kids kids' c) (hr : ¬ Below kids c r) :
    Below kids' r m ↔ Below kids r m ∧ ¬ Below kids c m := by
  constructor
  · intro h
    induction h with
    | refl => exact ⟨.refl, hr⟩
    | @tail q d _ hd ih =>
      obtain ⟨hq, hcq⟩ := ih
      rw [C.kept hcq, List.mem_filter, decide_eq_true_eq] at hd
      refine ⟨hq.tail hd.1, fun hcd => ?_⟩
      obtain rfl | ⟨q', hq', hd'⟩ := Relation.ReflTransGen.cases_tail hcd
      · exact hd.2 rfl
      · exact hcq (H.eq_of_mem hd.1 hd' ▸ hq')
  · rintro ⟨h, hcm⟩
    induction h with
    | refl => exact .refl
    | @tail q d _ hd ih =>
      have hcq : ¬ Below kids c q := fun h => hcm (h.tail hd)
      refine (ih hcq).tail ?_
      rw [C.kept hcq, List.mem_filter, decide_eq_true_eq]
      exact ⟨hd, fun h => hcm (h ▸ .refl)⟩

/-- A child is cut off, and then the node itself. -/
theorem trans (H : Forest kids par root) (hc : c ∈ kids n) (hn : ¬ Below kids c n)
    (C : Cut kids kids₁ c) (C' : Cut kids₁ kids' n) : Cut kids kids' n where
  gone {m} hm := by
    by_cases hcm : Below kids c m
    · by_cases hm' : Below kids₁ n m
      · exact C'.gone hm'
      · rw [C'.kept hm', C.gone hcm]
        rfl
    · exact C'.gone ((C.below H hn).mpr ⟨hm, hcm⟩)
  kept {m} hm := by
    have hcm : ¬ Below kids c m := fun h => hm (Relation.ReflTransGen.head hc h)
    have hm' : ¬ Below kids₁ n m := fun h => hm ((C.below H hn).mp h).1
    have hnot : ∀ d ∈ kids m, decide (d ≠ c) = true := by
      intro d hd
      apply decide_eq_true
      rintro rfl
      exact hm (H.eq_of_mem hc hd ▸ .refl)
    rw [C'.kept hm', C.kept hcm, List.filter_eq_self.mpr hnot]

theorem filter_of_not_mem (h : c ∉ kids m) : (kids m).filter (· ≠ c) = kids m :=
  List.filter_eq_self.mpr fun _ hd => decide_eq_true fun he => h (he ▸ hd)

/-- A leaf is taken out of the array it is in. -/
theorem leaf (H : Forest kids par root) (hc : c ∈ kids p) (hleaf : kids c = []) :
    Cut kids (Function.update kids p ((kids p).erase c)) c where
  gone {m} hm := by
    obtain rfl := hm.eq_of_leaf hleaf
    have hmp : m ≠ p := by
      rintro rfl
      rw [hleaf] at hc
      cases hc
    rw [Function.update_of_ne hmp, hleaf]
  kept {m} _ := by
    by_cases hmp : m = p
    · subst hmp
      rw [Function.update_self, (H.nodup m).erase_eq_filter]
      refine List.filter_congr fun d _ => ?_
      by_cases hd : d = c <;> simp [hd]
    · rw [Function.update_of_ne hmp, filter_of_not_mem]
      exact fun h => hmp (H.eq_of_mem h hc)

/-- A leaf that is in no array. -/
theorem free (hc : ∀ q, c ∉ kids q) (hleaf : kids c = []) : Cut kids kids c where
  gone hm := hm.eq_of_leaf hleaf ▸ hleaf
  kept {m} _ := (filter_of_not_mem (hc m)).symm

end Cut

end Forest
