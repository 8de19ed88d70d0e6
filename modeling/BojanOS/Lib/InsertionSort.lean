import BojanOS.Lib.Loop
import Mathlib.Data.List.Induction
import Mathlib.Data.List.Sort

/-!
# Insertion sort on an array

The array is sorted in place from the left: each element is held back while the greater ones in
front of it move up by one (`shiftLoop`). The comparison `less` may be undefined on some pairs. One
pass is an insertion into the front of the array read backwards (`pass_eq`), so the loop is
`List.insertionSort` if `less` is total (`sort_total`), and it is defined as far as `less` is
defined on the elements (`sort_isSome`).
-/

namespace InsertionSort

variable {α : Type} {less : α → α → Option Bool}

/-- `while (j >= 0) if (less(key, a[j])) { a[j + 1] = a[j]; j--; } else break;` and then
`a[j + 1] = key;`, the argument being `j + 1`. -/
def shiftLoop (less : α → α → Option Bool) (key : α) : Nat → List α → Option (List α)
  | 0, a => some (a.set 0 key)
  | j + 1, a => do
    let x ← a[j]?
    if ← less key x then shiftLoop less key j (a.set (j + 1) x)
    else some (a.set (j + 1) key)

/-- The round of the element at `i`. -/
def pass (less : α → α → Option Bool) (i : Nat) (a : List α) : Option (List α) := do
  let key ← a[i]?
  shiftLoop less key i a

/-- `for (i = 1; i < n; i++)` -/
def sort (less : α → α → Option Bool) (a : List α) : Option (List α) :=
  Loop.upTo (fun i => pass less (i + 1)) (a.length - 1) a

/-- The insertion behind the elements that are greater, in a list whose greatest one is in front. -/
def insertBack (less : α → α → Option Bool) (key : α) : List α → Option (List α)
  | [] => some [key]
  | x :: q => do
    if ← less key x then (insertBack less key q).map (x :: ·)
    else some (key :: x :: q)

theorem shiftLoop_eq (key y : α) (p rest : List α) :
    shiftLoop less key p.length (p ++ y :: rest) =
      (insertBack less key p.reverse).map fun q => q.reverse ++ rest := by
  induction p using List.reverseRecOn generalizing y rest with
  | nil => simp [shiftLoop, insertBack]
  | append_singleton p x ih =>
    have hx : (p ++ [x] ++ y :: rest)[p.length]? = some x := by simp
    have hset : ∀ z, (p ++ [x] ++ y :: rest).set (p.length + 1) z = p ++ x :: z :: rest := by
      intro z
      rw [List.append_assoc, List.set_append_right _ _ (by omega)]
      simp
    rw [List.length_append, List.length_singleton, shiftLoop, hx, List.reverse_append]
    simp only [Option.bind_eq_bind, Option.bind_some, List.reverse_singleton,
      List.singleton_append, insertBack, hset]
    cases less key x with
    | none => rfl
    | some b =>
      cases b with
      | false => simp
      | true =>
        -- the place of `x` is the free one now
        simp only [Option.bind_some, if_true, ih, Option.map_map]
        congr 1
        funext q
        simp

theorem pass_eq (less : α → α → Option Bool) (y : α) (p rest : List α) : pass less p.length (p ++ y :: rest) =
    (insertBack less y p.reverse).map fun q => q.reverse ++ rest := by
  have hy : (p ++ y :: rest)[p.length]? = some y := by simp
  rw [pass, hy]
  exact shiftLoop_eq y y p rest

/-! ## Total comparisons -/

section total

variable {lt : α → α → Bool}

theorem insertBack_total (key : α) (q : List α) :
    insertBack (fun a b => some (lt a b)) key q =
      some (q.orderedInsert (fun a b => lt a b = false) key) := by
  induction q with
  | nil => rfl
  | cons x q ih =>
    rw [insertBack, List.orderedInsert_cons]
    simp only [Option.bind_eq_bind, Option.bind_some]
    cases lt key x with
    | false => rfl
    | true => simp [ih]

theorem sort_total (a : List α) : sort (fun a b => some (lt a b)) a =
    some (a.reverse.insertionSort fun a b => lt a b = false).reverse := by
  -- what the array is in front of the round of the element at `i + 1`
  let g (i : Nat) := ((a.take (i + 1)).reverse.insertionSort fun a b => lt a b = false).reverse ++
    a.drop (i + 1)
  have hround : ∀ i < a.length - 1, pass (fun a b => some (lt a b)) (i + 1) (g i) =
      some (g (i + 1)) := by
    intro i hi
    have hi' : i + 1 < a.length := by omega
    let q := ((a.take (i + 1)).reverse.insertionSort fun a b => lt a b = false).reverse
    have hq : q.length = i + 1 := by
      simp only [q, List.length_reverse, List.length_insertionSort, List.length_take]
      omega
    have hg : g i = q ++ a[i + 1] :: a.drop (i + 2) := by
      rw [← List.drop_eq_getElem_cons hi']
    have htake : (a.take (i + 2)).reverse = a[i + 1] :: (a.take (i + 1)).reverse := by
      rw [List.take_add_one, List.getElem?_eq_getElem hi']
      simp
    have hpass := pass_eq (fun a b => some (lt a b)) a[i + 1] q (a.drop (i + 2))
    rw [hq] at hpass
    rw [hg, hpass, insertBack_total, Option.map_some]
    simp only [q, g, List.reverse_reverse]
    rw [htake, List.insertionSort_cons]
  cases a with
  | nil => rfl
  | cons x a =>
    have hstart : g 0 = x :: a := by simp [g]
    have hrun := Loop.upTo_eq hround
    rw [hstart] at hrun
    rw [sort, hrun]
    simp [g]

/-- The result is the array in the order of `lt`, if that is one. -/
theorem sort_sorted (lt : α → α → Bool) [Std.Total fun a b => lt a b = false]
    [IsTrans α fun a b => lt a b = false] (a : List α) : ∃ b, sort (fun a b => some (lt a b)) a = some b ∧ b.Perm a ∧
      b.Pairwise fun x y => lt y x = false := by
  refine ⟨_, sort_total a, ?_, ?_⟩
  · exact (List.reverse_perm _).trans ((List.perm_insertionSort _ _).trans (List.reverse_perm a))
  · apply List.pairwise_reverse.mpr
    exact List.pairwise_insertionSort _ _

end total

/-! ## Partial comparisons -/

section partiality

variable {P : α → Prop}

theorem insertBack_perm {key : α} {q q' : List α} (h : insertBack less key q = some q') :
    q'.Perm (key :: q) := by
  induction q generalizing q' with
  | nil =>
    obtain rfl := Option.some.inj h
    exact .refl _
  | cons x q ih =>
    obtain ⟨b, -, h⟩ := Option.bind_eq_some_iff.mp h
    cases b with
    | false =>
      obtain rfl := Option.some.inj h
      exact .refl _
    | true =>
      obtain ⟨q₁, h₁, rfl⟩ := Option.map_eq_some_iff.mp h
      exact ((ih h₁).cons x).trans (.swap key x q)

theorem insertBack_isSome (hless : ∀ a b, (less a b).isSome ↔ P a ∧ P b) {key : α} {q : List α}
    (hq : q.length ≤ 1 ∨ ∀ x ∈ q, P x) :
    (insertBack less key q).isSome ↔ q = [] ∨ P key ∧ ∀ x ∈ q, P x := by
  induction q with
  | nil => simp [insertBack]
  | cons x q ih =>
    have hq' : ∀ x ∈ q, P x := by
      intro y hy
      rcases hq with hq | hq
      · obtain rfl : q = [] := List.eq_nil_of_length_eq_zero (by simpa using hq)
        cases hy
      · exact hq y (List.mem_cons_of_mem x hy)
    have hx := hless key x
    rw [insertBack]
    cases hb : less key x with
    | none =>
      rw [hb] at hx
      refine iff_of_false (by simp) fun h => ?_
      rcases h with h | ⟨hk, hall⟩
      · cases h
      · have := hx.mpr ⟨hk, hall x List.mem_cons_self⟩
        cases this
    | some b =>
      rw [hb] at hx
      obtain ⟨hk, hPx⟩ := hx.mp rfl
      have hall : ∀ y ∈ x :: q, P y := by
        intro y hy
        rcases List.mem_cons.mp hy with rfl | hy
        · exact hPx
        · exact hq' y hy
      refine iff_of_true ?_ (.inr ⟨hk, hall⟩)
      cases b with
      | false => rfl
      | true =>
        have := (ih (.inr hq')).mpr (.inr ⟨hk, hq'⟩)
        simpa using this

/-- In front of the round of the element at `n + 1`, the elements up to `n` are in some order, and
every one of them has been compared. -/
theorem upTo_pass (hless : ∀ a b, (less a b).isSome ↔ P a ∧ P b) {a : List α} {n : Nat}
    (hn : n < a.length) :
    ((Loop.upTo (fun i => pass less (i + 1)) n a).isSome ↔ n = 0 ∨ ∀ x ∈ a.take (n + 1), P x) ∧
    ∀ b, Loop.upTo (fun i => pass less (i + 1)) n a = some b →
      ∃ q, b = q ++ a.drop (n + 1) ∧ q.Perm (a.take (n + 1)) := by
  induction n with
  | zero =>
    refine ⟨by simp [Loop.upTo], fun b hb => ?_⟩
    obtain rfl := Option.some.inj hb
    exact ⟨a.take 1, (List.take_append_drop _ _).symm, .refl _⟩
  | succ n ih =>
    obtain ⟨hsome, hshape⟩ := ih (by omega)
    have htake : a.take (n + 2) = a.take (n + 1) ++ [a[n + 1]] := by
      rw [List.take_add_one, List.getElem?_eq_getElem hn]
      rfl
    rw [Loop.upTo]
    cases hb : Loop.upTo (fun i => pass less (i + 1)) n a with
    | none =>
      rw [hb] at hsome
      refine ⟨iff_of_false (by simp) fun h => ?_, fun b h => by cases h⟩
      have hall : ∀ x ∈ a.take (n + 1), P x := by
        intro x hx
        refine (h.resolve_left (by omega)) x ?_
        rw [htake]
        exact List.mem_append_left _ hx
      exact absurd (hsome.mpr (.inr hall)) (by simp)
    | some b =>
      obtain ⟨q, rfl, hq⟩ := hshape b hb
      rw [hb] at hsome
      have hlen : q.length = n + 1 := by
        rw [hq.length_eq, List.length_take]
        omega
      have hpass := pass_eq less a[n + 1] q (a.drop (n + 2))
      rw [hlen] at hpass
      have hbefore : q.reverse.length ≤ 1 ∨ ∀ x ∈ q.reverse, P x := by
        rcases hsome.mp rfl with rfl | hall
        · exact .inl (by simp [hlen])
        · exact .inr fun x hx => hall x (hq.mem_iff.mp (List.mem_reverse.mp hx))
      have hne : q.reverse ≠ [] := by
        intro h
        rw [List.reverse_eq_nil_iff.mp h] at hlen
        cases hlen
      rw [Option.bind_some, List.drop_eq_getElem_cons hn, hpass]
      constructor
      · rw [Option.isSome_map, insertBack_isSome hless hbefore, or_iff_right hne,
          or_iff_right (Nat.succ_ne_zero n), htake]
        constructor
        · intro h x hx
          rcases List.mem_append.mp hx with hx | hx
          · exact h.2 x (List.mem_reverse.mpr (hq.mem_iff.mpr hx))
          · exact List.mem_singleton.mp hx ▸ h.1
        · intro h
          refine ⟨h _ (List.mem_append_right _ (List.mem_singleton.mpr rfl)), fun x hx => h x ?_⟩
          exact List.mem_append_left _ (hq.mem_iff.mp (List.mem_reverse.mp hx))
      · intro b h
        obtain ⟨q', hq', rfl⟩ := Option.map_eq_some_iff.mp h
        refine ⟨q'.reverse, rfl, ?_⟩
        calc q'.reverse.Perm q' := List.reverse_perm q'
          _ |>.Perm (a[n + 1] :: q.reverse) := insertBack_perm hq'
          _ |>.Perm (a[n + 1] :: a.take (n + 1)) := ((List.reverse_perm q).trans hq).cons _
          _ |>.Perm (a.take (n + 2)) := by
            rw [htake]
            exact (List.perm_append_singleton _ _).symm

theorem sort_isSome (hless : ∀ a b, (less a b).isSome ↔ P a ∧ P b) (a : List α) :
    (sort less a).isSome ↔ a.length < 2 ∨ ∀ x ∈ a, P x := by
  rw [sort]
  cases a with
  | nil => simp [Loop.upTo]
  | cons x a =>
    have hn : (x :: a).length - 1 < (x :: a).length := by simp
    rw [(upTo_pass hless hn).1, List.take_of_length_le (by simp)]
    apply or_congr_left
    rw [List.length_cons, Nat.add_one_sub_one]
    omega

end partiality

/-! ## Comparison functions -/

/-- `cmp` is negative, zero or positive, as the C library's sorting functions want it. -/
structure Comparator (cmp : α → α → Int) : Prop where
  swap : ∀ a b, cmp b a = -cmp a b
  trans : ∀ {a b c}, cmp a b ≤ 0 → cmp b c ≤ 0 → cmp a c ≤ 0

namespace Comparator

variable {cmp : α → α → Int}

theorem self (C : Comparator cmp) (a : α) : cmp a a = 0 := by
  have := C.swap a a
  omega

/-- The other way round. -/
theorem neg (C : Comparator cmp) : Comparator fun a b => -cmp a b where
  swap a b := congrArg _ (C.swap a b)
  trans {a b c} hab hbc := by
    have hba : cmp b a ≤ 0 := by rw [C.swap]; exact hab
    have hcb : cmp c b ≤ 0 := by rw [C.swap]; exact hbc
    have hca : cmp c a ≤ 0 := C.trans hcb hba
    rwa [C.swap] at hca

/-- By a value first. -/
theorem byValue (C : Comparator cmp) (v : α → Int) :
    Comparator fun a b => if v a < v b then -1 else if v b < v a then 1 else cmp a b where
  swap a b := by
    have := C.swap a b
    split_ifs <;> omega
  trans {a b c} hab hbc := by
    have := @C.trans a b c
    split_ifs at * <;> omega

theorem isLinearOrder (C : Comparator cmp) {p : α → Prop}
    (h : ∀ {a b}, p a → p b → cmp a b = 0 → a = b) :
    IsLinearOrder {a // p a} fun a b => cmp a b ≤ 0 where
  refl a := (C.self a).le
  trans _ _ _ hab hbc := C.trans hab hbc
  antisymm a b hab hba := by
    have hz : cmp a b = 0 := by
      rw [C.swap] at hba
      omega
    exact Subtype.ext (h a.2 b.2 hz)
  total a b := by
    rw [C.swap a.1 b.1]
    omega

theorem sorted (C : Comparator cmp) (a : List α) :
    ∃ b, sort (fun x y => some (decide (cmp x y < 0))) a = some b ∧ b.Perm a ∧
      b.Pairwise fun x y => cmp x y ≤ 0 := by
  have hle : ∀ x y, decide (cmp x y < 0) = false ↔ cmp y x ≤ 0 := by
    intro x y
    have := C.swap x y
    rw [decide_eq_false_iff_not]
    omega
  have : Std.Total fun x y => decide (cmp x y < 0) = false := by
    refine ⟨fun x y => ?_⟩
    have := C.swap x y
    rw [hle, hle]
    omega
  have : IsTrans α fun x y => decide (cmp x y < 0) = false := by
    refine ⟨fun x y z hxy hyz => ?_⟩
    rw [hle] at *
    exact C.trans hyz hxy
  obtain ⟨b, hb, hperm, hsorted⟩ := sort_sorted (fun x y => decide (cmp x y < 0)) a
  exact ⟨b, hb, hperm, hsorted.imp fun h => (hle _ _).mp h⟩

end Comparator

end InsertionSort
