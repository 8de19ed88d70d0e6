import BojanOS.Lib.PointerForest
import Mathlib.Data.List.Find
import Mathlib.Data.List.Infix

/-!
# Hierarchies as maps from paths

A path lists the names on the way down from the top, and a `PathMap` says what is at each path. The
nodes of a forest whose siblings have different names stand for such a map (`Forest.paths`). A leaf
that is hung below a node is one more entry (`paths_link`), and a node that is cut off takes along
the entries at and below its path (`paths_cut`); at a node that no path leads to, neither is seen.
-/

/-- What there can be at a path. -/
inductive PathMap.Item (δ : Type) where
  | dir
  | file (data : δ)

abbrev PathMap (ν δ : Type) := List ν → Option (PathMap.Item δ)

namespace PathMap

variable {ν δ : Type} [DecidableEq ν]

def put (m : PathMap ν δ) (p : List ν) (e : Item δ) : PathMap ν δ := Function.update m p (some e)

/-- Without what is at and below the path. -/
def cut (m : PathMap ν δ) (p : List ν) : PathMap ν δ := fun q => if p <+: q then none else m q

variable {m : PathMap ν δ} {p q : List ν} {e : Item δ}

@[simp] theorem put_self : m.put p e p = some e := Function.update_self ..

theorem put_of_ne (h : q ≠ p) : m.put p e q = m q := Function.update_of_ne h ..

theorem cut_under (h : p <+: q) : m.cut p q = none := if_pos h

theorem cut_beside (h : ¬ p <+: q) : m.cut p q = m q := if_neg h

end PathMap

namespace Forest

open PathMap

variable {ι ν δ : Type} [DecidableEq ν] {kids kids' : ι → List ι} {name name' : ι → ν}
variable {par : ι → Option ι} {root r n m c d : ι} {x : ν} {p q : List ν}

/-! ## Nodes by their paths -/

/-- The first child of that name. -/
def child (kids : ι → List ι) (name : ι → ν) (n : ι) (x : ν) : Option ι :=
  (kids n).find? fun c => name c = x

/-- The node at the end of a path. -/
def find (kids : ι → List ι) (name : ι → ν) (r : ι) (p : List ν) : Option ι :=
  p.foldlM (child kids name) r

/-- Siblings have different names. -/
def DistinctNames (kids : ι → List ι) (name : ι → ν) : Prop := ∀ n, ((kids n).map name).Nodup

theorem mem_of_child (h : child kids name n x = some c) : c ∈ kids n := List.mem_of_find?_eq_some h

theorem name_of_child (h : child kids name n x = some c) : name c = x := by
  have hc := List.find?_some h
  exact of_decide_eq_true hc

theorem child_eq_some (hd : DistinctNames kids name) :
    child kids name n x = some c ↔ c ∈ kids n ∧ name c = x := by
  refine ⟨fun h => ⟨mem_of_child h, name_of_child h⟩, ?_⟩
  rintro ⟨hc, rfl⟩
  cases hf : child kids name n (name c) with
  | none => exact absurd (decide_eq_true rfl) (List.find?_eq_none.mp hf c hc)
  | some e => rw [List.inj_on_of_nodup_map (hd n) (mem_of_child hf) hc (name_of_child hf)]

theorem find_append (p q : List ν) :
    find kids name r (p ++ q) = (find kids name r p).bind fun n => find kids name n q :=
  List.foldlM_append ..

theorem find_snoc : find kids name r (p ++ [x]) = some c ↔
    ∃ n, find kids name r p = some n ∧ child kids name n x = some c := by
  rw [find_append, Option.bind_eq_some_iff]
  refine exists_congr fun n => and_congr_right fun _ => ?_
  rw [find, List.foldlM_cons]
  cases child kids name n x with
  | none => rfl
  | some d => rfl

theorem below_of_find (h : find kids name r p = some n) : Below kids r n := by
  induction p using List.reverseRecOn generalizing n with
  | nil =>
    obtain rfl := Option.some.inj h
    exact .refl
  | append_singleton p x ih =>
    obtain ⟨d, hd, hc⟩ := find_snoc.mp h
    exact (ih hd).tail (mem_of_child hc)

theorem exists_find (hd : DistinctNames kids name) (h : Below kids r n) :
    ∃ p, find kids name r p = some n := by
  induction h with
  | refl => exact ⟨[], rfl⟩
  | @tail d c _ hc ih =>
    obtain ⟨p, hp⟩ := ih
    exact ⟨p ++ [name c], find_snoc.mpr ⟨d, hp, (child_eq_some hd).mpr ⟨hc, rfl⟩⟩⟩

/-- One path leads to a node. -/
theorem find_inj (H : Forest kids par root) (hp : find kids name root p = some n)
    (hq : find kids name root q = some n) : p = q := by
  have hroot : ∀ {p x}, find kids name root (p ++ [x]) ≠ some root := fun h => by
    obtain ⟨d, -, hc⟩ := find_snoc.mp h
    exact H.root_not_mem d (mem_of_child hc)
  induction p using List.reverseRecOn generalizing n q with
  | nil =>
    obtain rfl := Option.some.inj hp
    cases q using List.reverseRecOn with
    | nil => rfl
    | append_singleton q y => exact absurd hq hroot
  | append_singleton p x ih =>
    cases q using List.reverseRecOn with
    | nil =>
      obtain rfl := Option.some.inj hq
      exact absurd hp hroot
    | append_singleton q y =>
      obtain ⟨d, hd, hc⟩ := find_snoc.mp hp
      obtain ⟨e, he, hc'⟩ := find_snoc.mp hq
      obtain rfl := H.eq_of_mem (mem_of_child hc) (mem_of_child hc')
      rw [ih hd he, ← name_of_child hc, name_of_child hc']

/-- Below a node are the nodes whose paths continue its path. -/
theorem below_iff (H : Forest kids par root) (hd : DistinctNames kids name)
    (hp : find kids name root p = some n) (hq : find kids name root q = some m) :
    Below kids n m ↔ p <+: q := by
  constructor
  · intro h
    obtain ⟨t, ht⟩ := exists_find hd h
    have hpt : find kids name root (p ++ t) = some m := by
      rw [find_append, hp]
      exact ht
    exact ⟨t, find_inj H hpt hq⟩
  · rintro ⟨t, rfl⟩
    rw [find_append, hp] at hq
    exact below_of_find hq

/-- What is at or above a node of the tree is in the tree, too. -/
theorem below_of_below (H : Forest kids par root) (hm : Below kids root m) (hcm : Below kids c m) :
    Below kids root c := by
  induction hcm with
  | refl => exact hm
  | @tail d m _ hd ih =>
    obtain rfl | ⟨e, he, hm⟩ := Relation.ReflTransGen.cases_tail hm
    · exact absurd hd (H.root_not_mem d)
    · exact ih (H.eq_of_mem hd hm ▸ he)

/-! ## Changes -/

/-- Other names outside the arrays are not looked at. -/
theorem find_congr (hname : ∀ d m, m ∈ kids d → name' m = name m) :
    find kids name' r q = find kids name r q := by
  have hchild : child kids name' = child kids name := by
    funext d x
    exact List.find?_congr fun m hm => by rw [hname d m hm]
  rw [find, find, hchild]

/-- `c` is hung below `n`, and that is all. -/
structure Linked (kids kids' : ι → List ι) (name name' : ι → ν) (n c : ι) : Prop where
  mem : ∀ d m, m ∈ kids' d ↔ m ∈ kids d ∨ d = n ∧ m = c
  name_old : ∀ d m, m ∈ kids d → name' m = name m
  free : ∀ d, c ∉ kids d
  leaf : kids c = []
  ne : c ≠ n

theorem find_link (L : Linked kids kids' name name' n c) (hr : c ≠ r)
    (hd : DistinctNames kids name) (hd' : DistinctNames kids' name') :
    find kids' name' r q = some m ↔ find kids name r q = some m ∨
      m = c ∧ ∃ p, q = p ++ [name' c] ∧ find kids name r p = some n := by
  induction q using List.reverseRecOn generalizing m with
  | nil =>
    refine ⟨.inl, fun h => h.resolve_right ?_⟩
    rintro ⟨-, p, hp, -⟩
    exact absurd hp (by simp)
  | append_singleton q x ih =>
    rw [find_snoc, find_snoc]
    simp only [child_eq_some hd, child_eq_some hd', L.mem, ih]
    constructor
    · rintro ⟨d, hfind, hm, rfl⟩
      rcases hfind with hfind | ⟨rfl, -⟩
      · rcases hm with hm | ⟨rfl, rfl⟩
        · exact .inl ⟨d, hfind, hm, (L.name_old d m hm).symm⟩
        · exact .inr ⟨rfl, q, rfl, hfind⟩
      · rcases hm with hm | ⟨rfl, -⟩
        · rw [L.leaf] at hm
          cases hm
        · exact absurd rfl L.ne
    · rintro (⟨d, hfind, hm, rfl⟩ | ⟨rfl, p, hq, hfind⟩)
      · exact ⟨d, .inl hfind, .inl hm, L.name_old d m hm⟩
      · obtain ⟨rfl, hx⟩ := List.append_inj' hq rfl
        obtain rfl : x = name' m := List.singleton_inj.mp hx
        exact ⟨n, .inl hfind, .inr ⟨rfl, rfl⟩, rfl⟩

/-- The leaf was not in the tree. -/
theorem Linked.ne_of_find (L : Linked kids kids' name name' n c) (hr : c ≠ r)
    (h : find kids name r q = some m) : m ≠ c := by
  rintro rfl
  obtain he | ⟨d, -, hc⟩ := Relation.ReflTransGen.cases_tail (below_of_find h)
  · exact hr he
  · exact L.free d hc

theorem find_cut [DecidableEq ι] (H : Forest kids par root) (C : Cut kids kids' c)
    (hr : ¬ Below kids c r) (hd : DistinctNames kids name) (hd' : DistinctNames kids' name) :
    find kids' name r q = some m ↔ find kids name r q = some m ∧ ¬ Below kids c m := by
  induction q using List.reverseRecOn generalizing m with
  | nil =>
    refine ⟨fun h => ⟨h, ?_⟩, And.left⟩
    obtain rfl := Option.some.inj h
    exact hr
  | append_singleton q x ih =>
    rw [find_snoc, find_snoc]
    simp only [child_eq_some hd, child_eq_some hd', ih]
    constructor
    · rintro ⟨d, ⟨hfind, hcd⟩, hm, hx⟩
      rw [C.kept hcd, List.mem_filter, decide_eq_true_eq] at hm
      refine ⟨⟨d, hfind, hm.1, hx⟩, fun hcm => ?_⟩
      obtain rfl | ⟨e, he, hme⟩ := Relation.ReflTransGen.cases_tail hcm
      · exact hm.2 rfl
      · exact hcd (H.eq_of_mem hm.1 hme ▸ he)
    · rintro ⟨⟨d, hfind, hm, hx⟩, hcm⟩
      have hcd : ¬ Below kids c d := fun h => hcm (h.tail hm)
      refine ⟨d, ⟨hfind, hcd⟩, ?_, hx⟩
      rw [C.kept hcd, List.mem_filter, decide_eq_true_eq]
      exact ⟨hm, fun h => hcm (h ▸ .refl)⟩

/-! ## The map of a forest -/

variable {item item' : ι → Item δ}

def paths (kids : ι → List ι) (name : ι → ν) (root : ι) (item : ι → Item δ) : PathMap ν δ :=
  fun p => (find kids name root p).map item

theorem paths_eq (h : find kids name root p = some n) :
    paths kids name root item p = some (item n) := congrArg (Option.map item) h

/-- A new leaf is one more entry. -/
theorem paths_link (H : Forest kids par root) (L : Linked kids kids' name name' n c)
    (hr : c ≠ root) (hd : DistinctNames kids name) (hd' : DistinctNames kids' name')
    (hitem : ∀ d, d ≠ c → item' d = item d) (hp : find kids name root p = some n) :
    paths kids' name' root item' = put (paths kids name root item) (p ++ [name' c]) (item' c) := by
  have hnew : find kids' name' root (p ++ [name' c]) = some c :=
    (find_link L hr hd hd').mpr (.inr ⟨rfl, p, rfl, hp⟩)
  funext q
  rcases eq_or_ne q (p ++ [name' c]) with rfl | hq
  · rw [put_self, paths_eq hnew]
  · rw [put_of_ne hq]
    have hfind : find kids' name' root q = find kids name root q := by
      refine Option.ext fun m => (find_link L hr hd hd').trans (or_iff_left ?_)
      rintro ⟨-, p', rfl, hp'⟩
      exact hq (by rw [find_inj H hp' hp])
    rw [paths, paths, hfind]
    exact Option.map_congr fun m hm => hitem m (L.ne_of_find hr hm)

/-- A node that no path leads to may get children. -/
theorem paths_link_outside (L : Linked kids kids' name name' n c) (hr : c ≠ root)
    (hd : DistinctNames kids name) (hd' : DistinctNames kids' name')
    (hitem : ∀ d, d ≠ c → item' d = item d) (hp : ∀ p, find kids name root p ≠ some n) :
    paths kids' name' root item' = paths kids name root item := by
  funext q
  have hfind : find kids' name' root q = find kids name root q := by
    refine Option.ext fun m => (find_link L hr hd hd').trans (or_iff_left ?_)
    rintro ⟨-, p, -, h⟩
    exact hp p h
  rw [paths, paths, hfind]
  exact Option.map_congr fun m hm => hitem m (L.ne_of_find hr hm)

theorem not_below_root (H : Forest kids par root) (hc : c ≠ root) : ¬ Below kids c root := by
  intro h
  obtain he | ⟨d, -, hd⟩ := Relation.ReflTransGen.cases_tail h
  · exact hc he.symm
  · exact H.root_not_mem d hd

/-- What is below the path goes with it. -/
theorem paths_cut [DecidableEq ι] (H : Forest kids par root) (C : Cut kids kids' c) (hc : c ≠ root)
    (hd : DistinctNames kids name) (hd' : DistinctNames kids' name)
    (hp : find kids name root p = some c) :
    paths kids' name root item = cut (paths kids name root item) p := by
  have hfind := fun {q m} => find_cut (q := q) (m := m) H C (H.not_below_root hc) hd hd'
  funext q
  by_cases hpq : p <+: q
  · rw [cut_under hpq, paths, Option.map_eq_none_iff, Option.eq_none_iff_forall_ne_some]
    intro m hm
    obtain ⟨hm, hcm⟩ := hfind.mp hm
    exact hcm ((below_iff H hd hp hm).mpr hpq)
  · rw [cut_beside hpq, paths, paths]
    refine congrArg _ (Option.ext fun m => hfind.trans (and_iff_left_of_imp fun hm hcm => hpq ?_))
    exact (below_iff H hd hp hm).mp hcm

theorem paths_cut_outside [DecidableEq ι] (H : Forest kids par root) (C : Cut kids kids' c)
    (hd : DistinctNames kids name) (hd' : DistinctNames kids' name)
    (hp : ∀ p, find kids name root p ≠ some c) :
    paths kids' name root item = paths kids name root item := by
  have hc : c ≠ root := fun h => hp [] (congrArg some h.symm)
  funext q
  rw [paths, paths]
  refine congrArg _ (Option.ext fun m => (find_cut H C (H.not_below_root hc) hd hd').trans
    (and_iff_left_of_imp fun hm hcm => ?_))
  obtain ⟨p, hp'⟩ := exists_find hd (below_of_below H (below_of_find hm) hcm)
  exact hp p hp'

/-- Another item at a node. -/
theorem paths_store (H : Forest kids par root) (hitem : ∀ d, d ≠ n → item' d = item d)
    (hp : find kids name root p = some n) :
    paths kids name root item' = put (paths kids name root item) p (item' n) := by
  funext q
  rcases eq_or_ne q p with rfl | hq
  · rw [put_self, paths_eq hp]
  · rw [put_of_ne hq, paths, paths]
    refine Option.map_congr fun m hm => hitem m ?_
    rintro rfl
    exact hq (find_inj H hm hp)

theorem paths_store_outside (hitem : ∀ d, d ≠ n → item' d = item d)
    (hp : ∀ p, find kids name root p ≠ some n) :
    paths kids name root item' = paths kids name root item := by
  funext q
  refine Option.map_congr fun m hm => hitem m ?_
  rintro rfl
  exact hp q hm

end Forest
