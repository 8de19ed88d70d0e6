import BojanOS.Vfs.Lookup

/-!
# Names down from the root

`Named s names n`: the names lead from `vfs_root` down to `n`, the last one first, and each of them
is one that `vfs_resolve` looks up. `vfs_update_pwd` collects these names, and the text it puts
together from them leads back to the node. From a directory that is so named, a path leads to such
nodes only.
-/

namespace BojanOS

/-- A component that `vfs_resolve` looks up as it is. -/
def Plain (x : List Char) : Prop := x ≠ ['.'] ∧ x ≠ ['.', '.'] ∧ x ≠ ['~'] ∧ '/' ∉ x

instance (x : List Char) : Decidable (Plain x) := inferInstanceAs (Decidable (_ ∧ _))

theorem not_mem_of_mem_splitOn {c : Char} {s x : List Char} (h : x ∈ s.splitOn c) : c ∉ x := by
  induction s generalizing x with
  | nil =>
    obtain rfl : x = [] := by simpa using h
    exact List.not_mem_nil
  | cons y s ih =>
    rw [List.splitOn_cons_eq_if_modifyHead] at h
    split at h
    · rcases List.mem_cons.mp h with rfl | h
      · exact List.not_mem_nil
      · exact ih h
    · rename_i hy
      rcases hs : s.splitOn c with _ | ⟨z, zs⟩
      · exact absurd hs (List.splitOn_ne_nil _ _)
      · rw [hs] at h ih
        rcases List.mem_cons.mp h with rfl | h
        · have hz := ih (List.mem_cons_self ..)
          rw [List.mem_cons, not_or]
          exact ⟨fun he => hy (by simp [he]), hz⟩
        · exact ih (List.mem_cons_of_mem _ h)

theorem not_mem_of_mem_components {path x : List Char} (h : x ∈ components path) : '/' ∉ x := by
  obtain ⟨y, hy, rfl⟩ := List.mem_map.mp h
  exact fun hs => not_mem_of_mem_splitOn (List.mem_of_mem_filter hy) (List.mem_of_mem_take hs)

theorem components_slash (s : List Char) : components ('/' :: s) = components s :=
  components_append [] s

/-- The names are read off the text again. -/
theorem components_pwdText {names : List (List Char)}
    (h : ∀ x ∈ names, x ≠ [] ∧ x.length < VFS_NAME_MAX ∧ '/' ∉ x) :
    components (Vfs.pwdText names) = names := by
  induction names with
  | nil => rfl
  | cons x xs ih =>
    have ih := ih fun y hy => h y (List.mem_cons_of_mem _ hy)
    obtain ⟨hne, hlen, hs⟩ := h x (List.mem_cons_self ..)
    have htext : Vfs.pwdText (x :: xs) = '/' :: (x ++ Vfs.pwdText xs) := by
      rw [Vfs.pwdText, List.flatMap_cons]
      rfl
    rw [htext, components_slash]
    cases xs with
    | nil => rw [Vfs.pwdText, List.flatMap_nil, List.append_nil, components_name hne hs hlen]
    | cons y ys =>
      have hrest : Vfs.pwdText (y :: ys) = '/' :: (y ++ Vfs.pwdText ys) := by
        rw [Vfs.pwdText, List.flatMap_cons]
        rfl
      rw [hrest, components_slash] at ih
      rw [hrest, components_append, components_name hne hs hlen, ih]
      rfl

namespace Vfs

variable {s s' : Vfs} {p c n : Nat} {names : List (List Char)} {path : List Char}

inductive Named (s : Vfs) : List (List Char) → Nat → Prop
  | root : Named s [] s.root
  | down {names : List (List Char)} {p c : Nat} :
    Named s names p → c ∈ s.kids p → Plain (s.nameOf c) → Named s (s.nameOf c :: names) c

/-- The names in a directory are different, so `child_of` finds each child. -/
theorem Wf.childOf_kid (W : Wf s) (h : c ∈ s.kids p) : s.childOf p (s.nameOf c) = some c := by
  have hd : (s.node p).type = .dir := by
    cases ht : (s.node p).type with
    | dir => rfl
    | file =>
      rw [W.file_leaf p ht] at h
      cases h
  cases hf : s.childOf p (s.nameOf c) with
  | none => exact absurd rfl (childOf_eq_none hd hf c h)
  | some d =>
    obtain ⟨-, hm, hn⟩ := childOf_eq_some hf
    rw [List.inj_on_of_nodup_map (W.names p) hm h hn]

theorem walkStep_plain {x : List Char} (h : Plain x) (n : Nat) :
    s.walkStep n x = s.childOf n x := by
  rw [walkStep, if_neg h.1, if_neg h.2.1, if_neg h.2.2.1]

namespace Named

theorem inTree (H : Named s names n) : s.InTree n := by
  induction H with
  | root => exact .refl
  | down _ hc _ ih => exact ih.tail hc

theorem eq_nil_iff (W : Wf s) (H : Named s names n) : names = [] ↔ n = s.root := by
  cases H with
  | root => exact iff_of_true rfl rfl
  | down _ hc _ =>
    refine iff_of_false (List.cons_ne_nil _ _) fun h => ?_
    exact W.forest.root_not_mem _ (h ▸ hc)

theorem walk (W : Wf s) (H : Named s names n) : s.walk s.root names.reverse = some n := by
  induction H with
  | root => rfl
  | @down names p c _ hc hx ih =>
    rw [List.reverse_cons, walk_append, ih, Option.bind_some, Vfs.walk, List.foldlM_cons,
      walkStep_plain hx, W.childOf_kid hc]
    rfl

theorem name_ok (W : Wf s) (H : Named s names n) :
    ∀ x ∈ names, x ≠ [] ∧ x.length < VFS_NAME_MAX ∧ '/' ∉ x := by
  induction H with
  | root => exact fun x hx => by cases hx
  | down _ hc hx ih =>
    rw [List.forall_mem_cons]
    obtain ⟨hne, hlen⟩ := W.name_ok hc
    exact ⟨⟨hne, hlen, hx.2.2.2⟩, ih⟩

/-- The text leads back to the node. -/
theorem vfsResolve (W : Wf s) (H : Named s names n) (hne : names ≠ []) :
    s.vfsResolve (pwdText names.reverse) = some n := by
  have hhead : (pwdText names.reverse).head? = some '/' := by
    cases hr : names.reverse with
    | nil => exact absurd (List.reverse_eq_nil_iff.mp hr) hne
    | cons x xs => rfl
  rw [Vfs.vfsResolve, if_pos hhead, components_pwdText, H.walk W]
  intro x hx
  exact H.name_ok W x (List.mem_reverse.mp hx)

/-- `vfs_update_pwd` goes up as far as it has room for names. -/
theorem climb (W : Wf s) (H : Named s names n) (k : Nat) : s.climb k n = names.take k := by
  induction H generalizing k with
  | root =>
    cases k with
    | zero => rfl
    | succ k => rw [Vfs.climb, if_pos rfl, List.take_nil]
  | @down names p c _ hc hx ih =>
    cases k with
    | zero => rfl
    | succ k =>
      have hr : c ≠ s.root := fun h => W.forest.root_not_mem p (h ▸ hc)
      have hp : (s.node c).parent = some p := W.forest.par_eq hc
      rw [Vfs.climb, if_neg hr, hp, List.take_succ_cons, ← ih k]
      rfl

/-- The working directory has no part in it. -/
theorem of_node (H : Named s names n) (hroot : s'.root = s.root) (hnode : s'.node = s.node) :
    Named s' names n := by
  induction H with
  | root => exact hroot ▸ .root
  | @down names p c _ hc hx ih =>
    have hname : s'.nameOf c = s.nameOf c := by rw [Vfs.nameOf, hnode, Vfs.nameOf]
    have hkids : s'.kids p = s.kids p := by rw [Vfs.kids, hnode, Vfs.kids]
    exact hname ▸ .down ih (hkids ▸ hc) (hname ▸ hx)

/-! ## Nodes that paths lead to -/

theorem walkStep (W : Wf s) (H : Named s names n) {x : List Char} (hx : '/' ∉ x)
    (h : s.walkStep n x = some c) : ∃ names, Named s names c := by
  rw [Vfs.walkStep] at h
  split_ifs at h with hdot hdots htilde
  · obtain rfl := Option.some.inj h
    exact ⟨names, H⟩
  · cases H with
    | root =>
      have hp : (s.node s.root).parent = some s.root := W.root_par
      rw [hp] at h
      obtain rfl := Option.some.inj h
      exact ⟨[], .root⟩
    | @down names p c' H hc _ =>
      have hp : (s.node n).parent = some p := W.forest.par_eq hc
      rw [hp] at h
      obtain rfl := Option.some.inj h
      exact ⟨names, H⟩
  · obtain ⟨-, hc, hn⟩ := childOf_eq_some h
    exact ⟨_, .down .root hc (hn ▸ by decide)⟩
  · obtain ⟨-, hc, rfl⟩ := childOf_eq_some h
    exact ⟨_, .down H hc ⟨hdot, hdots, htilde, hx⟩⟩

theorem of_walk (W : Wf s) (H : Named s names n) {xs : List (List Char)}
    (hxs : ∀ x ∈ xs, '/' ∉ x) (h : s.walk n xs = some c) : ∃ names, Named s names c := by
  induction xs generalizing n names with
  | nil =>
    obtain rfl : n = c := Option.some.inj h
    exact ⟨names, H⟩
  | cons x xs ih =>
    rw [Vfs.walk, List.foldlM_cons] at h
    obtain ⟨m, hm, h⟩ := Option.bind_eq_some_iff.mp h
    rw [List.forall_mem_cons] at hxs
    obtain ⟨names, H⟩ := H.walkStep W hxs.1 hm
    exact ih H hxs.2 h

/-- From a working directory that is named. -/
theorem of_resolve (W : Wf s) (H : Named s names s.cwd) (h : s.vfsResolve path = some n) :
    ∃ names, Named s names n := by
  have hslash : ∀ x ∈ components path, '/' ∉ x := fun x hx => not_mem_of_mem_components hx
  rw [Vfs.vfsResolve] at h
  split at h
  · exact Named.root.of_walk W hslash h
  · exact H.of_walk W hslash h

/-- An absolute path stays in the tree. -/
theorem inTree_of_absolute (W : Wf s) (hs : path.head? = some '/') (h : s.vfsResolve path = some n) :
    s.InTree n := by
  rw [Vfs.vfsResolve, if_pos hs] at h
  obtain ⟨names, H⟩ := Named.root.of_walk W (fun x hx => not_mem_of_mem_components hx) h
  exact H.inTree

end Named

/-! ## What keeps the names -/

/-- `s'` has all nodes and links of `s`, and the same working directory. -/
structure Extends (s s' : Vfs) : Prop where
  next : s.next ≤ s'.next
  root : s'.root = s.root
  cwd : s'.cwd = s.cwd
  pwd : s'.pwd = s.pwd
  type : ∀ m < s.next, (s'.node m).type = (s.node m).type
  par : ∀ m < s.next, s'.par m = s.par m
  nameOf : ∀ m < s.next, s'.nameOf m = s.nameOf m
  kids : ∀ p c, c ∈ s.kids p → c ∈ s'.kids p

theorem SameTree.extends (S : SameTree s s') : Extends s s' where
  next := S.next.ge
  root := S.root
  cwd := S.cwd
  pwd := S.pwd
  type m _ := S.type m
  par m _ := by rw [S.par]
  nameOf m _ := by rw [S.nameOf]
  kids p c hc := by rwa [S.kids]

/-- What is left leads where it led before. -/
theorem Pruned.extends (P : Pruned s s' n) : Extends s' s where
  next := P.next.le
  root := P.root.symm
  cwd := P.cwd.symm
  pwd := P.pwd.symm
  type m _ := (P.type m).symm
  par m _ := by rw [P.par]
  nameOf m _ := by rw [P.nameOf]
  kids m c hc := (P.sub m).subset hc

theorem Made.extends (W : Wf s) {t : FsType} {name : List Char} {b : Bool}
    (M : Made s s' p t name b) (hp : p < s.next) : Extends s s' where
  next := M.next ▸ Nat.le_succ _
  root := M.root
  cwd := M.cwd
  pwd := M.pwd
  type _ hm := M.type (Nat.ne_of_lt hm)
  par _ hm := M.par (Nat.ne_of_lt hm)
  nameOf _ hm := M.nameOf (Nat.ne_of_lt hm)
  kids q c hc := by
    rw [M.kids_eq (Nat.ne_of_lt hp) W.kids_next]
    rcases eq_or_ne q p with rfl | hq
    · rw [Function.update_self]
      exact List.mem_append_left _ hc
    · rwa [Function.update_of_ne hq]

/-- `vfs_mkfile` and `vfs_mkdir` take nothing away. -/
theorem Wf.mknode_extends (W : Wf s) {t : FsType} {b : Bool}
    (h : s.vfsMknode t path = some (b, s')) : Extends s s' := by
  rcases vfsMknode_cases h with ⟨-, rfl⟩ | ⟨p, name, hr, -, -, -, -, hcase⟩
  · exact SameTree.rfl'.extends
  rcases hcase with ⟨-, ram, -, rfl⟩ | ⟨n, s₁, hm, ha⟩
  · exact (SameTree.ram ram).extends
  · have hp := W.vfsResolveParent_lt hr
    exact (Vfs.made hp (W.cap p) hm ha).2.extends W hp

namespace Extends

theorem named (E : Extends s s') (W : Wf s) (H : Named s names n) : Named s' names n := by
  induction H with
  | root => exact E.root ▸ .root
  | @down names p c _ hc hx ih =>
    have hname := E.nameOf c (W.kid_lt hc)
    exact hname ▸ .down ih (E.kids p c hc) (hname ▸ hx)

theorem childOf (E : Extends s s') (W : Wf s) (W' : Wf s') {x : List Char}
    (h : s.childOf p x = some c) : s'.childOf p x = some c := by
  obtain ⟨-, hc, rfl⟩ := childOf_eq_some h
  rw [← E.nameOf c (W.kid_lt hc)]
  exact W'.childOf_kid (E.kids p c hc)

theorem walk (E : Extends s s') (W : Wf s) (W' : Wf s') {xs : List (List Char)} (hn : n < s.next)
    (h : s.walk n xs = some c) : s'.walk n xs = some c := by
  induction xs generalizing n with
  | nil => exact h
  | cons x xs ih =>
    rw [Vfs.walk, List.foldlM_cons] at h
    obtain ⟨m, hm, h⟩ := Option.bind_eq_some_iff.mp h
    have hstep : s'.walkStep n x = some m := by
      have hpar : (s'.node n).parent = (s.node n).parent := E.par n hn
      rw [walkStep] at hm ⊢
      rw [hpar, E.root]
      split_ifs at hm ⊢
      · exact hm
      · exact hm
      · exact E.childOf W W' hm
      · exact E.childOf W W' hm
    have hmn : m < s.next := by
      rcases walkStep_cases hm with rfl | hp | ⟨_, hk⟩
      · exact hn
      · exact W.par_lt_next hn hp
      · exact W.kid_lt hk
    rw [Vfs.walk, List.foldlM_cons, hstep]
    exact ih hmn h

/-- What a path led to, it still leads to. -/
theorem vfsResolve (E : Extends s s') (W : Wf s) (W' : Wf s') (h : s.vfsResolve path = some n) :
    s'.vfsResolve path = some n := by
  rw [Vfs.vfsResolve] at h ⊢
  rw [E.root, E.cwd]
  split at h
  · rename_i hs
    rw [if_pos hs]
    exact E.walk W W' W.root_lt h
  · rename_i hs
    rw [if_neg hs]
    exact E.walk W W' W.cwd_lt h

end Extends

namespace Named

/-- Removing what is not at or above the node. -/
theorem pruned {m : Nat} (P : Pruned s s' m) (H : Named s names n) (hm : ¬ Below s.kids m n) :
    Named s' names n := by
  induction H with
  | root => exact P.root ▸ .root
  | @down names p c _ hc hx ih =>
    have hne : c ≠ m := fun h => hm (h ▸ .refl)
    have hp : ¬ Below s.kids m p := fun h => hm (h.tail hc)
    have hname : s'.nameOf c = s.nameOf c := congrFun P.nameOf c
    exact hname ▸ .down (ih hp) (P.kept p c hc hne hp) (hname ▸ hx)

end Named

/-! ## At or above a node -/

/-- The node, its parent, and so on up to the root. -/
def upwards (s : Vfs) : Nat → Nat → List Nat
  | 0, _ => []
  | k + 1, n =>
    n :: if n = s.root then []
      else match (s.node n).parent with
        | none => []
        | some p => upwards s k p

theorem Wf.mem_upwards (W : Wf s) {k : Nat} (hk : n < k) (h : Below s.kids p n) :
    p ∈ s.upwards k n := by
  induction h generalizing k with
  | refl =>
    cases k with
    | zero => cases hk
    | succ k => exact List.mem_cons_self ..
  | @tail q n _ hc ih =>
    cases k with
    | zero => cases hk
    | succ k =>
      have hr : n ≠ s.root := fun h => W.forest.root_not_mem q (h ▸ hc)
      have hp : (s.node n).parent = some q := W.forest.par_eq hc
      obtain ⟨q', hq', hpar, -⟩ := W.par_lt n (W.kid_lt hc) hr
      obtain rfl : q = q' := Option.some.inj (hp.symm.trans hpar)
      rw [upwards, if_neg hr, hp]
      exact List.mem_cons_of_mem _ (ih (by omega))

end Vfs

end BojanOS
