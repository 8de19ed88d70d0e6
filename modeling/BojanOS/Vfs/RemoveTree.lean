import BojanOS.Vfs.Appends

/-!
# What is gone after a removal (`vfs_rm`, `vfs_rm_recursive`)

`vfs_rm_recursive_node` cuts off the last child until there is none, and then the node itself. Each
call on a child succeeds, since a child is in the array of its parent, so the whole call cuts off
the node with all that is below it (`Forest.Cut`); it answers 1 exactly when the node is in an array.
-/

namespace BojanOS.Vfs

variable {s s' s₁ : Vfs} {p c n m : Nat} {b : Bool} {k : Nat}

theorem Wf.le_of_below (W : Wf s) (h : Below s.kids n m) : n ≤ m := by
  induction h with
  | refl => exact Nat.le_refl n
  | tail _ hc ih => exact ih.trans (Nat.le_of_lt (W.kid_gt hc))

theorem Wf.not_below (W : Wf s) (hc : c ∈ s.kids n) : ¬ Below s.kids c n := fun h =>
  Nat.not_le.mpr (W.kid_gt hc) (W.le_of_below h)

theorem Wf.kid_ne_root (W : Wf s) (hc : c ∈ s.kids n) : c ≠ s.root := fun h =>
  W.forest.root_not_mem n (h ▸ hc)

/-- The node is in the array of some directory. -/
def Linked (s : Vfs) (n : Nat) : Prop := ∃ p, n ∈ s.kids p

theorem vfsUnlinkNode_cut (W : Wf s) (hr : n ≠ s.root) (hleaf : s.kids n = [])
    (h : s.vfsUnlinkNode n = (b, s')) : (b = true ↔ s.Linked n) ∧ Forest.Cut s.kids s'.kids n := by
  rcases vfsUnlinkNode_cases s n with ⟨hu, hno⟩ | ⟨p, -, hmem, -, hu⟩
  · obtain ⟨rfl, rfl⟩ := Prod.mk.inj (hu.symm.trans h)
    have hfree : ∀ q, n ∉ s.kids q := fun q hq =>
      hno.resolve_left hr q (W.forest.par_eq hq) hq
    exact ⟨⟨fun h => (by cases h), fun ⟨q, hq⟩ => absurd hq (hfree q)⟩, .free hfree hleaf⟩
  · obtain ⟨rfl, rfl⟩ := Prod.mk.inj (hu.symm.trans h)
    refine ⟨iff_of_true rfl ⟨p, hmem⟩, ?_⟩
    rw [kids_unlink]
    exact .leaf W.forest hmem hleaf

/-- A call cuts off the node with all that is below it. -/
theorem vfsRmRecursiveNode_cut (W : Wf s) (hr : n ≠ s.root)
    (h : vfsRmRecursiveNode k s n = some (b, s')) :
    (b = true ↔ s.Linked n) ∧ Forest.Cut s.kids s'.kids n := by
  induction k generalizing s n b s' with
  | zero => cases h
  | succ k ih =>
    rw [vfsRmRecursiveNode, if_neg hr] at h
    cases hl : (s.node n).children.getLast? with
    | none =>
      rw [hl] at h
      exact vfsUnlinkNode_cut W hr (List.getLast?_eq_none_iff.mp hl) (Option.some.inj h)
    | some c =>
      have hc : c ∈ s.kids n := List.mem_of_getLast? hl
      rw [hl] at h
      simp only at h
      cases hrec : vfsRmRecursiveNode k s c with
      | none =>
        rw [hrec] at h
        cases h
      | some r =>
        obtain ⟨b₁, s₁⟩ := r
        obtain ⟨hb₁, C⟩ := ih W (W.kid_ne_root hc) hrec
        obtain rfl := hb₁.mpr ⟨n, hc⟩
        rw [hrec] at h
        have P := vfsRmRecursiveNode_pruned W hrec
        obtain ⟨hb, C'⟩ := ih (P.wf W) (P.root ▸ hr) h
        refine ⟨hb.trans ?_, C.trans W.forest hc (W.not_below hc) C'⟩
        constructor
        · rintro ⟨q, hq⟩
          exact ⟨q, (C.sublist q).subset hq⟩
        rintro ⟨q, hq⟩
        refine ⟨q, ?_⟩
        -- what is below the child does not have the node in its array
        have hcq : ¬ Below s.kids c q := fun hcq => W.not_below hc (hcq.tail hq)
        rw [C.kept hcq, List.mem_filter, decide_eq_true_eq]
        exact ⟨hq, Nat.ne_of_lt (W.kid_gt hc)⟩

/-- More fuel changes nothing. -/
theorem vfsRmRecursiveNode_mono {k' : Nat} {r : Bool × Vfs}
    (h : vfsRmRecursiveNode k s n = some r) (hk : k ≤ k') : vfsRmRecursiveNode k' s n = some r := by
  induction k generalizing k' s n r with
  | zero => cases h
  | succ k ih =>
    obtain ⟨j, rfl⟩ : ∃ j, k' = j + 1 := ⟨k' - 1, by omega⟩
    have hj : k ≤ j := by omega
    rw [vfsRmRecursiveNode] at h ⊢
    split
    · rename_i hr
      rwa [if_pos hr] at h
    · rename_i hr
      rw [if_neg hr] at h
      cases hl : (s.node n).children.getLast? with
      | none => rwa [hl] at h
      | some c =>
        rw [hl] at h
        simp only at h ⊢
        cases hrec : vfsRmRecursiveNode k s c with
        | none =>
          rw [hrec] at h
          cases h
        | some r₁ =>
          rw [hrec] at h
          rw [ih hrec hj]
          obtain ⟨_ | _, s₁⟩ := r₁
          · exact h
          · exact ih h hj

/-- `n` and all that is below it are gone from the tree, and nothing else has changed. -/
structure Removed (s s' : Vfs) (n : Nat) : Prop where
  inTree : ∀ m, s'.InTree m ↔ s.InTree m ∧ ¬ Below s.kids n m
  node : ∀ m, ¬ Below s.kids n m →
    s'.node m = { s.node m with children := (s.kids m).filter (· ≠ n) }
  contents : ∀ m, s'.contents m = s.contents m
  ram : s'.ram = s.ram
  next : s'.next = s.next
  root : s'.root = s.root
  cwd : s'.cwd = s.cwd
  pwd : s'.pwd = s.pwd

theorem Pruned.removed (W : Wf s) (P : Pruned s s' n) (hr : n ≠ s.root)
    (C : Forest.Cut s.kids s'.kids n) : Removed s s' n where
  inTree m := by
    have hroot : ¬ Below s.kids n s.root := by
      intro h
      obtain he | ⟨q, -, hq⟩ := Relation.ReflTransGen.cases_tail h
      · exact hr he.symm
      · exact W.forest.root_not_mem q hq
    rw [InTree, InTree, P.root]
    exact C.below W.forest hroot
  node m hm := by rw [P.node, C.kept hm]
  contents := P.contents
  ram := P.ram
  next := P.next
  root := P.root
  cwd := P.cwd
  pwd := P.pwd

theorem linked_of_inTree (h : s.InTree n) (hr : n ≠ s.root) : s.Linked n := by
  obtain ⟨p, -, hp⟩ := Forest.parent_below h hr
  exact ⟨p, hp⟩

theorem vfsRmRecursive_removed {path : List Char} (W : Wf s) (hp : s.vfsResolve path = some n)
    (hl : s.Linked n) (hr : n ≠ s.root) : ∃ s',
      (∀ k, s.links + s.next < k → vfsRmRecursiveNode k s n = some (true, s')) ∧
      s.vfsRmRecursive path = some (true, s') ∧ Removed s s' n := by
  obtain ⟨b, s', h, -⟩ := vfsRmRecursiveNode_total (k := s.links + s.next + 1) W
    (W.vfsResolve_lt hp) (by omega)
  obtain ⟨hb, C⟩ := vfsRmRecursiveNode_cut W hr h
  obtain rfl := hb.mpr hl
  refine ⟨s', fun k hk => vfsRmRecursiveNode_mono h hk, ?_,
    (vfsRmRecursiveNode_pruned W h).removed W hr C⟩
  rw [vfsRmRecursive, hp]
  simp only
  rw [if_neg hr, h]

/-- A file or an empty directory is all that `vfs_rm` cuts off. -/
theorem vfsRm_cut {path : List Char} (W : Wf s) (hp : s.vfsResolve path = some n)
    (hr : n ≠ s.root) (hleaf : (s.node n).type = .file ∨ s.kids n = [])
    (h : s.vfsRm path = (b, s')) :
    Pruned s s' n ∧ (b = true ↔ s.Linked n) ∧ Forest.Cut s.kids s'.kids n := by
  have hnil : s.kids n = [] := hleaf.elim (W.file_leaf n) id
  have hpar : (s.node n).parent ≠ none := by
    obtain ⟨q, -, hq, -⟩ := W.par_lt n (W.vfsResolve_lt hp) hr
    have hpq : (s.node n).parent = some q := hq
    rw [hpq]
    exact Option.some_ne_none q
  have hu : s.vfsUnlinkNode n = (b, s') := by
    rw [vfsRm, hp] at h
    simp only at h
    rwa [if_neg (not_or.mpr ⟨hr, hpar⟩), if_neg fun h => h.2 hnil] at h
  have hs' : (s.vfsUnlinkNode n).2 = s' := by rw [hu]
  exact ⟨hs' ▸ vfsUnlinkNode_pruned s n, vfsUnlinkNode_cut W hr hnil hu⟩

theorem vfsRm_removed {path : List Char} (W : Wf s) (hp : s.vfsResolve path = some n)
    (hl : s.Linked n) (hr : n ≠ s.root) (hleaf : (s.node n).type = .file ∨ s.kids n = []) :
    ∃ s', s.vfsRm path = (true, s') ∧ Removed s s' n := by
  obtain ⟨b, s', h⟩ : ∃ b s', s.vfsRm path = (b, s') := ⟨_, _, rfl⟩
  obtain ⟨P, hb, C⟩ := vfsRm_cut W hp hr hleaf h
  obtain rfl := hb.mpr hl
  exact ⟨s', h, P.removed W hr C⟩

theorem vfsRm_nonempty {path : List Char} (hp : s.vfsResolve path = some n)
    (hno : ¬ ((s.node n).type = .file ∨ s.kids n = [])) : s.vfsRm path = (false, s) := by
  rw [not_or] at hno
  have hdir : (s.node n).type = .dir := by
    cases ht : (s.node n).type with
    | dir => rfl
    | file => exact absurd ht hno.1
  rw [vfsRm, hp]
  simp only
  split
  · rfl
  · rw [if_pos ⟨hdir, hno.2⟩]

end Vfs

open Vfs in
/-- Below the root, `vfs_rm_recursive` ends, answers 1 and takes out the node with all that is below
it; `vfs_rm` does so for a file or an empty directory, and otherwise answers 0 and does nothing. -/
theorem rm_exact {s : Vfs} (h : Running s) {path : List Char} {n : Nat}
    (hp : s.vfsResolve path = some n) (hin : s.InTree n) (hr : n ≠ s.root) :
    (∃ s', (∀ k, s.links + s.next < k → vfsRmRecursiveNode k s n = some (true, s')) ∧
      s.vfsRmRecursive path = some (true, s') ∧ Removed s s' n) ∧
    ((s.node n).type = .file ∨ s.kids n = [] →
      ∃ s', s.vfsRm path = (true, s') ∧ Removed s s' n) ∧
    (¬ ((s.node n).type = .file ∨ s.kids n = []) → s.vfsRm path = (false, s)) :=
  have hl := linked_of_inTree hin hr
  ⟨vfsRmRecursive_removed h.wf hp hl hr, vfsRm_removed h.wf hp hl hr, vfsRm_nonempty hp⟩

open Vfs in
/-- `/home`, with `/home/user` below it. -/
theorem rm_exact_home : bootVfs.kids 3 ≠ [] ∧
    (∃ s', (∀ k, bootVfs.links + bootVfs.next < k →
        vfsRmRecursiveNode k bootVfs 3 = some (true, s')) ∧
      bootVfs.vfsRmRecursive "/home".toList = some (true, s') ∧ Removed bootVfs s' 3) ∧
    ((bootVfs.node 3).type = .file ∨ bootVfs.kids 3 = [] →
      ∃ s', bootVfs.vfsRm "/home".toList = (true, s') ∧ Removed bootVfs s' 3) ∧
    (¬ ((bootVfs.node 3).type = .file ∨ bootVfs.kids 3 = []) →
      bootVfs.vfsRm "/home".toList = (false, bootVfs)) := by
  have h : bootVfs.vfsResolve "/home".toList = some 3 ∧ 3 ∈ bootVfs.kids bootVfs.root ∧
      3 ≠ bootVfs.root ∧ bootVfs.kids 3 ≠ [] := by
    rw [bootVfs_spelled]
    decide +kernel
  obtain ⟨hp, hin, hr, hk⟩ := h
  exact ⟨hk, rm_exact (.boot bootVfs_booted) hp (Below.refl.tail hin) hr⟩

end BojanOS
