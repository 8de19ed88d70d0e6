import BojanOS.Vfs.Shape

/-!
# Removing nodes

The three removal functions only take entries out of child arrays. `Pruned` says which ones they
can take: the entry of the node itself, and entries of nodes at or below it. `vfs_rm_recursive`
always ends, since a call on a child goes to a larger node number and a further round of the loop
has one entry less to go through.
-/

namespace BojanOS.Vfs

variable {s s' s₁ : Vfs} {p c n : Nat}

/-- `s'` is `s` without some of the entries of the tree at `n`. -/
structure Pruned (s s' : Vfs) (n : Nat) : Prop where
  ram : s'.ram = s.ram
  next : s'.next = s.next
  root : s'.root = s.root
  cwd : s'.cwd = s.cwd
  pwd : s'.pwd = s.pwd
  node : ∀ m, s'.node m = { s.node m with children := s'.kids m }
  sub : ∀ m, (s'.kids m).Sublist (s.kids m)
  kept : ∀ m c, c ∈ s.kids m → c ≠ n → ¬ Below s.kids n m → c ∈ s'.kids m

namespace Pruned

theorem rfl' : Pruned s s n := ⟨rfl, rfl, rfl, rfl, rfl, fun _ => rfl, fun _ => .refl _,
  fun _ _ h _ _ => h⟩

theorem type (P : Pruned s s' n) (m : Nat) : (s'.node m).type = (s.node m).type := by
  rw [P.node]

theorem par (P : Pruned s s' n) : s'.par = s.par := funext fun m => by
  rw [Vfs.par, P.node]; rfl

theorem nameOf (P : Pruned s s' n) : s'.nameOf = s.nameOf := funext fun m => by
  rw [Vfs.nameOf, P.node]; rfl

theorem contents (P : Pruned s s' n) (m : Nat) : s'.contents m = s.contents m := by
  rw [Vfs.contents, P.node, P.ram]; rfl

theorem wf (P : Pruned s s' n) (W : Wf s) : Wf s' :=
  W.shrink P.next P.root P.cwd (fun m => by rw [P.node]; rfl) P.sub

/-- A call on a child, followed by the rest of the work on its parent. -/
theorem trans (W : Wf s) (hc : c ∈ s.kids n) (P : Pruned s s₁ c) (Q : Pruned s₁ s' n) :
    Pruned s s' n where
  ram := Q.ram.trans P.ram
  next := Q.next.trans P.next
  root := Q.root.trans P.root
  cwd := Q.cwd.trans P.cwd
  pwd := Q.pwd.trans P.pwd
  node m := by rw [Q.node, P.node]
  sub m := (Q.sub m).trans (P.sub m)
  kept m d hd hne hm := by
    have hdc : d ≠ c := by
      rintro rfl
      exact hm (W.forest.eq_of_mem hd hc ▸ .refl)
    have hmc : ¬ Below s.kids c m := fun h => hm (Relation.ReflTransGen.head hc h)
    refine Q.kept m d (P.kept m d hd hdc hmc) hne fun h => hm ?_
    exact h.mono fun q e he => (P.sub q).subset he

end Pruned

/-- What `vfs_unlink_node` can do: nothing, or take the node out of its parent's array. -/
theorem vfsUnlinkNode_cases (s : Vfs) (n : Nat) :
    (s.vfsUnlinkNode n = (false, s) ∧ (n = s.root ∨ ∀ p, s.par n = some p → n ∉ s.kids p)) ∨
    ∃ p, s.par n = some p ∧ n ∈ s.kids p ∧ n ≠ s.root ∧
      s.vfsUnlinkNode n =
        (true, s.setNode p { s.node p with children := (s.kids p).erase n }) := by
  rw [vfsUnlinkNode]
  split
  · rename_i hr
    exact .inl ⟨rfl, .inl hr⟩
  · rename_i hr
    cases hp : (s.node n).parent with
    | none => exact .inl ⟨rfl, .inr fun p h => by rw [par, hp] at h; cases h⟩
    | some p =>
      simp only
      split
      · rename_i hn
        exact .inr ⟨p, hp, hn, hr, rfl⟩
      · rename_i hn
        refine .inl ⟨rfl, .inr fun q h => ?_⟩
        rw [par, hp] at h
        exact Option.some.inj h ▸ hn

theorem kids_unlink (s : Vfs) (p n : Nat) :
    (s.setNode p { s.node p with children := (s.kids p).erase n }).kids =
      Function.update s.kids p ((s.kids p).erase n) := kids_setNode _ _ _

theorem unlink_pruned (s : Vfs) (p n : Nat) :
    Pruned s (s.setNode p { s.node p with children := (s.kids p).erase n }) n where
  ram := rfl
  next := rfl
  root := rfl
  cwd := rfl
  pwd := rfl
  node m := by
    rw [kids_unlink]
    by_cases hm : m = p
    · subst hm; simp [setNode]
    · simp [setNode, hm, kids]
  sub m := by
    rw [kids_unlink]
    exact Forest.erase_sublist s.kids p n m
  kept m c hc hne _ := by
    rw [kids_unlink]
    by_cases hm : m = p
    · subst hm
      rw [Function.update_self]
      exact (List.mem_erase_of_ne hne).mpr hc
    · rwa [Function.update_of_ne hm]

theorem vfsUnlinkNode_pruned (s : Vfs) (n : Nat) : Pruned s (s.vfsUnlinkNode n).2 n := by
  rcases vfsUnlinkNode_cases s n with ⟨h, -⟩ | ⟨p, -, -, -, h⟩ <;> rw [h]
  · exact .rfl'
  · exact unlink_pruned s p n

theorem vfsRm_pruned {path : List Char} (h : s.vfsResolve path = some n) :
    Pruned s (s.vfsRm path).2 n := by
  rw [vfsRm, h]
  simp only
  split
  · exact .rfl'
  · split
    · exact .rfl'
    · exact vfsUnlinkNode_pruned s n

theorem Wf.vfsRm (W : Wf s) (path : List Char) : Wf (s.vfsRm path).2 := by
  cases h : s.vfsResolve path with
  | none => rw [Vfs.vfsRm, h]; exact W
  | some n => exact (vfsRm_pruned h).wf W

/-! ## `vfs_rm_recursive` -/

theorem vfsRmRecursiveNode_pruned {k : Nat} {b : Bool} (W : Wf s)
    (h : vfsRmRecursiveNode k s n = some (b, s')) : Pruned s s' n := by
  induction k generalizing s n b s' with
  | zero => simp [vfsRmRecursiveNode] at h
  | succ k ih =>
    rw [vfsRmRecursiveNode] at h
    split at h
    · obtain ⟨-, rfl⟩ : false = b ∧ s = s' := by simpa using h
      exact .rfl'
    · cases hl : (s.node n).children.getLast? with
      | none =>
        simp only [hl, Option.some.injEq] at h
        have hs : (s.vfsUnlinkNode n).2 = s' := by rw [h]
        exact hs ▸ vfsUnlinkNode_pruned s n
      | some c =>
        simp only [hl] at h
        have hc : c ∈ s.kids n := List.mem_of_getLast? hl
        -- the recursive call on the last child, and then the next round of the loop
        rcases hr : vfsRmRecursiveNode k s c with _ | ⟨b₁, s₁⟩
        · simp [hr] at h
        · have P := ih W hr
          cases b₁ with
          | false =>
            obtain ⟨-, rfl⟩ : false = b ∧ s₁ = s' := by simpa [hr] using h
            exact P.trans W hc .rfl'
          | true => exact P.trans W hc (ih (P.wf W) (by simpa [hr] using h))

theorem vfsRmRecursive_pruned {path : List Char} {b : Bool} (W : Wf s)
    (hn : s.vfsResolve path = some n) (h : s.vfsRmRecursive path = some (b, s')) :
    Pruned s s' n := by
  rw [vfsRmRecursive, hn] at h
  simp only at h
  split at h
  · obtain ⟨-, rfl⟩ : false = b ∧ s = s' := by simpa using h
    exact .rfl'
  · exact vfsRmRecursiveNode_pruned W h

theorem Wf.vfsRmRecursive {path : List Char} {b : Bool} (W : Wf s)
    (h : s.vfsRmRecursive path = some (b, s')) : Wf s' := by
  cases hn : s.vfsResolve path with
  | none =>
    rw [Vfs.vfsRmRecursive, hn] at h
    obtain ⟨-, rfl⟩ : false = b ∧ s = s' := by simpa using h
    exact W
  | some n => exact (vfsRmRecursive_pruned W hn h).wf W

/-- An entry that goes makes the count of the entries smaller. -/
theorem links_update {p : Nat} (hp : p < s.next) (hn : s'.next = s.next)
    (hk : ∀ m, m ≠ p → s'.kids m = s.kids m) :
    s'.links + (s.kids p).length = s.links + (s'.kids p).length := by
  have aux : ∀ k, p < k → ((List.range k).map fun m => (s'.kids m).length).sum +
      (s.kids p).length =
      ((List.range k).map fun m => (s.kids m).length).sum + (s'.kids p).length := by
    intro k
    have hlt : ∀ j, j ≤ p → (List.range j).map (fun m => (s'.kids m).length) =
        (List.range j).map fun m => (s.kids m).length := fun j hj =>
      List.map_congr_left fun m hm => by
        rw [hk m (by have := List.mem_range.mp hm; omega)]
    induction k with
    | zero => intro h; omega
    | succ k ih =>
      intro h
      simp only [List.range_succ, List.map_append, List.sum_append, List.map_singleton,
        List.sum_singleton]
      rcases Nat.lt_or_ge p k with hpk | hpk
      · have := ih hpk
        rw [hk k (by omega)]
        omega
      · obtain rfl : p = k := by omega
        rw [hlt p (Nat.le_refl _)]
        omega
  have h := aux s.next hp
  rw [links, links, hn]
  exact h

theorem vfsUnlinkNode_links (W : Wf s) (hn : n < s.next) (b : Bool)
    (h : s.vfsUnlinkNode n = (b, s')) : s'.links + b.toNat = s.links := by
  rcases vfsUnlinkNode_cases s n with ⟨hu, -⟩ | ⟨p, hp, hmem, -, hu⟩
  · obtain ⟨rfl, rfl⟩ : false = b ∧ s = s' := by simpa [hu] using h
    rfl
  · obtain ⟨rfl, hs⟩ : true = b ∧ _ = s' := by simpa [hu] using h
    have hk : s'.kids = Function.update s.kids p ((s.kids p).erase n) := by
      rw [← hs]; exact kids_unlink s p n
    have := links_update (W.par_lt_next hn hp) (by rw [← hs]; rfl : s'.next = s.next)
      (fun m hm => by rw [hk, Function.update_of_ne hm])
    rw [hk, Function.update_self, List.length_erase_of_mem hmem] at this
    have := List.length_pos_of_mem hmem
    simp only [Bool.toNat_true]
    omega

/-- The recursion ends, and a call that succeeds takes an entry away. -/
theorem vfsRmRecursiveNode_total {k : Nat} (W : Wf s) (hn : n < s.next)
    (hk : s.links + (s.next - n) < k) :
    ∃ b s', vfsRmRecursiveNode k s n = some (b, s') ∧ s'.links + b.toNat ≤ s.links := by
  induction k generalizing s n with
  | zero => omega
  | succ k ih =>
    rw [vfsRmRecursiveNode]
    split
    · exact ⟨false, s, rfl, Nat.le_refl _⟩
    · rename_i hr
      cases hl : (s.node n).children.getLast? with
      | none =>
        obtain ⟨b, s', hu⟩ : ∃ b s', s.vfsUnlinkNode n = (b, s') := ⟨_, _, rfl⟩
        exact ⟨b, s', congrArg some hu, (vfsUnlinkNode_links W hn b hu).le⟩
      | some c =>
        have hc : c ∈ s.kids n := List.mem_of_getLast? hl
        have hcn := W.kid_lt hc
        have hlt := W.kid_gt hc
        obtain ⟨b₁, s₁, h₁, hle⟩ := ih W hcn (by omega)
        have P := vfsRmRecursiveNode_pruned W h₁
        simp only [h₁]
        cases b₁ with
        | false => exact ⟨false, s₁, rfl, hle⟩
        | true =>
          simp only [Bool.toNat_true] at hle
          obtain ⟨b, s', h', hle'⟩ := ih (P.wf W) (P.next ▸ hn) (by rw [P.next]; omega)
          exact ⟨b, s', h', by omega⟩

theorem vfsRmRecursive_total (W : Wf s) (path : List Char) :
    ∃ b s', s.vfsRmRecursive path = some (b, s') := by
  rw [vfsRmRecursive]
  cases hn : s.vfsResolve path with
  | none => exact ⟨_, _, rfl⟩
  | some n =>
    simp only
    split
    · exact ⟨_, _, rfl⟩
    · obtain ⟨b, s', h, -⟩ := vfsRmRecursiveNode_total (k := s.links + s.next + 1) W
        (W.vfsResolve_lt hn) (by omega)
      exact ⟨b, s', h⟩

end BojanOS.Vfs
