import BojanOS.Lib.PathMap
import BojanOS.Vfs.RemoveTree

/-!
# The tree as a map from paths

`Vfs.tree` is what can be found from `vfs_root` downwards, without the nodes: at each list of names a
directory, or a file with its bytes. `Fs` is this map with the path of the working directory, which
has none when it has been removed. For each kind of change of the nodes it is said here what becomes
of the map.
-/

namespace BojanOS

abbrev Name := List Char

/-- The file system as a user sees it. -/
structure Fs where
  entry : PathMap Name (List Char)
  cwd : Option (List Name)

namespace Fs

def put (F : Fs) (p : List Name) (e : PathMap.Item (List Char)) : Fs :=
  { F with entry := F.entry.put p e }

/-- The working directory may be below the path. -/
def remove (F : Fs) (p : List Name) : Fs where
  entry := F.entry.cut p
  cwd := F.cwd.filter fun q => ¬ p <+: q

end Fs

/-- What `make_node` makes. -/
def FsType.blank : FsType → PathMap.Item (List Char)
  | .file => .file []
  | .dir => .dir

namespace Vfs

variable {s s' : Vfs} {n m : Nat} {p q : List Name} {x : Name}

def nodeAt (s : Vfs) (p : List Name) : Option Nat := Forest.find s.kids s.nameOf s.root p

def item (s : Vfs) (n : Nat) : PathMap.Item (List Char) :=
  match (s.node n).type with
  | .file => .file (s.contents n)
  | .dir => .dir

def tree (s : Vfs) : PathMap Name (List Char) := Forest.paths s.kids s.nameOf s.root s.item

/-- The path of a node, read off the parents; a node outside the tree has none. -/
def place (s : Vfs) (n : Nat) : Option (List Name) :=
  if s.nodeAt (s.climb s.next n).reverse = some n then some (s.climb s.next n).reverse else none

def fs (s : Vfs) : Fs := ⟨s.tree, s.place s.cwd⟩

/-! ## Nodes and paths -/

theorem Wf.child_eq (W : s.Wf) (n : Nat) (x : Name) :
    Forest.child s.kids s.nameOf n x = s.childOf n x := by
  cases hd : (s.node n).type with
  | dir => exact (childOf_dir hd x).symm
  | file =>
    rw [Forest.child, W.file_leaf n hd, childOf_file hd]
    rfl

theorem Wf.nodeAt_snoc (W : s.Wf) : s.nodeAt (p ++ [x]) = some m ↔
    ∃ n, s.nodeAt p = some n ∧ s.childOf n x = some m := by
  simp only [nodeAt, Forest.find_snoc, W.child_eq]

theorem nodeAt_inTree (h : s.nodeAt p = some n) : s.InTree n := Forest.below_of_find h

theorem Wf.nodeAt_lt (W : s.Wf) (h : s.nodeAt p = some n) : n < s.next :=
  W.inTree_lt (nodeAt_inTree h)

/-- The parents lead back along the path. -/
theorem Wf.climb_eq (W : s.Wf) (h : s.nodeAt p = some n) {k : Nat} (hk : n < k) :
    s.climb k n = p.reverse := by
  induction p using List.reverseRecOn generalizing n k with
  | nil =>
    obtain rfl : s.root = n := Option.some.inj h
    cases k with
    | zero => cases hk
    | succ k => rw [climb, if_pos rfl, List.reverse_nil]
  | append_singleton p x ih =>
    obtain ⟨d, hd, hn⟩ := W.nodeAt_snoc.mp h
    obtain ⟨-, hmem, rfl⟩ := childOf_eq_some hn
    have hpar : (s.node n).parent = some d := W.forest.par_eq hmem
    have hdn := W.kid_gt hmem
    cases k with
    | zero => cases hk
    | succ k =>
      have hup : s.climb k d = p.reverse := ih hd (by omega)
      rw [climb, if_neg (W.kid_ne_root hmem), hpar, List.reverse_append, ← hup]
      rfl

theorem Wf.place_eq_some (W : s.Wf) : s.place n = some p ↔ s.nodeAt p = some n := by
  rw [place]
  constructor
  · intro h
    split at h
    · obtain rfl := Option.some.inj h
      assumption
    · cases h
  · intro h
    rw [W.climb_eq h (W.nodeAt_lt h), List.reverse_reverse, if_pos h]

theorem Wf.place_eq_none (W : s.Wf) : s.place n = none ↔ ∀ p, s.nodeAt p ≠ some n := by
  rw [Option.eq_none_iff_forall_ne_some]
  exact forall_congr' fun p => not_congr W.place_eq_some

theorem Wf.place_root (W : s.Wf) : s.place s.root = some [] := W.place_eq_some.mpr rfl

theorem tree_eq (h : s.nodeAt p = some n) : s.tree p = some (s.item n) := Forest.paths_eq h

theorem item_eq_dir : s.item n = .dir ↔ (s.node n).type = .dir := by
  rw [item]
  cases (s.node n).type with
  | file => exact iff_of_false (fun h => by cases h) (fun h => by cases h)
  | dir => exact iff_of_true rfl rfl

theorem item_of_file (h : (s.node n).type = .file) : s.item n = .file (s.contents n) := by
  rw [item, h]

theorem Wf.tree_isSome (W : s.Wf) (h : s.nodeAt p = some n) :
    (s.tree (p ++ [x])).isSome = (s.childOf n x).isSome := by
  rw [tree, Forest.paths, Option.isSome_map, Forest.find_append, ← W.child_eq]
  have hn : Forest.find s.kids s.nameOf s.root p = some n := h
  rw [hn, Option.bind_some, Forest.find, List.foldlM_cons]
  cases Forest.child s.kids s.nameOf n x with
  | none => rfl
  | some c => rfl

/-- A path leads out of the tree for a node that is not in it. -/
theorem place_congr (W : s.Wf) (W' : s'.Wf)
    (h : ∀ p, s'.nodeAt p = some n ↔ s.nodeAt p = some n) : s'.place n = s.place n := by
  refine Option.ext fun p => ?_
  rw [W.place_eq_some, W'.place_eq_some, h]

/-! ## Changes -/

theorem SameTree.nodeAt (S : SameTree s s') (p : List Name) : s'.nodeAt p = s.nodeAt p := by
  rw [Vfs.nodeAt, Vfs.nodeAt, S.kids, S.nameOf, S.root]

theorem SameTree.place (S : SameTree s s') (W : s.Wf) (n : Nat) : s'.place n = s.place n :=
  place_congr W (S.wf W) fun p => by rw [S.nodeAt]

theorem SameTree.item (S : SameTree s s') (h : s'.contents n = s.contents n) :
    s'.item n = s.item n := by
  rw [Vfs.item, Vfs.item, S.type, h]

/-- Requests of memory are not seen. -/
theorem SameTree.fs (S : SameTree s s') (W : s.Wf) (hc : s'.contents = s.contents) :
    s'.fs = s.fs := by
  have htree : s'.tree = s.tree := by
    rw [tree, tree, S.kids, S.nameOf, S.root]
    exact congrArg _ (funext fun n => S.item (congrFun hc n))
  rw [Vfs.fs, Vfs.fs, htree, S.cwd, S.place W]

/-- Other bytes in a file. -/
theorem SameTree.fs_store (S : SameTree s s') (W : s.Wf) (hf : (s.node n).type = .file)
    {data : List Char} (hc : s'.contents = Function.update s.contents n data) :
    s'.fs = (s.place n).elim s.fs fun p => s.fs.put p (.file data) := by
  have hitem : ∀ m, m ≠ n → s'.item m = s.item m := fun m hm =>
    S.item (by rw [hc, Function.update_of_ne hm])
  have hself : s'.item n = .file data := by
    rw [item_of_file ((S.type n).trans hf), hc, Function.update_self]
  have htree : s'.tree = (s.place n).elim s.tree fun p => s.tree.put p (.file data) := by
    rw [tree, S.kids, S.nameOf, S.root]
    cases hp : s.place n with
    | none => exact Forest.paths_store_outside hitem (W.place_eq_none.mp hp)
    | some p =>
      rw [Option.elim_some, ← hself]
      exact Forest.paths_store W.forest hitem (W.place_eq_some.mp hp)
  rw [Vfs.fs, htree, S.cwd, S.place W]
  cases s.place n with
  | none => rfl
  | some p => rfl

/-- `add_child` was refused: the node is not in the tree. -/
theorem Made.fs_unlinked {t : FsType} (M : Made s s' n t x false) (W : s.Wf) (W' : s'.Wf)
    (hn : n < s.next) (hc : s'.contents = s.contents) : s'.fs = s.fs := by
  have hkids : s'.kids = s.kids := by
    rw [M.kids_eq (Nat.ne_of_lt hn) W.kids_next]
    simp
  have hfind : ∀ p, s'.nodeAt p = s.nodeAt p := fun p => by
    rw [nodeAt, nodeAt, hkids, M.root]
    exact Forest.find_congr fun d m hm => M.nameOf (W.kid_ne_next hm)
  have htree : s'.tree = s.tree := by
    funext p
    have hp := hfind p
    rw [nodeAt, nodeAt] at hp
    rw [tree, tree, Forest.paths, Forest.paths, hp]
    refine Option.map_congr fun m hm => ?_
    rw [item, item, M.type (Nat.ne_of_lt (W.nodeAt_lt hm)), hc]
  rw [fs, fs, htree, M.cwd, place_congr W W' fun p => by rw [hfind]]

theorem Made.linked {t : FsType} (M : Made s s' n t x true) (W : s.Wf) (hn : n < s.next) :
    Forest.Linked s.kids s'.kids s.nameOf s'.nameOf n s.next where
  mem d m := by
    rw [M.kids_eq (Nat.ne_of_lt hn) W.kids_next, if_pos rfl]
    rcases eq_or_ne d n with rfl | hd
    · rw [Function.update_self, List.mem_append, List.mem_singleton]
      simp
    · rw [Function.update_of_ne hd]
      simp [hd]
  name_old d m hm := M.nameOf (W.kid_ne_next hm)
  free d hd := W.kid_ne_next hd rfl
  leaf := W.kids_next
  ne := (Nat.ne_of_lt hn).symm

/-- A new leaf, if it is in the tree. -/
theorem Made.fs {t : FsType} (M : Made s s' n t x true) (W : s.Wf) (W' : s'.Wf) (hn : n < s.next)
    (hlen : x.length < VFS_NAME_MAX) (hc : s'.contents = s.contents) :
    s'.fs = (s.place n).elim s.fs fun p => s.fs.put (p ++ [x]) t.blank := by
  have L := M.linked W hn
  have hroot : s.next ≠ s.root := (Nat.ne_of_lt W.root_lt).symm
  have hname : s'.nameOf s.next = x := M.nameOf_new hlen
  have hitem : ∀ m, m ≠ s.next → s'.item m = s.item m := fun m hm => by
    rw [item, item, M.type hm, hc]
  have hnew : s'.item s.next = t.blank := by
    have hdata : (s'.node s.next).data = none := congrArg Vnode.data M.new
    have htype : (s'.node s.next).type = t := congrArg Vnode.type M.new
    rw [item, htype, contents_nil hdata]
    cases t with
    | file => rfl
    | dir => rfl
  have htree : s'.tree = (s.place n).elim s.tree fun p => s.tree.put (p ++ [x]) t.blank := by
    rw [tree, M.root]
    cases hp : s.place n with
    | none =>
      exact Forest.paths_link_outside L hroot W.names W'.names hitem (W.place_eq_none.mp hp)
    | some p =>
      rw [Option.elim_some, ← hname, ← hnew]
      exact Forest.paths_link W.forest L hroot W.names W'.names hitem (W.place_eq_some.mp hp)
  have hcwd : s'.place s.cwd = s.place s.cwd := place_congr W W' fun p => by
    rw [nodeAt, nodeAt, M.root, Forest.find_link L hroot W.names W'.names]
    exact or_iff_left fun h => Nat.ne_of_lt W.cwd_lt h.1
  rw [Vfs.fs, htree, M.cwd, hcwd]
  cases s.place n with
  | none => rfl
  | some p => rfl

/-- What is at and below a node is gone. -/
theorem Pruned.fs_cut (P : Pruned s s' n) (W : s.Wf) (hr : n ≠ s.root)
    (C : Forest.Cut s.kids s'.kids n) : s'.fs = (s.place n).elim s.fs s.fs.remove := by
  have W' := P.wf W
  have hd' : Forest.DistinctNames s'.kids s.nameOf := P.nameOf ▸ W'.names
  have hitem : s'.item = s.item := funext fun m => by rw [item, item, P.type, P.contents]
  have hnode : ∀ p m, s'.nodeAt p = some m ↔ s.nodeAt p = some m ∧ ¬ Below s.kids n m := by
    intro p m
    rw [nodeAt, nodeAt, P.nameOf, P.root]
    exact Forest.find_cut W.forest C (W.forest.not_below_root hr) W.names hd'
  have htree : s'.tree = (s.place n).elim s.tree s.tree.cut := by
    rw [tree, P.nameOf, P.root, hitem]
    cases hp : s.place n with
    | none => exact Forest.paths_cut_outside W.forest C W.names hd' (W.place_eq_none.mp hp)
    | some p => exact Forest.paths_cut W.forest C hr W.names hd' (W.place_eq_some.mp hp)
  have hcwd : s'.place s.cwd = (s.place n).elim (s.place s.cwd) fun p =>
      (s.place s.cwd).filter fun q => ¬ p <+: q := by
    refine Option.ext fun q => ?_
    rw [W'.place_eq_some, hnode, ← W.place_eq_some]
    cases hp : s.place n with
    | none =>
      refine and_iff_left_of_imp fun hq hb => ?_
      have hin := nodeAt_inTree (W.place_eq_some.mp hq)
      obtain ⟨p, hp'⟩ := Forest.exists_find W.names (W.forest.below_of_below hin hb)
      exact W.place_eq_none.mp hp p hp'
    | some p =>
      rw [Option.elim_some, Option.filter_eq_some_iff]
      refine and_congr_right fun hq => ?_
      rw [Forest.below_iff W.forest W.names (W.place_eq_some.mp hp) (W.place_eq_some.mp hq)]
      simp
  rw [Vfs.fs, htree, P.cwd, hcwd]
  cases s.place n with
  | none => rfl
  | some p => rfl

theorem Wf.fs_chdir (W : s.Wf) (hn : n < s.next) (hd : (s.node n).type = .dir) :
    Vfs.fs { s with cwd := n } = { s.fs with cwd := s.place n } := by
  have W' := W.chdir hn hd
  have hplace : Vfs.place { s with cwd := n } n = s.place n := place_congr W W' fun _ => Iff.rfl
  rw [fs, hplace]
  rfl

end Vfs
end BojanOS
