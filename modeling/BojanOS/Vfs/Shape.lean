import BojanOS.Vfs.Basic
import BojanOS.Lib.PointerForest

/-!
# The shape of the tree

`Wf` is the invariant of the node graph that every operation keeps, also when `kmalloc` refuses a
request between `make_node` and `add_child`, and also for the part of the graph that was cut off:
the working directory may be there. The operations on file contents do not see the graph
(`SameTree`), so one lemma covers them all.
-/

namespace BojanOS

/-- The part of a node that the operations on file contents leave alone. -/
def Vnode.shape (v : Vnode) : Vnode := { v with data := none, size := 0, cap := 0 }

namespace Vfs

variable {s s' : Vfs} {p c n : Nat}

def kids (s : Vfs) (n : Nat) : List Nat := (s.node n).children

def par (s : Vfs) (n : Nat) : Option Nat := (s.node n).parent

def nameOf (s : Vfs) (n : Nat) : List Char := (s.node n).name

/-- The node is reachable from `vfs_root` through the child arrays. -/
def InTree (s : Vfs) (n : Nat) : Prop := Below s.kids s.root n

structure Wf (s : Vfs) : Prop where
  forest : Forest s.kids s.par s.root
  blank : ∀ n, s.next ≤ n → (s.node n).shape = Vnode.blank
  root_lt : s.root < s.next
  root_dir : (s.node s.root).type = .dir
  root_par : s.par s.root = some s.root
  cwd_lt : s.cwd < s.next
  cwd_dir : (s.node s.cwd).type = .dir
  kid_lt : ∀ {p c}, c ∈ s.kids p → c < s.next
  par_lt : ∀ n, n < s.next → n ≠ s.root → ∃ p < n, s.par n = some p ∧ (s.node p).type = .dir
  file_leaf : ∀ n, (s.node n).type = .file → s.kids n = []
  names : ∀ p, ((s.kids p).map s.nameOf).Nodup
  name_ok : ∀ {p c}, c ∈ s.kids p → s.nameOf c ≠ [] ∧ (s.nameOf c).length < VFS_NAME_MAX
  cap : ∀ n, (s.kids n).length ≤ (s.node n).childCap

/-! ## Operations on contents -/

/-- The two states have the same node graph and the same working directory. -/
structure SameTree (s s' : Vfs) : Prop where
  next : s'.next = s.next
  root : s'.root = s.root
  cwd : s'.cwd = s.cwd
  pwd : s'.pwd = s.pwd
  shape : ∀ n, (s'.node n).shape = (s.node n).shape

namespace SameTree

theorem rfl' : SameTree s s := ⟨rfl, rfl, rfl, rfl, fun _ => rfl⟩

theorem symm (S : SameTree s s') : SameTree s' s :=
  ⟨S.next.symm, S.root.symm, S.cwd.symm, S.pwd.symm, fun n => (S.shape n).symm⟩

theorem trans {t : Vfs} (H : SameTree s s') (H' : SameTree s' t) : SameTree s t :=
  ⟨H'.next.trans H.next, H'.root.trans H.root, H'.cwd.trans H.cwd, H'.pwd.trans H.pwd,
    fun n => (H'.shape n).trans (H.shape n)⟩

theorem ram (r : Ram) : SameTree s { s with ram := r } := ⟨rfl, rfl, rfl, rfl, fun _ => rfl⟩

/-- A node may get new data, size and capacity. -/
theorem setNode {v : Vnode} (h : v.shape = (s.node n).shape) : SameTree s (s.setNode n v) := by
  refine ⟨rfl, rfl, rfl, rfl, fun m => ?_⟩
  by_cases hm : m = n
  · subst hm; simp [Vfs.setNode, h]
  · simp [Vfs.setNode, hm]

theorem type (H : SameTree s s') (n : Nat) : (s'.node n).type = (s.node n).type :=
  (congrArg Vnode.type (H.shape n) :)

theorem kids (H : SameTree s s') : s'.kids = s.kids :=
  funext fun n => (congrArg Vnode.children (H.shape n) :)

theorem par (H : SameTree s s') : s'.par = s.par :=
  funext fun n => (congrArg Vnode.parent (H.shape n) :)

theorem nameOf (H : SameTree s s') : s'.nameOf = s.nameOf :=
  funext fun n => (congrArg Vnode.name (H.shape n) :)

theorem childCap (H : SameTree s s') (n : Nat) : (s'.node n).childCap = (s.node n).childCap :=
  (congrArg Vnode.childCap (H.shape n) :)

theorem inTree (H : SameTree s s') : s'.InTree n ↔ s.InTree n := by
  rw [InTree, InTree, H.kids, H.root]

theorem wf (H : SameTree s s') (W : Wf s) : Wf s' where
  forest := by rw [H.kids, H.par, H.root]; exact W.forest
  blank n hn := (H.shape n).trans (W.blank n (H.next ▸ hn))
  root_lt := by rw [H.root, H.next]; exact W.root_lt
  root_dir := by rw [H.root, H.type]; exact W.root_dir
  root_par := by rw [H.par, H.root]; exact W.root_par
  cwd_lt := by rw [H.cwd, H.next]; exact W.cwd_lt
  cwd_dir := by rw [H.cwd, H.type]; exact W.cwd_dir
  kid_lt := by rw [H.kids, H.next]; exact W.kid_lt
  par_lt n := by
    rw [H.next, H.root, H.par]
    intro hn hr
    obtain ⟨p, hp, h, hd⟩ := W.par_lt n hn hr
    exact ⟨p, hp, h, (H.type p).trans hd⟩
  file_leaf n := by rw [H.kids, H.type]; exact W.file_leaf n
  names p := by rw [H.kids, H.nameOf]; exact W.names p
  name_ok := by rw [H.kids, H.nameOf]; exact W.name_ok
  cap n := by rw [H.kids, H.childCap]; exact W.cap n

theorem childOf (H : SameTree s s') (dir : Nat) (name : List Char) :
    s'.childOf dir name = s.childOf dir name := by
  have hkids : (s'.node dir).children = (s.node dir).children := congrFun H.kids dir
  have hname : ∀ c, (s'.node c).name = (s.node c).name := fun c => congrFun H.nameOf c
  simp only [Vfs.childOf, H.type, hkids, hname]

/-- Paths lead to the same nodes. -/
theorem vfsResolve (H : SameTree s s') (path : List Char) :
    s'.vfsResolve path = s.vfsResolve path := by
  have hstep : s'.walkStep = s.walkStep := by
    funext cur name
    have hpar : (s'.node cur).parent = (s.node cur).parent := congrFun H.par cur
    simp only [walkStep, H.childOf, H.root, hpar]
  rw [Vfs.vfsResolve, Vfs.vfsResolve, walk, walk, hstep, H.root, H.cwd]

end SameTree

theorem growFile_sameTree (s : Vfs) (n need : Nat) : SameTree s (s.growFile n need).2 := by
  rw [growFile]
  split
  · split
    · exact .ram _
    · exact (SameTree.ram _).trans (.setNode rfl)
  · exact .rfl'

theorem storeFile_sameTree (s : Vfs) (n d off : Nat) (data : Src) (len : Nat) :
    SameTree s (s.storeFile n d off data len) := (SameTree.ram _).trans (.setNode rfl)

theorem vfsWriteFile_sameTree (s : Vfs) (n : Nat) (data : Src) (len : Nat) :
    SameTree s (s.vfsWriteFile n data len).2 := by
  rw [vfsWriteFile]
  split
  · exact .rfl'
  · have h := growFile_sameTree s n (len + 1)
    split <;> rename_i hg <;> rw [hg] at h
    · exact h
    · exact h.trans (storeFile_sameTree ..)

theorem vfsAppendFile_sameTree (s : Vfs) (n : Nat) (data : Src) (len : Nat) :
    SameTree s (s.vfsAppendFile n data len).2 := by
  rw [vfsAppendFile]
  split
  · exact .rfl'
  · have h := growFile_sameTree s n ((s.node n).size + len + 1)
    split <;> rename_i hg <;> rw [hg] at h
    · exact h
    · exact h.trans (storeFile_sameTree ..)

theorem vfsTruncate_sameTree (s : Vfs) (n : Nat) : SameTree s (s.vfsTruncate n) := by
  rw [vfsTruncate]
  split
  · exact .rfl'
  · exact (SameTree.ram _).trans (.setNode rfl)

/-! ## Creating a node -/

/-- `make_node` hands out the next node or is refused. -/
theorem makeNode_cases (s : Vfs) (t : FsType) (name : List Char) (p : Option Nat) :
    (∃ ram, s.makeNode t name p = (none, { s with ram })) ∨
    ∃ ram, s.makeNode t name p = (some s.next,
      { s with ram, node := Function.update s.node s.next (.fresh t name p), next := s.next + 1 }) := by
  rw [makeNode]
  split
  · exact .inl ⟨_, rfl⟩
  · exact .inr ⟨_, rfl⟩

/-- `add_child` appends to the child array, whose capacity stays ahead of its length, or is
refused. -/
theorem addChild_cases (s : Vfs) (p c : Nat) :
    (∃ ram, s.addChild p c = (false, { s with ram })) ∨
    ∃ ram cap, (s.kids p).length ≤ (s.node p).childCap → (s.kids p).length < cap ∧
      s.addChild p c = (true, { s with ram }.setNode p
        { s.node p with childCap := cap, children := s.kids p ++ [c] }) := by
  rw [addChild]
  simp only [kids]
  split
  · rename_i h
    split
    · exact .inl ⟨_, rfl⟩
    · refine .inr ⟨_, _, fun hle => ⟨?_, rfl⟩⟩
      split <;> omega
  · rename_i h
    exact .inr ⟨s.ram, _, fun hle => ⟨by omega, rfl⟩⟩

theorem kids_setNode (s : Vfs) (p : Nat) (v : Vnode) :
    (s.setNode p v).kids = Function.update s.kids p v.children := by
  funext n
  by_cases h : n = p
  · subst h; simp [kids, setNode]
  · simp [kids, setNode, h]

/-- `make_node` handed out a node for the directory `p`, and `add_child` hung it there (`linked`)
or was refused. -/
structure Made (s s' : Vfs) (p : Nat) (t : FsType) (name : List Char) (linked : Bool) : Prop where
  next : s'.next = s.next + 1
  root : s'.root = s.root
  cwd : s'.cwd = s.cwd
  pwd : s'.pwd = s.pwd
  old : ∀ m, m ≠ s.next → m ≠ p → s'.node m = s.node m
  new : s'.node s.next = .fresh t name (some p)
  self : s'.node p =
    { s.node p with children := s'.kids p, childCap := (s'.node p).childCap }
  kids_self : s'.kids p = s.kids p ++ if linked then [s.next] else []
  cap : (s'.kids p).length ≤ (s'.node p).childCap

theorem made {t : FsType} {name : List Char} {b : Bool} {s₁ : Vfs} (hp : p < s.next)
    (hcap : (s.kids p).length ≤ (s.node p).childCap)
    (hm : s.makeNode t name (some p) = (some n, s₁)) (ha : s₁.addChild p n = (b, s')) :
    n = s.next ∧ Made s s' p t name b := by
  rcases makeNode_cases s t name (some p) with ⟨ram, h⟩ | ⟨ram, h⟩
  · rw [h] at hm; cases hm
  rw [h] at hm
  obtain ⟨rfl, hs₁⟩ : s.next = n ∧ _ = s₁ := by simpa using hm
  have hpn : p ≠ s.next := Nat.ne_of_lt hp
  have hold : ∀ m, m ≠ s.next → s₁.node m = s.node m := by
    intro m hne; subst hs₁; exact Function.update_of_ne hne _ _
  have hnew : s₁.node s.next = .fresh t name (some p) := by
    subst hs₁; exact Function.update_self _ _ _
  have hrest : s₁.next = s.next + 1 ∧ s₁.root = s.root ∧ s₁.cwd = s.cwd ∧ s₁.pwd = s.pwd := by
    subst hs₁; exact ⟨rfl, rfl, rfl, rfl⟩
  have hk : s₁.kids p = s.kids p := congrArg Vnode.children (hold p hpn)
  obtain ⟨hnext, hroot, hcwd, hpwd⟩ := hrest
  refine ⟨rfl, ?_⟩
  rcases addChild_cases s₁ p s.next with ⟨ram', h'⟩ | ⟨ram', cap, h'⟩
  · obtain ⟨rfl, rfl⟩ : false = b ∧ _ = s' := by simpa [h'] using ha
    have hks : Vfs.kids { s₁ with ram := ram' } p = s.kids p := hk
    refine ⟨hnext, hroot, hcwd, hpwd, fun m hm _ => hold m hm, hnew, ?_, ?_, ?_⟩
    · rw [hks, hold p hpn]; rfl
    · rw [hks]; simp
    · rw [hks, hold p hpn]; exact hcap
  · obtain ⟨hlt, h'⟩ := h' (by rw [hk, hold p hpn]; exact hcap)
    obtain ⟨rfl, rfl⟩ : true = b ∧ _ = s' := by simpa [h'] using ha
    rw [hk] at hlt
    have hself : (Vfs.setNode { s₁ with ram := ram' } p
        { s₁.node p with childCap := cap, children := s₁.kids p ++ [s.next] }).node p =
        { s.node p with childCap := cap, children := s.kids p ++ [s.next] } := by
      rw [hk, hold p hpn]; exact Function.update_self _ _ _
    have hks : Vfs.kids (Vfs.setNode { s₁ with ram := ram' } p
        { s₁.node p with childCap := cap, children := s₁.kids p ++ [s.next] }) p =
        s.kids p ++ [s.next] := congrArg Vnode.children hself
    refine ⟨hnext, hroot, hcwd, hpwd, fun m hm hmp => ?_, ?_, ?_, hks, ?_⟩
    · exact (Function.update_of_ne hmp _ _).trans (hold m hm)
    · exact (Function.update_of_ne hpn.symm _ _).trans hnew
    · rw [hks, hself]
    · rw [hks, hself, List.length_append]
      exact hlt

namespace Made

variable {t : FsType} {name : List Char} {b : Bool}

/-- A field of an old node other than the two that `add_child` writes. -/
theorem field (M : Made s s' p t name b) {α : Type} (f : Vnode → α)
    (hf : ∀ v k cap, f { v with children := k, childCap := cap } = f v) {m : Nat}
    (hm : m ≠ s.next) : f (s'.node m) = f (s.node m) := by
  by_cases hp : m = p
  · subst hp; rw [M.self, hf]
  · rw [M.old m hm hp]

theorem type (M : Made s s' p t name b) {m : Nat} (hm : m ≠ s.next) :
    (s'.node m).type = (s.node m).type := M.field Vnode.type (fun _ _ _ => rfl) hm

theorem par (M : Made s s' p t name b) {m : Nat} (hm : m ≠ s.next) : s'.par m = s.par m :=
  M.field Vnode.parent (fun _ _ _ => rfl) hm

theorem nameOf (M : Made s s' p t name b) {m : Nat} (hm : m ≠ s.next) :
    s'.nameOf m = s.nameOf m := M.field Vnode.name (fun _ _ _ => rfl) hm

theorem kids_old (M : Made s s' p t name b) {m : Nat} (hm : m ≠ s.next) (hp : m ≠ p) :
    s'.kids m = s.kids m := congrArg Vnode.children (M.old m hm hp)

theorem kids_new (M : Made s s' p t name b) : s'.kids s.next = [] :=
  congrArg Vnode.children M.new

theorem nameOf_new (M : Made s s' p t name b) (h : name.length < VFS_NAME_MAX) :
    s'.nameOf s.next = name :=
  (congrArg Vnode.name M.new).trans (List.take_of_length_le (Nat.le_sub_one_of_lt h))

theorem kids_eq (M : Made s s' p t name b) (hp : p ≠ s.next) (hnil : s.kids s.next = []) :
    s'.kids = Function.update s.kids p (s.kids p ++ if b then [s.next] else []) := by
  funext m
  by_cases hmp : m = p
  · subst hmp; rw [Function.update_self, M.kids_self]
  · rw [Function.update_of_ne hmp]
    by_cases hm : m = s.next
    · subst hm; rw [M.kids_new, hnil]
    · exact M.kids_old hm hmp

end Made

namespace Wf

/-- A child has a larger number than its directory. -/
theorem kid_gt (W : Wf s) (hc : c ∈ s.kids n) : n < c := by
  have hr : c ≠ s.root := fun h => W.forest.root_not_mem n (h ▸ hc)
  obtain ⟨p, hlt, hp, -⟩ := W.par_lt c (W.kid_lt hc) hr
  obtain rfl : n = p := Option.some.inj ((W.forest.par_eq hc).symm.trans hp)
  exact hlt

theorem ram (W : Wf s) (r : Ram) : Wf { s with ram := r } := (SameTree.ram r).wf W

/-- Child arrays may lose members, all else being equal. -/
theorem shrink (W : Wf s) {s' : Vfs} (hnext : s'.next = s.next) (hroot : s'.root = s.root)
    (hcwd : s'.cwd = s.cwd)
    (hnode : ∀ n, (s'.node n).shape = { (s.node n).shape with children := s'.kids n })
    (hsub : ∀ n, (s'.kids n).Sublist (s.kids n)) : Wf s' := by
  have htype : ∀ n, (s'.node n).type = (s.node n).type := fun n =>
    (congrArg Vnode.type (hnode n) :)
  have hpar : s'.par = s.par := funext fun n => (congrArg Vnode.parent (hnode n) :)
  have hname : s'.nameOf = s.nameOf := funext fun n => (congrArg Vnode.name (hnode n) :)
  have hcap : ∀ n, (s'.node n).childCap = (s.node n).childCap := fun n =>
    (congrArg Vnode.childCap (hnode n) :)
  have hnil : ∀ n, s.kids n = [] → s'.kids n = [] := fun n h => by simpa [h] using hsub n
  constructor
  case forest => rw [hpar, hroot]; exact W.forest.mono hsub
  case blank =>
    intro n hn
    have hb := W.blank n (hnext ▸ hn)
    have hk : s'.kids n = [] := hnil n ((congrArg Vnode.children hb) :)
    rw [hnode n, hb, hk]
    rfl
  case root_lt => rw [hroot, hnext]; exact W.root_lt
  case root_dir => rw [hroot, htype]; exact W.root_dir
  case root_par => rw [hpar, hroot]; exact W.root_par
  case cwd_lt => rw [hcwd, hnext]; exact W.cwd_lt
  case cwd_dir => rw [hcwd, htype]; exact W.cwd_dir
  case kid_lt => intro p c hc; rw [hnext]; exact W.kid_lt ((hsub p).subset hc)
  case par_lt =>
    intro n
    rw [hnext, hroot, hpar]
    intro hn hr
    obtain ⟨p, hp, h, hd⟩ := W.par_lt n hn hr
    exact ⟨p, hp, h, (htype p).trans hd⟩
  case file_leaf => intro n hn; exact hnil n (W.file_leaf n ((htype n).symm.trans hn))
  case names => intro p; rw [hname]; exact (W.names p).sublist ((hsub p).map _)
  case name_ok => intro p c hc; rw [hname]; exact W.name_ok ((hsub p).subset hc)
  case cap => intro n; rw [hcap]; exact (hsub n).length_le.trans (W.cap n)

theorem chdir (W : Wf s) (hn : n < s.next) (hd : (s.node n).type = .dir) :
    Wf { s with cwd := n } :=
  { W with cwd_lt := hn, cwd_dir := hd }

end Wf

/-! ## Looking a path up -/

theorem childOf_eq_some {name : List Char} (h : s.childOf p name = some c) :
    (s.node p).type = .dir ∧ c ∈ s.kids p ∧ s.nameOf c = name := by
  rw [childOf] at h
  split at h
  · cases h
  · rename_i hd
    exact ⟨by simpa using hd, List.mem_of_find?_eq_some h, by simpa [nameOf] using List.find?_some h⟩

theorem childOf_eq_none {name : List Char} (hd : (s.node p).type = .dir)
    (h : s.childOf p name = none) : ∀ c ∈ s.kids p, s.nameOf c ≠ name := by
  rw [childOf, if_neg (by simp [hd])] at h
  intro c hc
  simpa [nameOf] using List.find?_eq_none.mp h c hc

/-- What one name of a path can lead to. -/
theorem walkStep_cases {name : List Char} (h : s.walkStep n name = some c) :
    c = n ∨ s.par n = some c ∨ ∃ p, c ∈ s.kids p := by
  rw [walkStep] at h
  split at h
  · exact .inl (Option.some.inj h).symm
  · split at h
    · cases hp : (s.node n).parent with
      | none =>
        simp only [hp, Option.getD_none, Option.some.injEq] at h
        exact .inl h.symm
      | some p =>
        simp only [hp, Option.getD_some, Option.some.injEq] at h
        exact .inr (.inl (h ▸ hp))
    · split at h
      · exact .inr (.inr ⟨_, (childOf_eq_some h).2.1⟩)
      · exact .inr (.inr ⟨_, (childOf_eq_some h).2.1⟩)

theorem Wf.par_lt_next (W : Wf s) (hn : n < s.next) (h : s.par n = some p) : p < s.next := by
  by_cases hr : n = s.root
  · subst hr
    rw [W.root_par] at h
    exact Option.some.inj h ▸ hn
  · obtain ⟨q, hq, hpar, -⟩ := W.par_lt n hn hr
    rw [hpar] at h
    exact Option.some.inj h ▸ hq.trans hn

theorem Wf.walk_lt (W : Wf s) {names : List (List Char)} (hn : n < s.next)
    (h : s.walk n names = some c) : c < s.next := by
  induction names generalizing n with
  | nil =>
    obtain rfl : n = c := by simpa [walk] using h
    exact hn
  | cons name names ih =>
    simp only [walk, List.foldlM_cons, Option.bind_eq_bind, Option.bind_eq_some_iff] at h
    obtain ⟨m, hm, hc⟩ := h
    refine ih ?_ hc
    rcases walkStep_cases hm with rfl | hp | ⟨_, hk⟩
    · exact hn
    · exact W.par_lt_next hn hp
    · exact W.kid_lt hk

theorem Wf.vfsResolve_lt (W : Wf s) {path : List Char} (h : s.vfsResolve path = some c) :
    c < s.next := by
  rw [vfsResolve] at h
  split at h
  · exact W.walk_lt W.root_lt h
  · exact W.walk_lt W.cwd_lt h

theorem Wf.vfsResolveParent_lt (W : Wf s) {path name : List Char}
    (h : s.vfsResolveParent path = (some p, name)) : p < s.next := by
  rw [vfsResolveParent] at h
  simp only at h
  split at h
  · obtain ⟨rfl, -⟩ : s.cwd = p ∧ _ := by simpa using h
    exact W.cwd_lt
  · split at h
    · obtain ⟨rfl, -⟩ : s.root = p ∧ _ := by simpa using h
      exact W.root_lt
    · exact W.vfsResolve_lt (Prod.mk.inj h).1

/-! ## `vfs_mkfile` and `vfs_mkdir` -/

/-- What `vfs_mkfile` and `vfs_mkdir` can do: nothing, or make a node and hang it below the
directory that `vfs_resolve_parent` found. -/
theorem vfsMknode_cases {t : FsType} {path : List Char} {b : Bool}
    (h : s.vfsMknode t path = some (b, s')) :
    b = false ∧ s' = s ∨
    ∃ p name, s.vfsResolveParent path = (some p, name) ∧ name.length < VFS_NAME_MAX ∧
      (s.node p).type = .dir ∧ name ≠ [] ∧ s.childOf p name = none ∧
      ((b = false ∧ ∃ ram, s.makeNode t name (some p) = (none, { s with ram }) ∧
          s' = { s with ram }) ∨
        ∃ n s₁, s.makeNode t name (some p) = (some n, s₁) ∧ s₁.addChild p n = (b, s')) := by
  rw [vfsMknode] at h
  rcases hr : s.vfsResolveParent path with ⟨p, name⟩
  simp only [hr] at h
  split at h
  · cases h
  rename_i hlen
  cases p with
  | none =>
    obtain ⟨rfl, rfl⟩ : false = b ∧ s = s' := by simpa using h
    exact .inl ⟨rfl, rfl⟩
  | some p =>
    simp only at h
    split at h
    · obtain ⟨rfl, rfl⟩ : false = b ∧ s = s' := by simpa using h
      exact .inl ⟨rfl, rfl⟩
    rename_i hd
    split at h
    · obtain ⟨rfl, rfl⟩ : false = b ∧ s = s' := by simpa using h
      exact .inl ⟨rfl, rfl⟩
    rename_i hname
    rw [not_or, Option.not_isSome_iff_eq_none] at hname
    refine .inr ⟨p, name, rfl, by omega, by simpa using hd, hname.1, hname.2, ?_⟩
    rcases makeNode_cases s t name (some p) with ⟨ram, hm⟩ | ⟨ram, hm⟩
    · obtain ⟨rfl, rfl⟩ : false = b ∧ _ = s' := by simpa [hm] using h
      exact .inl ⟨rfl, ram, hm, rfl⟩
    · exact .inr ⟨_, _, hm, by simpa [hm] using h⟩

namespace Wf

theorem kids_next (W : Wf s) : s.kids s.next = [] :=
  (congrArg Vnode.children (W.blank s.next (Nat.le_refl _)) :)

theorem kid_ne_next (W : Wf s) {q : Nat} (h : c ∈ s.kids q) : c ≠ s.next :=
  Nat.ne_of_lt (W.kid_lt h)

/-- A node made for a directory that has no child of its name. -/
theorem made (W : Wf s) {t : FsType} {name : List Char} {b : Bool} (M : Made s s' p t name b)
    (hp : p < s.next) (hd : (s.node p).type = .dir)
    (hname : name ≠ [] ∧ name.length < VFS_NAME_MAX)
    (hnew : ∀ c ∈ s.kids p, s.nameOf c ≠ name) : Wf s' := by
  have hpn : p ≠ s.next := Nat.ne_of_lt hp
  have hkids := M.kids_eq hpn W.kids_next
  have hown := M.nameOf_new hname.2
  -- a member of a child array is an old one or the new node
  have hmem : ∀ {q c}, c ∈ s'.kids q → c ∈ s.kids q ∨ (q = p ∧ b = true ∧ c = s.next) := by
    intro q c hc
    rw [hkids] at hc
    by_cases hq : q = p
    · subst hq
      rw [Function.update_self, List.mem_append] at hc
      refine hc.imp_right fun h => ?_
      cases b <;> simp at h
      exact ⟨rfl, rfl, h⟩
    · rw [Function.update_of_ne hq] at hc
      exact .inl hc
  have hpar_new : s'.par s.next = some p := congrArg Vnode.parent M.new
  have hnr : s.next ≠ s.root := (Nat.ne_of_lt W.root_lt).symm
  constructor
  case forest =>
    have hold : Forest s.kids s'.par s'.root := by
      rw [M.root]
      refine ⟨fun hc => ?_, W.forest.nodup, W.forest.root_not_mem⟩
      rw [M.par (W.kid_ne_next hc)]
      exact W.forest.par_eq hc
    rw [hkids]
    cases b with
    | false => simpa using hold
    | true => exact hold.link (fun q hq => W.kid_ne_next hq rfl) hpar_new (M.root ▸ hnr)
  case blank =>
    intro n hn
    rw [M.next] at hn
    rw [M.old n (by omega) (by omega)]
    exact W.blank n (by omega)
  case root_lt => rw [M.root, M.next]; exact Nat.lt_succ_of_lt W.root_lt
  case root_dir => rw [M.root, M.type hnr.symm]; exact W.root_dir
  case root_par => rw [M.root, M.par hnr.symm]; exact W.root_par
  case cwd_lt => rw [M.cwd, M.next]; exact Nat.lt_succ_of_lt W.cwd_lt
  case cwd_dir => rw [M.cwd, M.type (Nat.ne_of_lt W.cwd_lt)]; exact W.cwd_dir
  case kid_lt =>
    intro q c hc
    rw [M.next]
    rcases hmem hc with h | ⟨-, -, rfl⟩
    · exact Nat.lt_succ_of_lt (W.kid_lt h)
    · exact Nat.lt_succ_self _
  case par_lt =>
    intro n hn hr
    rw [M.root] at hr
    by_cases hnn : n = s.next
    · subst hnn
      exact ⟨p, hp, hpar_new, (M.type hpn).trans hd⟩
    · rw [M.next] at hn
      obtain ⟨q, hq, hpar, hdir⟩ := W.par_lt n (by omega) hr
      exact ⟨q, hq, (M.par hnn).trans hpar, (M.type (by omega)).trans hdir⟩
  case file_leaf =>
    intro n hn
    by_cases hnn : n = s.next
    · subst hnn; exact M.kids_new
    · rw [M.type hnn] at hn
      have hne : n ≠ p := by rintro rfl; rw [hd] at hn; cases hn
      rw [M.kids_old hnn hne]
      exact W.file_leaf n hn
  case names =>
    intro q
    have hmap : ∀ q, (s.kids q).map s'.nameOf = (s.kids q).map s.nameOf := fun q =>
      List.map_congr_left fun c hc => M.nameOf (W.kid_ne_next hc)
    rw [hkids]
    by_cases hq : q = p
    · subst hq
      rw [Function.update_self, List.map_append, hmap]
      cases b with
      | false => simpa using W.names q
      | true =>
        rw [if_pos rfl, List.map_singleton, hown, List.nodup_append_comm,
          List.singleton_append, List.nodup_cons]
        refine ⟨?_, W.names q⟩
        rw [List.mem_map]
        rintro ⟨d, hd, he⟩
        exact hnew d hd he
    · rw [Function.update_of_ne hq, hmap]
      exact W.names q
  case name_ok =>
    intro q c hc
    rcases hmem hc with h | ⟨-, -, rfl⟩
    · rw [M.nameOf (W.kid_ne_next h)]; exact W.name_ok h
    · rw [hown]; exact hname
  case cap =>
    intro n
    by_cases hnp : n = p
    · subst hnp; exact M.cap
    · by_cases hnn : n = s.next
      · subst hnn; rw [M.kids_new]; exact Nat.zero_le _
      · rw [kids, M.old n hnn hnp]; exact W.cap n

theorem vfsMknode (W : Wf s) {t : FsType} {path : List Char} {b : Bool}
    (h : s.vfsMknode t path = some (b, s')) : Wf s' := by
  rcases vfsMknode_cases h with ⟨-, rfl⟩ | ⟨p, name, hr, hlen, hd, hne, hnone, hcase⟩
  · exact W
  · rcases hcase with ⟨-, ram, -, rfl⟩ | ⟨n, s₁, hm, ha⟩
    · exact W.ram ram
    · have hp := W.vfsResolveParent_lt hr
      exact W.made (Vfs.made hp (W.cap p) hm ha).2 hp hd ⟨hne, hlen⟩ (childOf_eq_none hd hnone)

end Wf
end Vfs
end BojanOS
