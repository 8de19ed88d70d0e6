import BojanOS.Vfs.View

/-!
# Calls by path

The commands name a file by a path: they call `vfs_resolve`, and then a function on the node.
Without the nodes and the heap such a call is a lookup in the map from paths and a change of one
entry of it (`Fs.exec`), or it fails: if the map has it so, or if the heap refuses a block that the
call asks for (`PathOp.granted`).

A relative path has a meaning as long as the working directory is in the tree. From one that was
removed it may lead back into the tree or not; `PathOp.Effect` says of each call what it does to the
map, with a meaning or without.
-/

namespace BojanOS

/-! ## The meaning of a path -/

namespace Fs

variable (F : Fs)

/-- One name of the path. -/
def lookStep (p : List Name) (x : Name) : Option (List Name) :=
  if x = ['.'] then some p
  else if x = ['.', '.'] then some p.dropLast
  else
    let q := if x = ['~'] then [['r', 'o', 'o', 't']] else p ++ [x]
    if (F.entry q).isSome then some q else none

def look (path : List Char) : Option (List Name) :=
  (if path.head? = some '/' then some [] else F.cwd).bind fun p =>
    (components path).foldlM F.lookStep p

/-- The directory in which the path names something new. -/
def lookParent (path : List Char) : Option (List Name) :=
  let buf := path.take (PATH_MAX - 1)
  match strrchr buf '/' with
  | none => F.cwd
  | some slash => if slash = 0 then some [] else F.look (buf.take slash)

/-- The path has a meaning. -/
def Knows (path : List Char) : Prop := path.head? = some '/' ∨ F.cwd.isSome

instance (path : List Char) : Decidable (F.Knows path) := inferInstanceAs (Decidable (_ ∨ _))

end Fs

/-- The name that the path gives to something new. -/
def newName (path : List Char) : Name :=
  let buf := path.take (PATH_MAX - 1)
  match strrchr buf '/' with
  | none => buf
  | some slash => if buf.drop (slash + 1) = [] then ['/'] else buf.drop (slash + 1)

namespace Vfs

variable {s s' : Vfs} {n : Nat} {p : List Name} {path : List Char}

theorem vfsResolveParent_snd (s : Vfs) (path : List Char) :
    (s.vfsResolveParent path).2 = newName path := by
  rw [vfsResolveParent, newName]
  cases strrchr (path.take (PATH_MAX - 1)) '/' with
  | none => rfl
  | some slash => rfl

/-- The node and the path that a lookup leads to. -/
abbrev SamePlace (s : Vfs) (o : Option Nat) (q : Option (List Name)) : Prop :=
  Option.Rel (fun n p => s.nodeAt p = some n) o q

theorem samePlace_some {q : Option (List Name)} (h : s.SamePlace (some n) q) :
    ∃ p, q = some p ∧ s.nodeAt p = some n := by
  cases h with
  | some hn => exact ⟨_, rfl, hn⟩

theorem samePlace_none {q : Option (List Name)} (h : s.SamePlace none q) : q = none := by
  cases h with
  | none => rfl

theorem Wf.samePlace_child (W : s.Wf) (h : s.nodeAt p = some n) (x : Name) :
    s.SamePlace (s.childOf n x)
      (if (s.fs.entry (p ++ [x])).isSome then some (p ++ [x]) else none) := by
  have hsome : (s.fs.entry (p ++ [x])).isSome = (s.childOf n x).isSome := W.tree_isSome h
  rw [hsome]
  cases hc : s.childOf n x with
  | none => exact .none
  | some c => exact .some (W.nodeAt_snoc.mpr ⟨n, h, hc⟩)

theorem Wf.walkStep_place (W : s.Wf) (h : s.nodeAt p = some n) (x : Name) :
    s.SamePlace (s.walkStep n x) (s.fs.lookStep p x) := by
  rw [walkStep, Fs.lookStep]
  split
  · exact .some h
  split
  · cases p using List.reverseRecOn with
    | nil =>
      obtain rfl : s.root = n := Option.some.inj h
      have hpar : (s.node s.root).parent = some s.root := W.root_par
      rw [hpar]
      exact .some rfl
    | append_singleton p y =>
      obtain ⟨d, hd, hn⟩ := W.nodeAt_snoc.mp h
      have hpar : (s.node n).parent = some d := W.forest.par_eq (childOf_eq_some hn).2.1
      rw [hpar, List.dropLast_concat]
      exact .some hd
  simp only
  by_cases htilde : x = ['~']
  · rw [if_pos htilde, if_pos htilde]
    exact W.samePlace_child (p := []) rfl _
  · rw [if_neg htilde, if_neg htilde]
    exact W.samePlace_child h x

theorem Wf.walk_place (W : s.Wf) (h : s.nodeAt p = some n) (xs : List Name) :
    s.SamePlace (s.walk n xs) (xs.foldlM s.fs.lookStep p) := by
  induction xs generalizing n p with
  | nil => exact .some h
  | cons x xs ih =>
    have hx := W.walkStep_place h x
    rw [walk, List.foldlM_cons, List.foldlM_cons]
    cases hs : s.walkStep n x with
    | none =>
      rw [hs] at hx
      rw [samePlace_none hx]
      exact .none
    | some m =>
      rw [hs] at hx
      obtain ⟨q, hq, hm⟩ := samePlace_some hx
      rw [hq]
      exact ih hm

/-- `vfs_resolve` looks the path up in the map. -/
theorem Wf.vfsResolve_place (W : s.Wf) (hk : s.fs.Knows path) :
    s.SamePlace (s.vfsResolve path) (s.fs.look path) := by
  rw [vfsResolve, Fs.look]
  split
  · exact W.walk_place rfl _
  · rename_i hs
    obtain ⟨p, hp⟩ := Option.isSome_iff_exists.mp (hk.resolve_left hs)
    rw [hp]
    exact W.walk_place (W.place_eq_some.mp hp) _

theorem strrchrLoop_isSome {c : Char} {t : List Char} {i : Nat} {last : Option Nat}
    (h : last.isSome ∨ c ∈ t) : (strrchrLoop c t i last).isSome := by
  induction t generalizing i last with
  | nil => exact h.resolve_right List.not_mem_nil
  | cons x t ih =>
    refine ih ?_
    split
    · exact .inl rfl
    · rename_i hx
      exact h.imp_right fun h => (List.mem_cons.mp h).resolve_left (Ne.symm hx)

theorem Wf.vfsResolveParent_place (W : s.Wf) (hk : s.fs.Knows path) :
    s.SamePlace (s.vfsResolveParent path).1 (s.fs.lookParent path) := by
  rw [vfsResolveParent, Fs.lookParent]
  simp only
  have hhead : ∀ {k : Nat}, k ≠ 0 → (path.take k).head? = path.head? := fun hk => by
    rw [List.head?_take, if_neg hk]
  cases hs : strrchr (path.take (PATH_MAX - 1)) '/' with
  | none =>
    have hrel : path.head? ≠ some '/' := fun h => by
      have hmem : '/' ∈ path.take (PATH_MAX - 1) :=
        List.mem_of_mem_head? (by rw [hhead (by decide), h]; rfl)
      have hsome : (strrchr (path.take (PATH_MAX - 1)) '/').isSome :=
        strrchrLoop_isSome (.inr hmem)
      rw [hs] at hsome
      cases hsome
    obtain ⟨p, hp⟩ := Option.isSome_iff_exists.mp (hk.resolve_left hrel)
    rw [hp]
    exact .some (W.place_eq_some.mp hp)
  | some slash =>
    simp only
    split
    · exact .some rfl
    · rename_i hne
      refine W.vfsResolve_place (hk.imp_left fun h => ?_)
      rw [List.take_take, hhead (by simp [hne, PATH_MAX]), h]

end Vfs

/-! ## Calls -/

/-- `make` is `vfs_mkfile` or `vfs_mkdir`. Whoever reads or writes a path checks first that it leads
to a file. `alloc` is other code that asks the heap for memory in between. -/
inductive PathOp where
  | make (type : FsType) (path : List Char)
  | rm (path : List Char)
  | rmRecursive (path : List Char)
  | chdir (path : List Char)
  | write (path : List Char) (data : { l : List Char // l.length ≤ ADDRESS_SPACE })
  | append (path : List Char) (data : { l : List Char // l.length ≤ ADDRESS_SPACE })
  | truncate (path : List Char)
  | read (path : List Char)
  | alloc (size : Nat)

/-- The bytes that were read, no bytes for the answer 1, and `none` for the answer 0. -/
abbrev Reply := Option (List Char)

namespace PathOp

/-- `n = vfs_resolve(path); if (!n || n->type != VFS_FILE) ..` -/
def onFile (s : Vfs) (path : List Char) : Option Nat :=
  (s.vfsResolve path).filter fun n => (s.node n).type = .file

/-- The function of `vfs.c` that is called in the end. -/
def fsOp (s : Vfs) : PathOp → Option FsOp
  | make .file path => some (.mkfile path)
  | make .dir path => some (.mkdir path)
  | rm path => some (.rm path)
  | rmRecursive path => some (.rmRecursive path)
  | chdir path => some (.chdir path)
  | write path data => (onFile s path).map fun n => .writeFile n (.ext data.1 data.2)
  | append path data => (onFile s path).map fun n => .appendFile n (.ext data.1 data.2)
  | truncate path => (onFile s path).map .truncate
  | read _ | alloc _ => none

/-- Without such a function. -/
def rest (s : Vfs) : PathOp → Option (Reply × Vfs)
  | read path => some ((onFile s path).map s.contents, s)
  | alloc size =>
    if size ≤ 2 ^ 63 then some (none, { s with ram := (s.ram.kmalloc size).2 }) else none
  | _ => some (none, s)

def step (op : PathOp) (s : Vfs) : Option (Reply × Vfs) :=
  match op.fsOp s with
  | some f => (f.step s).map fun (b, s) => (if b then some [] else none, s)
  | none => op.rest s

def path : PathOp → List Char
  | make _ path | rm path | rmRecursive path | chdir path | write path _ | append path _
  | truncate path | read path => path
  | alloc _ => []

/-- The node that the call starts from: the directory that is to get an entry, or what the path
leads to. -/
def node (s : Vfs) : PathOp → Option Nat
  | make _ path => (s.vfsResolveParent path).1
  | alloc _ => none
  | op => s.vfsResolve op.path

/-- `if (need > n->cap)` -/
def growth (v : Vnode) (need : Nat) : List Nat := if v.cap < need then [Vfs.newCap v need] else []

/-- `if (dir->child_count >= dir->child_cap)` -/
def entryGrowth (v : Vnode) : List Nat :=
  if v.childCap ≤ v.children.length then
    [(if v.childCap ≠ 0 then v.childCap * 2 else 8) * SIZEOF_PTR]
  else []

/-- The blocks that the call asks the heap for, if nothing else makes it fail. -/
def requests (s : Vfs) : PathOp → List Nat
  | make _ path =>
    match (s.vfsResolveParent path).1 with
    | none => []
    | some p => SIZEOF_VNODE :: entryGrowth (s.node p)
  | write path data =>
    match onFile s path with
    | none => []
    | some n => growth (s.node n) (data.1.length + 1)
  | append path data =>
    match onFile s path with
    | none => []
    | some n => growth (s.node n) ((s.node n).size + data.1.length + 1)
  | _ => []

def granted (s : Vfs) (op : PathOp) : Bool := s.ram.grantsAll (op.requests s)

end PathOp

namespace Fs

variable (F : Fs)

/-- The path of the call has a meaning. -/
def means : PathOp → Bool
  | .alloc _ => true
  | op => F.Knows op.path

/-- The place the call is about. -/
def dest : PathOp → Option (List Name)
  | .make _ path => F.lookParent path
  | .alloc _ => none
  | op => F.look op.path

def Empty (p : List Name) : Prop := ∀ x, F.entry (p ++ [x]) = none

open Classical in
/-- What the call does to the map at its place, and what it answers. -/
noncomputable def apply (p : List Name) : PathOp → Option (List Char × Fs)
  | .make type path =>
    if F.entry p = some .dir ∧ newName path ≠ [] ∧ F.entry (p ++ [newName path]) = none then
      some ([], F.put (p ++ [newName path]) type.blank)
    else none
  | .rm _ => if p ≠ [] ∧ F.Empty p then some ([], F.remove p) else none
  | .rmRecursive _ => if p ≠ [] then some ([], F.remove p) else none
  | .chdir _ => if F.entry p = some .dir then some ([], { F with cwd := some p }) else none
  | .write _ data =>
    match F.entry p with
    | some (.file _) => some ([], F.put p (.file data))
    | _ => none
  | .append _ data =>
    match F.entry p with
    | some (.file old) => some ([], F.put p (.file (old ++ data)))
    | _ => none
  | .truncate _ =>
    match F.entry p with
    | some (.file _) => some ([], F.put p (.file []))
    | _ => none
  | .read _ =>
    match F.entry p with
    | some (.file old) => some (old, F)
    | _ => none
  | .alloc _ => none

/-- The call at its place, with what the heap says. A call that fails changes nothing. -/
noncomputable def execAt (p : List Name) (op : PathOp) (granted : Bool) : Reply × Fs :=
  match F.apply p op with
  | some (text, F') => if granted then (some text, F') else (none, F)
  | none => (none, F)

/-- A call on the map. -/
noncomputable def exec (op : PathOp) (granted : Bool) : Reply × Fs :=
  match F.dest op with
  | some p => F.execAt p op granted
  | none => (none, F)

variable {F} {F' : Fs} {op : PathOp} {p : List Name} {text : List Char} {granted : Bool}

theorem execAt_done (h : F.apply p op = some (text, F')) :
    F.execAt p op true = (some text, F') := by
  rw [execAt, h]
  rfl

theorem execAt_failed (h : F.apply p op = none ∨ granted = false) :
    F.execAt p op granted = (none, F) := by
  rw [execAt]
  rcases h with h | rfl
  · rw [h]
  · cases F.apply p op with
    | none => rfl
    | some a => rfl

/-- What answers changed the map as `apply` says. -/
theorem execAt_some (h : F.execAt p op granted = (some text, F')) :
    F.apply p op = some (text, F') := by
  rw [execAt] at h
  cases ha : F.apply p op with
  | none =>
    rw [ha] at h
    cases (Prod.mk.inj h).1
  | some a =>
    rw [ha] at h
    cases granted with
    | false => cases (Prod.mk.inj h).1
    | true =>
      obtain ⟨ht, rfl⟩ := Prod.mk.inj h
      rw [← Option.some.inj ht]

theorem execAt_none (h : F.execAt p op granted = (none, F')) : F' = F := by
  rw [execAt] at h
  cases ha : F.apply p op with
  | none =>
    rw [ha] at h
    exact (Prod.mk.inj h).2.symm
  | some a =>
    rw [ha] at h
    cases granted with
    | false => exact (Prod.mk.inj h).2.symm
    | true => cases (Prod.mk.inj h).1

end Fs

/-! ## The nodes and the map -/

namespace Vfs

variable {s s₁ : Vfs} {n : Nat} {src : Src}

/-- Where a path leads to in the tree. -/
def placeOf (s : Vfs) (path : List Char) : Option (List Name) := (s.vfsResolve path).bind s.place

/-- A directory gets an entry if the heap grants the blocks. -/
theorem room_eq (s : Vfs) (p : Nat) :
    s.room p = s.ram.grantsAll (SIZEOF_VNODE :: PathOp.entryGrowth (s.node p)) := by
  rw [room, Ram.grantsAll, Ram.kzalloc]
  rcases s.ram.kmalloc SIZEOF_VNODE with ⟨_ | a, ram⟩
  · rfl
  simp only
  rw [PathOp.entryGrowth]
  generalize (if (s.node p).childCap ≠ 0 then (s.node p).childCap * 2 else 8) * SIZEOF_PTR = size
  have hzeroed : (Ram.kmalloc size { ram with mem := memzero a SIZEOF_VNODE ram.mem }).1 =
      (ram.kmalloc size).1 := by
    have hcongr := @Ram.kmalloc_congr { ram with mem := memzero a SIZEOF_VNODE ram.mem } ram
    exact (hcongr rfl rfl size).1
  rcases Nat.lt_or_ge (s.node p).children.length (s.node p).childCap with h | h
  · rw [if_neg (Nat.not_le.mpr h)]
    simp [h, Ram.grantsAll]
  · rw [if_pos h, Ram.grantsAll, hzeroed]
    rcases ram.kmalloc size with ⟨_ | b, ram'⟩ <;> simp [Nat.not_lt.mpr h, Ram.grantsAll]

/-- A file gets its room if the heap grants the block. -/
theorem HeapOk.growFile_isSome (H : s.HeapOk) (n : Nat) {need : Nat} (hneed : 0 < need) :
    (s.growFile n need).1.isSome = s.ram.grantsAll (PathOp.growth (s.node n) need) := by
  rw [growFile, PathOp.growth]
  rcases Nat.lt_or_ge (s.node n).cap need with h | h
  · rw [if_pos h, if_pos h, Ram.grantsAll]
    rcases s.ram.kmalloc (newCap (s.node n) need) with ⟨_ | a, ram⟩ <;> rfl
  · rw [if_neg (Nat.not_lt.mpr h), if_neg (Nat.not_lt.mpr h)]
    cases hd : (s.node n).data with
    | none =>
      have hcap := (H.noData hd).2
      omega
    | some d => rfl

theorem HeapOk.vfsWriteFile_fst (H : s.HeapOk) (hf : (s.node n).type = .file) (len : Nat) :
    (s.vfsWriteFile n src len).1 = s.ram.grantsAll (PathOp.growth (s.node n) (len + 1)) := by
  rw [← H.growFile_isSome n (Nat.succ_pos len), Vfs.vfsWriteFile, if_neg (by simp [hf])]
  rcases s.growFile n (len + 1) with ⟨_ | d, s₁⟩ <;> rfl

theorem HeapOk.vfsAppendFile_fst (H : s.HeapOk) (hf : (s.node n).type = .file) (len : Nat) :
    (s.vfsAppendFile n src len).1 =
      s.ram.grantsAll (PathOp.growth (s.node n) ((s.node n).size + len + 1)) := by
  rw [← H.growFile_isSome n (Nat.succ_pos _), Vfs.vfsAppendFile, if_neg (by simp [hf])]
  rcases s.growFile n ((s.node n).size + len + 1) with ⟨_ | d, s₁⟩ <;> rfl

end Vfs

namespace PathOp

open Vfs

variable {s s' : Vfs} {op : PathOp} {r : Reply} {n : Nat}

theorem step_fsOp {f : FsOp} (hf : op.fsOp s = some f) (h : op.step s = some (r, s')) :
    ∃ b : Bool, f.step s = some (b, s') ∧ r = if b then some [] else none := by
  rw [step, hf] at h
  obtain ⟨⟨b, t⟩, ht, he⟩ := Option.map_eq_some_iff.mp h
  obtain ⟨rfl, rfl⟩ := Prod.mk.inj he
  exact ⟨b, ht, rfl⟩

theorem step_alloc {size : Nat} (H : s.HeapOk) (h : (alloc size).step s = some (r, s')) :
    r = none ∧ s.SameTree s' ∧ s.Untouched s' := by
  change (if size ≤ 2 ^ 63 then _ else none) = _ at h
  split at h
  · rename_i hsize
    obtain ⟨rfl, rfl⟩ := Prod.mk.inj (Option.some.inj h)
    have G := Ram.Grew.kmalloc H.ram hsize
    exact ⟨rfl, .ram _, H.toBuffers.untouched_ram G.ok G.used G.mem⟩
  · cases h

theorem step_keeps (W : s.Wf) (H : s.HeapOk) (h : op.step s = some (r, s')) :
    s'.Wf ∧ s'.HeapOk := by
  cases hf : op.fsOp s with
  | some f =>
    obtain ⟨b, hb, -⟩ := step_fsOp hf h
    exact ⟨FsOp.step_wf W hb, (FsOp.step_contents W H hb).1⟩
  | none =>
    rw [step, hf] at h
    cases op with
    | alloc size =>
      obtain ⟨-, T, U⟩ := step_alloc H h
      exact ⟨T.wf W, U.heapOk H⟩
    | _ =>
      obtain ⟨-, rfl⟩ := Prod.mk.inj (Option.some.inj h)
      exact ⟨W, H⟩

/-- What a call does to the map: at a node of the tree what the map says, and nothing outside. -/
structure Effect (s : Vfs) (op : PathOp) (r : Reply) (s' : Vfs) : Prop where
  nowhere : op.node s = none → r = none
  outside : (op.node s).bind s.place = none → s'.fs = s.fs
  inside : ∀ p, (op.node s).bind s.place = some p →
    s.fs.execAt p op (op.granted s) = (r, s'.fs)

theorem Effect.of (W : s.Wf) (hnone : op.node s = none → r = none ∧ s'.fs = s.fs)
    (hout : ∀ n, op.node s = some n → s.place n = none → s'.fs = s.fs)
    (hin : ∀ n p, op.node s = some n → s.nodeAt p = some n →
      s.fs.execAt p op (op.granted s) = (r, s'.fs)) : Effect s op r s' where
  nowhere h := (hnone h).1
  outside h := by
    cases hn : op.node s with
    | none => exact (hnone hn).2
    | some n =>
      rw [hn] at h
      exact hout n hn h
  inside p h := by
    obtain ⟨n, hn, hp⟩ := Option.bind_eq_some_iff.mp h
    exact hin n p hn (W.place_eq_some.mp hp)

/-- The node is the one at the place that the map has for the path. -/
theorem node_place (W : s.Wf) (hk : s.fs.means op = true) :
    s.SamePlace (op.node s) (s.fs.dest op) := by
  cases op with
  | alloc size => exact .none
  | make type path => exact W.vfsResolveParent_place (of_decide_eq_true hk)
  | _ => exact W.vfsResolve_place (of_decide_eq_true hk)

/-- A call whose path has a meaning does what the call on the map does. -/
theorem Effect.exec (E : Effect s op r s') (W : s.Wf) (hk : s.fs.means op = true) :
    s.fs.exec op (op.granted s) = (r, s'.fs) := by
  have hplace := node_place W hk
  rw [Fs.exec]
  cases hn : op.node s with
  | none =>
    rw [hn] at hplace
    rw [samePlace_none hplace, E.nowhere hn, E.outside (by rw [hn]; rfl)]
  | some n =>
    rw [hn] at hplace
    obtain ⟨p, hd, hp⟩ := samePlace_some hplace
    rw [hd]
    exact E.inside p (by rw [hn]; exact W.place_eq_some.mpr hp)

/-! ## One call -/

/-- A node that is not hung into the tree cannot be seen, and one that is can be at its place. -/
theorem vfsMknode_fs {type : FsType} {path : List Char} {b : Bool} (W : s.Wf) (H : s.HeapOk)
    (hb : s.vfsMknode type path = some (b, s')) :
    s'.fs = if b then (((s.vfsResolveParent path).1).bind s.place).elim s.fs fun p =>
      s.fs.put (p ++ [newName path]) type.blank else s.fs := by
  have W' := W.vfsMknode hb
  have hc := (H.toBuffers.vfsMknode hb).contents H.toBuffers
  have hname := s.vfsResolveParent_snd path
  rcases vfsMknode_cases hb with ⟨rfl, rfl⟩ | ⟨m, x, hr, hlen, -, -, -, hcase⟩
  · rfl
  have hlt := W.vfsResolveParent_lt hr
  rcases hcase with ⟨rfl, ram, -, rfl⟩ | ⟨c, s₁, hm, ha⟩
  · exact (SameTree.ram ram).fs W hc
  have M := (Vfs.made hlt (W.cap m) hm ha).2
  rw [hr] at hname ⊢
  obtain rfl : x = newName path := hname
  cases b with
  | false => exact M.fs_unlinked W W' hlt hc
  | true => exact M.fs W W' hlt hlen hc

/-- A node is made when the map lets the call through and the heap does. -/
theorem creates_iff {type : FsType} {path : List Char} {p : List Name} (W : s.Wf)
    (hn : (s.vfsResolveParent path).1 = some n) (hp : s.nodeAt p = some n) :
    s.Creates path ↔ (s.fs.entry p = some .dir ∧ newName path ≠ [] ∧
      s.fs.entry (p ++ [newName path]) = none) ∧ granted s (make type path) = true := by
  have hname := s.vfsResolveParent_snd path
  have hentry : s.fs.entry p = some (s.item n) := tree_eq hp
  have hsome : (s.fs.entry (p ++ [newName path])).isSome = (s.childOf n (newName path)).isSome :=
    W.tree_isSome hp
  have hfree : s.fs.entry (p ++ [newName path]) = none ↔ s.childOf n (newName path) = none := by
    rw [← Option.not_isSome_iff_eq_none, ← Option.not_isSome_iff_eq_none, hsome]
  have hdir : s.fs.entry p = some .dir ↔ (s.node n).type = .dir := by
    rw [hentry, Option.some_inj, item_eq_dir]
  have hgranted : granted s (make type path) = s.room n := by
    rw [granted, requests, hn, room_eq]
  rw [Creates, hname, hgranted, hdir, hfree]
  constructor
  · rintro ⟨m, hm, hd, hne, hnone, hroom⟩
    obtain rfl := Option.some.inj (hn.symm.trans hm)
    exact ⟨⟨hd, hne, hnone⟩, hroom⟩
  · rintro ⟨⟨hd, hne, hnone⟩, hroom⟩
    exact ⟨n, hn, hd, hne, hnone, hroom⟩

theorem make_effect {type : FsType} {path : List Char} (W : s.Wf) (H : s.HeapOk)
    (h : (make type path).step s = some (r, s')) : Effect s (make type path) r s' := by
  obtain ⟨b, hb, rfl⟩ : ∃ b : Bool, s.vfsMknode type path = some (b, s') ∧
      r = if b then some [] else none := by
    cases type with
    | file => exact step_fsOp rfl h
    | dir => exact step_fsOp rfl h
  have hanswer := vfsMknode_answer W hb
  have hfs := vfsMknode_fs W H hb
  refine Effect.of W ?_ ?_ ?_
  · intro (ho : (s.vfsResolveParent path).1 = none)
    cases b with
    | false => exact ⟨rfl, hfs⟩
    | true =>
      obtain ⟨p, hp, -⟩ := hanswer.mp rfl
      rw [ho] at hp
      cases hp
  · intro n (hn : (s.vfsResolveParent path).1 = some n) hp
    rw [hfs, hn, Option.bind_some, hp]
    cases b <;> rfl
  · intro n p (hn : (s.vfsResolveParent path).1 = some n) hp
    have hcreates : s.Creates path ↔ _ ∧ granted s (make type path) = true :=
      creates_iff W hn hp
    cases b with
    | false =>
      rw [show s'.fs = s.fs from hfs]
      refine Fs.execAt_failed ?_
      have hno : ¬ s.Creates path := fun h => Bool.noConfusion (hanswer.mpr h)
      rw [hcreates, not_and, Bool.not_eq_true] at hno
      by_cases hmap : s.fs.entry p = some .dir ∧ newName path ≠ [] ∧
          s.fs.entry (p ++ [newName path]) = none
      · exact .inr (hno hmap)
      · exact .inl (if_neg hmap)
    | true =>
      obtain ⟨hmap, hheap⟩ := hcreates.mp (hanswer.mp rfl)
      rw [hheap, hfs, hn, Option.bind_some, W.place_eq_some.mpr hp]
      exact Fs.execAt_done (if_pos hmap)

theorem empty_iff {p : List Name} (W : s.Wf) (hp : s.nodeAt p = some n) :
    s.fs.Empty p ↔ s.kids n = [] := by
  have hsome : ∀ x, (s.fs.entry (p ++ [x])).isSome = (s.childOf n x).isSome := fun x =>
    W.tree_isSome hp
  constructor
  · intro h
    cases hk : s.kids n with
    | nil => rfl
    | cons c cs =>
      have hc : c ∈ s.kids n := hk ▸ List.mem_cons_self
      have hx := hsome (s.nameOf c)
      rw [h, ← W.child_eq, (Forest.child_eq_some W.names).mpr ⟨hc, rfl⟩] at hx
      cases hx
  · intro hk x
    have hnone : s.childOf n x = none := by
      cases hc : s.childOf n x with
      | none => rfl
      | some c =>
        have hmem := (childOf_eq_some hc).2.1
        rw [hk] at hmem
        cases hmem
    have hx := hsome x
    rw [hnone] at hx
    exact Option.not_isSome_iff_eq_none.mp (by simp [hx])

theorem ne_nil_iff {p : List Name} (W : s.Wf) (hp : s.nodeAt p = some n) :
    p ≠ [] ↔ n ≠ s.root := by
  refine not_congr ⟨?_, ?_⟩
  · rintro rfl
    exact (Option.some.inj hp).symm
  · rintro rfl
    exact Forest.find_inj W.forest hp rfl

/-- A node that is not the root was cut off. -/
theorem execAt_removed {p : List Name} {b : Bool} (W : s.Wf) (hp : s.nodeAt p = some n)
    (hr : n ≠ s.root) (P : Pruned s s' n) (hb : b = true ↔ s.Linked n)
    (C : Forest.Cut s.kids s'.kids n) (happly : s.fs.apply p op = some ([], s.fs.remove p)) :
    s.fs.execAt p op true = (if b then some [] else none, s'.fs) := by
  obtain rfl := hb.mpr (linked_of_inTree (nodeAt_inTree hp) hr)
  have hfs := P.fs_cut W hr C
  rw [W.place_eq_some.mpr hp] at hfs
  rw [hfs]
  exact Fs.execAt_done happly

theorem rm_effect {path : List Char} (W : s.Wf) (h : (rm path).step s = some (r, s')) :
    Effect s (rm path) r s' := by
  obtain ⟨b, hb, rfl⟩ := step_fsOp rfl h
  have hb : s.vfsRm path = (b, s') := Option.some.inj hb
  have hroot : s.vfsResolve path = some s.root → s.vfsRm path = (false, s) := fun hn => by
    rw [vfsRm, hn]
    exact if_pos (.inl rfl)
  have hleaf : ∀ n, (s.node n).type = .file ∨ s.kids n = [] ↔ s.kids n = [] := fun n =>
    or_iff_right_of_imp (W.file_leaf n)
  refine Effect.of W ?_ ?_ ?_
  · intro (hn : s.vfsResolve path = none)
    rw [vfsRm, hn] at hb
    obtain ⟨rfl, rfl⟩ := Prod.mk.inj hb
    exact ⟨rfl, rfl⟩
  · intro n (hn : s.vfsResolve path = some n) hp
    have hr : n ≠ s.root := by
      rintro rfl
      rw [W.place_root] at hp
      cases hp
    by_cases hk : s.kids n = []
    · obtain ⟨P, -, C⟩ := vfsRm_cut W hn hr (.inr hk) hb
      rw [P.fs_cut W hr C, hp]
      rfl
    · rw [vfsRm_nonempty hn fun h => hk ((hleaf n).mp h)] at hb
      rw [(Prod.mk.inj hb).2]
  · intro n p (hn : s.vfsResolve path = some n) hp
    by_cases hr : n = s.root
    · rw [hroot (hr ▸ hn)] at hb
      obtain ⟨rfl, rfl⟩ := Prod.mk.inj hb
      exact Fs.execAt_failed (.inl (if_neg fun h => (ne_nil_iff W hp).mp h.1 hr))
    by_cases hk : s.kids n = []
    · obtain ⟨P, hlink, C⟩ := vfsRm_cut W hn hr (.inr hk) hb
      exact execAt_removed W hp hr P hlink C
        (if_pos ⟨(ne_nil_iff W hp).mpr hr, (empty_iff W hp).mpr hk⟩)
    · rw [vfsRm_nonempty hn fun h => hk ((hleaf n).mp h)] at hb
      obtain ⟨rfl, rfl⟩ := Prod.mk.inj hb
      exact Fs.execAt_failed (.inl (if_neg fun h => hk ((empty_iff W hp).mp h.2)))

theorem rmRecursive_effect {path : List Char} (W : s.Wf)
    (h : (rmRecursive path).step s = some (r, s')) : Effect s (rmRecursive path) r s' := by
  obtain ⟨b, hb, rfl⟩ := step_fsOp rfl h
  have hb : s.vfsRmRecursive path = some (b, s') := hb
  have hcut : ∀ n, s.vfsResolve path = some n → n ≠ s.root →
      Pruned s s' n ∧ (b = true ↔ s.Linked n) ∧ Forest.Cut s.kids s'.kids n := by
    intro n hn hr
    have P := vfsRmRecursive_pruned W hn hb
    rw [vfsRmRecursive, hn] at hb
    simp only at hb
    rw [if_neg hr] at hb
    exact ⟨P, vfsRmRecursiveNode_cut W hr hb⟩
  refine Effect.of W ?_ ?_ ?_
  · intro (hn : s.vfsResolve path = none)
    rw [vfsRmRecursive, hn] at hb
    obtain ⟨rfl, rfl⟩ := Prod.mk.inj (Option.some.inj hb)
    exact ⟨rfl, rfl⟩
  · intro n (hn : s.vfsResolve path = some n) hp
    have hr : n ≠ s.root := by
      rintro rfl
      rw [W.place_root] at hp
      cases hp
    obtain ⟨P, -, C⟩ := hcut n hn hr
    rw [P.fs_cut W hr C, hp]
    rfl
  · intro n p (hn : s.vfsResolve path = some n) hp
    by_cases hr : n = s.root
    · subst hr
      rw [vfsRmRecursive, hn] at hb
      simp only [if_pos] at hb
      obtain ⟨rfl, rfl⟩ := Prod.mk.inj (Option.some.inj hb)
      exact Fs.execAt_failed (.inl (if_neg fun h => (ne_nil_iff W hp).mp h rfl))
    · obtain ⟨P, hlink, C⟩ := hcut n hn hr
      exact execAt_removed W hp hr P hlink C (if_pos ((ne_nil_iff W hp).mpr hr))

theorem chdir_effect {path : List Char} (W : s.Wf) (h : (chdir path).step s = some (r, s')) :
    Effect s (chdir path) r s' := by
  obtain ⟨b, hb, rfl⟩ := step_fsOp rfl h
  have hb : FsOp.vfsChdir s path = (b, s') := Option.some.inj hb
  rw [FsOp.vfsChdir] at hb
  have hcwd : ∀ n, s.vfsResolve path = some n → (s.node n).type = .dir →
      b = true ∧ s'.fs = { s.fs with cwd := s.place n } := by
    intro n hn hd
    rw [hn] at hb
    simp only [if_pos hd] at hb
    obtain ⟨rfl, rfl⟩ := Prod.mk.inj hb
    exact ⟨rfl, W.fs_chdir (W.vfsResolve_lt hn) hd⟩
  have hstay : ∀ n, s.vfsResolve path = some n → (s.node n).type ≠ .dir →
      b = false ∧ s'.fs = s.fs := by
    intro n hn hd
    rw [hn] at hb
    simp only [if_neg hd] at hb
    obtain ⟨rfl, rfl⟩ := Prod.mk.inj hb
    exact ⟨rfl, rfl⟩
  have hlook : s.fs.Knows path → s.SamePlace (s.vfsResolve path) (s.fs.look path) :=
    W.vfsResolve_place
  refine Effect.of W ?_ ?_ ?_
  · intro (hn : s.vfsResolve path = none)
    rw [hn] at hb
    obtain ⟨rfl, rfl⟩ := Prod.mk.inj hb
    exact ⟨rfl, rfl⟩
  · intro n (hn : s.vfsResolve path = some n) hp
    by_cases hd : (s.node n).type = .dir
    · rw [(hcwd n hn hd).2, hp]
      -- only without a working directory does a path lead out of the tree
      have hk : ¬ s.fs.Knows path := fun hk => by
        have hl := hlook hk
        rw [hn] at hl
        obtain ⟨q, -, hq⟩ := samePlace_some hl
        exact W.place_eq_none.mp hp q hq
      have hnone : s.fs.cwd = none := Option.not_isSome_iff_eq_none.mp fun h => hk (.inr h)
      rw [← hnone]
    · exact (hstay n hn hd).2
  · intro n p (hn : s.vfsResolve path = some n) hp
    have hentry : s.fs.entry p = some (s.item n) := tree_eq hp
    by_cases hd : (s.node n).type = .dir
    · obtain ⟨rfl, hfs⟩ := hcwd n hn hd
      rw [W.place_eq_some.mpr hp] at hfs
      rw [hfs]
      exact Fs.execAt_done (if_pos (hentry.trans (congrArg some (item_eq_dir.mpr hd))))
    · obtain ⟨rfl, hfs⟩ := hstay n hn hd
      rw [hfs]
      refine Fs.execAt_failed (.inl (if_neg fun h => hd (item_eq_dir.mp ?_)))
      exact Option.some.inj (hentry.symm.trans h)

/-- The bytes of a file of the tree are seen at its place. -/
theorem stored_fs {f : FsOp} {g : List Char → List Char} {b : Bool} (W : s.Wf) (H : s.HeapOk)
    (hon : f.onContents)
    (hg : FsOp.replay s.contents (f, b) =
      if b then Function.update s.contents n (g (s.contents n)) else s.contents)
    (hfile : (s.node n).type = .file) (hb : f.step s = some (b, s')) :
    s'.fs = if b then (s.place n).elim s.fs fun p => s.fs.put p (.file (g (s.contents n)))
      else s.fs := by
  have T := FsOp.step_sameTree hb hon
  have hc := (FsOp.step_contents W H hb).2
  rw [hg] at hc
  cases b with
  | false => exact T.fs W hc
  | true => exact T.fs_store W hfile hc

/-- A call on the bytes of a file: the function of `vfs.c` that is called, the bytes that it is to
leave there, and what the call means. -/
theorem store_effect (path : List Char) {f : Nat → FsOp} {g : List Char → List Char}
    (W : s.Wf) (H : s.HeapOk) (hnode : op.node s = s.vfsResolve path)
    (hf : op.fsOp s = (onFile s path).map f) (hrest : op.rest s = some (none, s))
    (hon : ∀ n, (f n).onContents)
    (hg : ∀ n b, FsOp.replay s.contents (f n, b) =
      if b then Function.update s.contents n (g (s.contents n)) else s.contents)
    (hgranted : ∀ n b s₁, onFile s path = some n → (f n).step s = some (b, s₁) →
      op.granted s = b)
    (happly : ∀ p, s.fs.apply p op = match s.fs.entry p with
      | some (.file old) => some ([], s.fs.put p (.file (g old)))
      | _ => none)
    (h : op.step s = some (r, s')) : Effect s op r s' := by
  -- without a file nothing is called
  have hno : onFile s path = none → r = none ∧ s' = s := fun ho => by
    rw [step, hf, ho, Option.map_none] at h
    obtain ⟨rfl, rfl⟩ := Prod.mk.inj (Option.some.inj (hrest.symm.trans h))
    exact ⟨rfl, rfl⟩
  have hyes : ∀ n, onFile s path = some n → (s.node n).type = .file ∧ ∃ b : Bool,
      r = (if b then some [] else none) ∧ (f n).step s = some (b, s') := fun n hn => by
    have hfile := (Option.filter_eq_some_iff.mp hn).2
    obtain ⟨b, hb, hr⟩ := step_fsOp (f := f n) (by rw [hf, hn]; rfl) h
    exact ⟨of_decide_eq_true hfile, b, hr, hb⟩
  have hcall : ∀ n b, (s.node n).type = .file → (f n).step s = some (b, s') →
      s'.fs = if b then (s.place n).elim s.fs fun p => s.fs.put p (.file (g (s.contents n)))
        else s.fs := fun n b hfile hb => stored_fs W H (hon n) (hg n b) hfile hb
  refine Effect.of W ?_ ?_ ?_
  · intro hn
    rw [hnode] at hn
    obtain ⟨hr, rfl⟩ := hno (by rw [onFile, hn]; rfl)
    exact ⟨hr, rfl⟩
  · intro n hn hp
    rw [hnode] at hn
    cases ho : onFile s path with
    | none => rw [(hno ho).2]
    | some m =>
      obtain rfl : n = m := by
        have hm := (Option.filter_eq_some_iff.mp ho).1
        exact Option.some.inj (hn.symm.trans hm)
      obtain ⟨hfile, b, -, hb⟩ := hyes n ho
      rw [hcall n b hfile hb, hp]
      cases b with
      | false => rfl
      | true => rfl
  · intro n p hn hp
    rw [hnode] at hn
    have hentry : s.fs.entry p = some (s.item n) := tree_eq hp
    cases ht : (s.node n).type with
    | dir =>
      have ho : onFile s path = none := by
        rw [onFile, hn]
        simp [ht]
      obtain ⟨rfl, rfl⟩ := hno ho
      refine Fs.execAt_failed (.inl ?_)
      rw [happly, hentry, item_eq_dir.mpr ht]
    | file =>
      have ho : onFile s path = some n := by
        rw [onFile, hn]
        simp [ht]
      obtain ⟨-, b, rfl, hb⟩ := hyes n ho
      have hfs := hcall n b ht hb
      rw [hgranted n b s' ho hb]
      cases b with
      | false =>
        rw [show s'.fs = s.fs from hfs]
        exact Fs.execAt_failed (.inr rfl)
      | true =>
        rw [W.place_eq_some.mpr hp] at hfs
        rw [hfs]
        refine Fs.execAt_done ?_
        rw [happly, hentry, item_of_file ht]
        rfl

theorem read_effect {path : List Char} (W : s.Wf) (h : (read path).step s = some (r, s')) :
    Effect s (read path) r s' := by
  obtain ⟨rfl, rfl⟩ := Prod.mk.inj (Option.some.inj h)
  refine Effect.of W ?_ (fun _ _ _ => rfl) ?_
  · intro (hn : s.vfsResolve path = none)
    rw [onFile, hn]
    exact ⟨rfl, rfl⟩
  · intro n p (hn : s.vfsResolve path = some n) hp
    have hentry : s.fs.entry p = some (s.item n) := tree_eq hp
    rw [onFile, hn]
    cases ht : (s.node n).type with
    | dir =>
      rw [Option.filter_some, if_neg (by simp [ht])]
      refine Fs.execAt_failed (.inl ?_)
      rw [Fs.apply, hentry, item_eq_dir.mpr ht]
    | file =>
      rw [Option.filter_some, if_pos (by simp [ht])]
      refine Fs.execAt_done ?_
      rw [Fs.apply, hentry, item_of_file ht]

theorem write_granted {path : List Char} {data : { l : List Char // l.length ≤ ADDRESS_SPACE }}
    {b : Bool} (H : s.HeapOk) (hn : onFile s path = some n)
    (h : (FsOp.writeFile n (.ext data.1 data.2)).step s = some (b, s')) :
    (write path data).granted s = b := by
  have hfile := of_decide_eq_true (Option.filter_eq_some_iff.mp hn).2
  rw [granted, requests, hn]
  rw [FsOp.step] at h
  split at h
  · have hb := congrArg Prod.fst (Option.some.inj h)
    exact (H.vfsWriteFile_fst hfile _).symm.trans hb
  · cases h

theorem append_granted {path : List Char} {data : { l : List Char // l.length ≤ ADDRESS_SPACE }}
    {b : Bool} (H : s.HeapOk) (hn : onFile s path = some n)
    (h : (FsOp.appendFile n (.ext data.1 data.2)).step s = some (b, s')) :
    (append path data).granted s = b := by
  have hfile := of_decide_eq_true (Option.filter_eq_some_iff.mp hn).2
  rw [granted, requests, hn]
  rw [FsOp.step] at h
  split at h
  · have hb := congrArg Prod.fst (Option.some.inj h)
    exact (H.vfsAppendFile_fst hfile _).symm.trans hb
  · cases h

theorem step_effect (W : s.Wf) (H : s.HeapOk) (h : op.step s = some (r, s')) :
    Effect s op r s' := by
  cases op with
  | make type path => exact make_effect W H h
  | rm path => exact rm_effect W h
  | rmRecursive path => exact rmRecursive_effect W h
  | chdir path => exact chdir_effect W h
  | write path data =>
    exact store_effect path W H (f := fun n => .writeFile n (.ext data.1 data.2))
      (g := fun _ => data) rfl rfl rfl (fun _ => trivial)
      (fun n b => by cases b with | false => rfl | true => rfl)
      (fun n b s₁ hn hb => write_granted H hn hb) (fun _ => rfl) h
  | append path data =>
    exact store_effect path W H (f := fun n => .appendFile n (.ext data.1 data.2))
      (g := fun old => old ++ data) rfl rfl rfl (fun _ => trivial)
      (fun n b => by cases b with | false => rfl | true => rfl)
      (fun n b s₁ hn hb => append_granted H hn hb) (fun _ => rfl) h
  | truncate path =>
    refine store_effect path W H (f := .truncate) (g := fun _ => []) rfl rfl rfl
      (fun _ => trivial) (fun n b => ?_) (fun n b s₁ _ hb => ?_) (fun _ => rfl) h
    · cases b with
      | false => rfl
      | true => rfl
    · -- nothing is asked for, and the answer is always 1
      rw [FsOp.step] at hb
      split at hb
      · exact (Prod.mk.inj (Option.some.inj hb)).1
      · cases hb
  | read path => exact read_effect W h
  | alloc size =>
    obtain ⟨rfl, T, U⟩ := step_alloc H h
    exact ⟨fun _ => rfl, fun _ => T.fs W (U.contents H.toBuffers), fun p hp => by cases hp⟩

/-- A call whose path has a meaning; the heap's verdict on it belongs to the answer. -/
def meantStep (op : PathOp) (s : Vfs) : Option ((Reply × Bool) × Vfs) :=
  if s.fs.means op then (op.step s).map fun (r, s') => ((r, op.granted s), s') else none

theorem meantStep_some {a : Reply × Bool} (h : op.meantStep s = some (a, s')) :
    s.fs.means op = true ∧ op.step s = some (a.1, s') ∧ a.2 = op.granted s := by
  rw [meantStep] at h
  split at h
  · rename_i hk
    obtain ⟨⟨r, t⟩, ht, he⟩ := Option.map_eq_some_iff.mp h
    obtain ⟨rfl, rfl⟩ := Prod.mk.inj he
    exact ⟨hk, ht, rfl⟩
  · cases h

end PathOp

/-- A step of the map, with the answer and the verdict of the heap. -/
def Fs.Step (F : Fs) (op : PathOp) (a : Reply × Bool) (F' : Fs) : Prop := F.exec op a.2 = (a.1, F')

/-- Whatever is called, in any order and with any refusals of the heap, the answers and the tree are
those of the calls on a map from paths. A call fails, and changes nothing, exactly when the map has
it so or the heap refuses a block. -/
theorem vfs_refines {s₀ s : Vfs} {tr : List (PathOp × Reply × Bool)} (h : Running s₀)
    (H : Trace.Run PathOp.meantStep s₀ tr s) : Trace.Follows Fs.Step s₀.fs tr s.fs := by
  refine H.follows (I := fun s => s.Wf ∧ s.HeapOk) (fun op a s s' I hs => ?_)
    (fun op a s s' I hs => ?_) ⟨h.wf, h.heapOk⟩
  · exact PathOp.step_keeps I.1 I.2 (PathOp.meantStep_some hs).2.1
  · obtain ⟨hk, hstep, hheap⟩ := PathOp.meantStep_some hs
    rw [Fs.Step, hheap]
    exact (PathOp.step_effect I.1 I.2 hstep).exec I.1 hk

/-- A file is written in a new directory, and the directory removed while it is the working one.
Then the rest of the heap is taken: nothing new can be made, but what is there can be read. -/
def pathCalls : List PathOp :=
  [.make .dir "/tmp/d".toList, .chdir "/tmp/d".toList, .make .file "f".toList,
    .write "./f".toList ⟨['a', 'b'], Nat.le_of_ble_eq_true rfl⟩,
    .append "../d/f".toList ⟨['c'], Nat.le_of_ble_eq_true rfl⟩, .read "/tmp/d/f".toList,
    .rm "/tmp/d".toList, .rmRecursive "/tmp/d".toList, .read "/tmp/d/f".toList,
    .alloc 16774000, .make .file "/tmp/g".toList, .truncate "/etc/hostname".toList,
    .read "/etc/hostname".toList]

theorem vfs_refines_calls : ∃ tr s, Trace.Run PathOp.meantStep bootVfs tr s ∧
    tr.map Prod.snd = [(some [], true), (some [], true), (some [], true), (some [], true),
      (some [], true), (some ['a', 'b', 'c'], true), (none, true), (some [], true), (none, true),
      (none, true), (none, false), (some [], true), (some [], true)] ∧
    Trace.Follows Fs.Step bootVfs.fs tr s.fs := by
  have h : (Trace.exec PathOp.meantStep pathCalls bootVfs).any fun r =>
      r.1.map Prod.snd = [(some [], true), (some [], true), (some [], true), (some [], true),
        (some [], true), (some ['a', 'b', 'c'], true), (none, true), (some [], true), (none, true),
        (none, true), (none, false), (some [], true), (some [], true)] := by
    rw [bootVfs_spelled]
    decide +kernel
  obtain ⟨⟨tr, s⟩, hs, hr⟩ := exists_of_any h
  have H := Trace.Run.of_exec _ hs
  exact ⟨tr, s, H, hr, vfs_refines (.boot bootVfs_booted) H⟩

/-! ## What was written is read back -/

namespace Fs

variable {F F' : Fs} {op : PathOp} {r : Reply} {p q : List Name} {path data : List Char}
variable {granted : Bool}

/-- Done at the place `q`, the call does not write to the file at `p`, and does not remove what it
is in. -/
def avoids (p q : List Name) : PathOp → Bool
  | .write .. | .append .. | .truncate _ => q ≠ p
  | .rm _ | .rmRecursive _ => ¬ q <+: p
  | _ => true

theorem put_keeps {e : PathMap.Item (List Char)} (he : F.entry p = some (.file data))
    (hq : q ≠ p) : (F.put q e).entry p = some (.file data) := (PathMap.put_of_ne hq.symm).trans he

theorem remove_keeps (he : F.entry p = some (.file data)) (hq : ¬ q <+: p) :
    (F.remove q).entry p = some (.file data) := (PathMap.cut_beside hq).trans he

theorem apply_keeps {text : List Char} (h : F.apply q op = some (text, F'))
    (hs : avoids p q op = true) (he : F.entry p = some (.file data)) :
    F'.entry p = some (.file data) := by
  cases op with
  | make type path =>
    rw [apply] at h
    split at h
    · rename_i hmake
      obtain ⟨-, rfl⟩ := Prod.mk.inj (Option.some.inj h)
      refine put_keeps he fun hq => ?_
      rw [hq, he] at hmake
      cases hmake.2.2
    · cases h
  | rm path | rmRecursive path =>
    rw [apply] at h
    split at h
    · obtain ⟨-, rfl⟩ := Prod.mk.inj (Option.some.inj h)
      exact remove_keeps he (of_decide_eq_true hs)
    · cases h
  | chdir path | read path =>
    rw [apply] at h
    split at h
    · obtain ⟨-, rfl⟩ := Prod.mk.inj (Option.some.inj h)
      exact he
    · cases h
  | write path _ | append path _ | truncate path =>
    rw [apply] at h
    split at h
    · obtain ⟨-, rfl⟩ := Prod.mk.inj (Option.some.inj h)
      exact put_keeps he (of_decide_eq_true hs)
    · cases h
  | alloc size => cases h

/-- A write that succeeded. -/
theorem execAt_written {data : { l : List Char // l.length ≤ ADDRESS_SPACE }} {text : List Char}
    (h : F.execAt p (.write path data) granted = (some text, F')) :
    F'.entry p = some (.file data) := by
  have happly := execAt_some h
  rw [apply] at happly
  split at happly
  · obtain ⟨-, rfl⟩ := Prod.mk.inj (Option.some.inj happly)
    exact PathMap.put_self
  · cases happly

end Fs

namespace PathOp

variable {s s' : Vfs} {op : PathOp} {r : Reply} {p : List Name} {path data : List Char}

/-- The call neither writes to the file at the place nor removes what it is in, wherever its path
leads to. -/
def spares (s : Vfs) (p : List Name) (op : PathOp) : Bool :=
  ((op.node s).bind s.place).all fun q => Fs.avoids p q op

/-- A call that spares the file, or fails. -/
def sparingStep (p : List Name) (op : PathOp) (s : Vfs) : Option (Reply × Vfs) :=
  (op.step s).filter fun a => a.1 = none ∨ op.spares s p

theorem sparingStep_some (h : op.sparingStep p s = some (r, s')) :
    op.step s = some (r, s') ∧ (r = none ∨ op.spares s p = true) := by
  obtain ⟨hstep, hs⟩ := Option.filter_eq_some_iff.mp h
  exact ⟨hstep, of_decide_eq_true hs⟩

theorem Effect.spared (E : Effect s op r s') (hs : r = none ∨ op.spares s p = true)
    (he : s.fs.entry p = some (.file data)) : s'.fs.entry p = some (.file data) := by
  cases hq : (op.node s).bind s.place with
  | none => rw [E.outside hq, he]
  | some q =>
    have hexec := E.inside q hq
    cases r with
    | none => rw [Fs.execAt_none hexec, he]
    | some text =>
      have hspares := hs.resolve_left (Option.some_ne_none text)
      rw [spares, hq, Option.all_some] at hspares
      exact Fs.apply_keeps (Fs.execAt_some hexec) hspares he

end PathOp

/-- What was written to a file of the tree is read back, by whatever path it is found then, as long
as no call succeeds in writing to it or in removing it or a directory above it. -/
theorem read_back {s s₁ s₂ : Vfs} {path path' : List Char} {p : List Name}
    {data : { l : List Char // l.length ≤ ADDRESS_SPACE }} {tr : List (PathOp × Reply)}
    (h : Running s) (hp : s.placeOf path = some p)
    (hw : (PathOp.write path data).step s = some (some [], s₁))
    (H : Trace.Run (PathOp.sparingStep p) s₁ tr s₂) (hp' : s₂.placeOf path' = some p) :
    (PathOp.read path').step s₂ = some (some data.1, s₂) := by
  have hkeeps := PathOp.step_keeps h.wf h.heapOk hw
  have hwritten := Fs.execAt_written ((PathOp.step_effect h.wf h.heapOk hw).inside p hp)
  obtain ⟨W, -, he⟩ : s₂.Wf ∧ s₂.HeapOk ∧ s₂.fs.entry p = some (.file data.1) := by
    refine H.inv (I := fun t => t.Wf ∧ t.HeapOk ∧ t.fs.entry p = some (.file data.1))
      (fun op r t u I hs => ?_) ⟨hkeeps.1, hkeeps.2, hwritten⟩
    obtain ⟨hstep, hspares⟩ := PathOp.sparingStep_some hs
    obtain ⟨W', H'⟩ := PathOp.step_keeps I.1 I.2.1 hstep
    exact ⟨W', H', (PathOp.step_effect I.1 I.2.1 hstep).spared hspares I.2.2⟩
  obtain ⟨r, hr⟩ : ∃ r, (PathOp.read path').step s₂ = some (r, s₂) := ⟨_, rfl⟩
  have happly : s₂.fs.apply p (.read path') = some (data.1, s₂.fs) := by rw [Fs.apply, he]
  have hread := (PathOp.read_effect W hr).inside p hp'
  have hgranted : PathOp.granted s₂ (.read path') = true := rfl
  rw [hgranted, Fs.execAt_done happly] at hread
  rw [hr, (Prod.mk.inj hread).1]

/-- `/home` is removed while the working directory is below it, a file is made and written from
there, `rm` fails for a directory with entries, and another file gets longer. -/
def sparingCalls : List PathOp :=
  [.chdir "/home/user".toList, .rmRecursive "/home".toList, .make .file "g".toList,
    .write "g".toList ⟨['d'], Nat.le_of_ble_eq_true rfl⟩, .rm "/etc".toList,
    .append "../../etc/hostname".toList ⟨['c'], Nat.le_of_ble_eq_true rfl⟩, .alloc 100]

theorem read_back_motd : ∃ s₁ tr s₂,
    (PathOp.write "/etc/motd".toList ⟨['a', 'b'], Nat.le_of_ble_eq_true rfl⟩).step bootVfs =
        some (some [], s₁) ∧
      Trace.Run (PathOp.sparingStep ["etc".toList, "motd".toList]) s₁ tr s₂ ∧
      tr.map Prod.snd = [some [], some [], some [], some [], none, some [], none] ∧
      (PathOp.read "../../etc/./motd".toList).step s₂ = some (some ['a', 'b'], s₂) := by
  have h : bootVfs.placeOf "/etc/motd".toList = some ["etc".toList, "motd".toList] ∧
      ((PathOp.write "/etc/motd".toList ⟨['a', 'b'], Nat.le_of_ble_eq_true rfl⟩).step
        bootVfs).any fun w => w.1 = some [] ∧
        ((Trace.exec (PathOp.sparingStep ["etc".toList, "motd".toList])
          sparingCalls w.2).any fun r =>
          r.1.map Prod.snd = [some [], some [], some [], some [], none, some [], none] ∧
          r.2.placeOf "../../etc/./motd".toList = some ["etc".toList, "motd".toList]) = true := by
    rw [bootVfs_spelled]
    decide +kernel
  obtain ⟨hp, hw⟩ := h
  obtain ⟨⟨_, s₁⟩, hw, rfl, hrun⟩ := exists_of_any hw
  obtain ⟨⟨tr, s₂⟩, hs, hr, hp'⟩ := exists_of_any hrun
  have H := Trace.Run.of_exec _ hs
  exact ⟨s₁, tr, s₂, hw, H, hr, read_back (.boot bootVfs_booted) hp hw H hp'⟩

end BojanOS
