import BojanOS.Vfs.Init
import BojanOS.Vfs.Remove
import BojanOS.Lib.Trace

/-!
# Runs of the filesystem

A run starts in a state that `vfs_init` leaves behind and applies operations, each with a verdict
of the environment on every `kmalloc`. An operation has no step where the source would leave its
memory: a node number that was never handed out, a source range past the end of a file, a last
component that does not fit `char name[VFS_NAME_MAX]`. Everywhere else it has one (`FsOp.step`
is a function), and the tree keeps its shape along every run.
-/

namespace BojanOS

/-- The size of the address space: no object has more bytes. -/
def ADDRESS_SPACE : Nat := 2 ^ 48

/-- Where the caller's bytes are: outside the heap, or the first `len` bytes of a file. -/
inductive Bytes where
  | ext (bytes : List Char) (fits : bytes.length ≤ ADDRESS_SPACE)
  | file (m len : Nat)

/-- The pointer and the length that the operation receives. -/
def Bytes.arg (s : Vfs) : Bytes → Option (Src × Nat)
  | .ext bytes _ => some (.ext bytes, bytes.length)
  | .file m len =>
    if m < s.next ∧ len ≤ (s.node m).size then
      match (s.node m).data with
      | none => some (.ext [], 0)
      | some d => some (.heap d, len)
    else none

inductive FsOp where
  | mkfile (path : List Char)
  | mkdir (path : List Char)
  | rm (path : List Char)
  | rmRecursive (path : List Char)
  | writeFile (n : Nat) (data : Bytes)
  | appendFile (n : Nat) (data : Bytes)
  | truncate (n : Nat)
  | chdir (path : List Char)

namespace FsOp

/-- `vfs_cwd` becomes the directory that the path resolves to. -/
def vfsChdir (s : Vfs) (path : List Char) : Bool × Vfs :=
  match s.vfsResolve path with
  | none => (false, s)
  | some n => if (s.node n).type = .dir then (true, { s with cwd := n }) else (false, s)

def step (op : FsOp) (s : Vfs) : Option (Bool × Vfs) :=
  match op with
  | mkfile path => s.vfsMkfile path
  | mkdir path => s.vfsMkdir path
  | rm path => some (s.vfsRm path)
  | rmRecursive path => s.vfsRmRecursive path
  | writeFile n data =>
    if n < s.next then (data.arg s).map fun (src, len) => s.vfsWriteFile n src len else none
  | appendFile n data =>
    if n < s.next then (data.arg s).map fun (src, len) => s.vfsAppendFile n src len else none
  | truncate n => if n < s.next then some (true, s.vfsTruncate n) else none
  | chdir path => some (vfsChdir s path)

/-- The operations that only touch file contents. -/
def onContents : FsOp → Prop
  | writeFile .. | appendFile .. | truncate .. => True
  | _ => False

variable {s s' : Vfs} {op : FsOp} {b : Bool}

theorem step_sameTree (h : op.step s = some (b, s')) (hop : op.onContents) : s.SameTree s' := by
  cases op with
  | writeFile n data =>
    rw [step] at h
    split at h
    · obtain ⟨⟨src, len⟩, -, h⟩ := Option.map_eq_some_iff.mp h
      have hs : (s.vfsWriteFile n src len).2 = s' := congrArg Prod.snd h
      exact hs ▸ s.vfsWriteFile_sameTree n src len
    · cases h
  | appendFile n data =>
    rw [step] at h
    split at h
    · obtain ⟨⟨src, len⟩, -, h⟩ := Option.map_eq_some_iff.mp h
      have hs : (s.vfsAppendFile n src len).2 = s' := congrArg Prod.snd h
      exact hs ▸ s.vfsAppendFile_sameTree n src len
    · cases h
  | truncate n =>
    rw [step] at h
    split at h
    · obtain ⟨-, rfl⟩ : true = b ∧ _ = s' := by simpa using h
      exact s.vfsTruncate_sameTree n
    · cases h
  | _ => exact hop.elim

/-- One operation keeps the shape of the tree. -/
theorem step_wf (W : s.Wf) (h : op.step s = some (b, s')) : s'.Wf := by
  cases op with
  | mkfile path => exact W.vfsMknode h
  | mkdir path => exact W.vfsMknode h
  | rm path =>
    have hs : (s.vfsRm path).2 = s' := congrArg Prod.snd (Option.some.inj h)
    exact hs ▸ W.vfsRm path
  | rmRecursive path => exact W.vfsRmRecursive h
  | writeFile n data => exact (step_sameTree h trivial).wf W
  | appendFile n data => exact (step_sameTree h trivial).wf W
  | truncate n => exact (step_sameTree h trivial).wf W
  | chdir path =>
    have hs : (vfsChdir s path).2 = s' := congrArg Prod.snd (Option.some.inj h)
    rw [← hs, vfsChdir]
    cases hn : s.vfsResolve path with
    | none => exact W
    | some n =>
      simp only
      split
      · rename_i hd
        exact W.chdir (W.vfsResolve_lt hn) hd
      · exact W

/-- What the caller of an operation has to see to. -/
def Valid (s : Vfs) : FsOp → Prop
  | mkfile path | mkdir path => (s.vfsResolveParent path).2.length < VFS_NAME_MAX
  | writeFile n data | appendFile n data => n < s.next ∧ (data.arg s).isSome
  | truncate n => n < s.next
  | rm _ | rmRecursive _ | chdir _ => True

theorem vfsMknode_isSome (s : Vfs) (t : FsType) (path : List Char) :
    (s.vfsMknode t path).isSome ↔ (s.vfsResolveParent path).2.length < VFS_NAME_MAX := by
  rw [Vfs.vfsMknode, ← Nat.not_le]
  rcases s.vfsResolveParent path with ⟨p, name⟩
  simp only
  split
  · rename_i h
    simp [h]
  · rename_i h
    cases p with
    | none => simp [h]
    | some p => simp only [h]; split_ifs <;> [simp; simp; (split <;> simp)]

/-- Nothing else can go wrong; `vfs_rm_recursive` ends. -/
theorem step_isSome (W : s.Wf) (op : FsOp) : (op.step s).isSome ↔ op.Valid s := by
  cases op with
  | mkfile path => exact vfsMknode_isSome s .file path
  | mkdir path => exact vfsMknode_isSome s .dir path
  | rm path => exact iff_of_true rfl trivial
  | rmRecursive path =>
    obtain ⟨b, s', h⟩ := Vfs.vfsRmRecursive_total W path
    rw [step, h]
    exact iff_of_true rfl trivial
  | writeFile n data => rw [step, Valid]; split <;> simp [*]
  | appendFile n data => rw [step, Valid]; split <;> simp [*]
  | truncate n => rw [step, Valid]; split <;> simp [*]
  | chdir path => exact iff_of_true rfl trivial

end FsOp

/-- A state that a run of operations leads to. -/
def Reachable (s : Vfs) : Prop := ∃ s₀ tr, Booted s₀ ∧ Trace.Run FsOp.step s₀ tr s

theorem Reachable.wf {s : Vfs} (h : Reachable s) : s.Wf := by
  obtain ⟨s₀, tr, hb, hr⟩ := h
  exact hr.inv (fun _ _ _ _ => FsOp.step_wf) hb.wf

theorem Reachable.step {s s' : Vfs} {op : FsOp} {b : Bool} (h : Reachable s)
    (hs : op.step s = some (b, s')) : Reachable s' := by
  obtain ⟨s₀, tr, hb, hr⟩ := h
  exact ⟨s₀, _, hb, hr.snoc hs⟩

namespace Vfs

/-- What a reader of the tree relies on, in terms of the nodes below `vfs_root` only. -/
structure TreeShape (s : Vfs) : Prop where
  finite : {n | s.InTree n}.Finite
  one_path : ∀ n, s.InTree n →
    ∃ l, Forest.Path s.kids s.root l n ∧ ∀ l', Forest.Path s.kids s.root l' n → l' = l
  root_once : ∀ p, s.InTree p → s.root ∉ s.kids p
  once : ∀ n, s.InTree n → n ≠ s.root → ∃ p, s.par n = some p ∧ s.InTree p ∧
    (s.kids p).count n = 1 ∧ ∀ q, s.InTree q → q ≠ p → n ∉ s.kids q
  cap : ∀ n, s.InTree n → (s.kids n).length ≤ (s.node n).childCap
  file_leaf : ∀ n, s.InTree n → (s.node n).type = .file → s.kids n = []
  names : ∀ p, s.InTree p → ((s.kids p).map s.nameOf).Nodup
  name_ok : ∀ p, s.InTree p → ∀ c ∈ s.kids p, s.nameOf c ≠ [] ∧ (s.nameOf c).length ≤ 63

theorem Wf.inTree_lt {s : Vfs} {n : Nat} (W : Wf s) (h : s.InTree n) : n < s.next :=
  h.mem_of_closed (S := {n | n < s.next}) W.root_lt fun _ _ _ hc => W.kid_lt hc

theorem Wf.treeShape {s : Vfs} (W : Wf s) : TreeShape s where
  finite := (Set.finite_lt_nat s.next).subset fun _ h => W.inTree_lt h
  one_path n h := by
    obtain ⟨l, hl⟩ := h.exists_path
    exact ⟨l, hl, fun l' hl' => W.forest.path_unique hl' hl⟩
  root_once p _ := W.forest.root_not_mem p
  once n h hr := by
    obtain ⟨p, hp, hc⟩ := Forest.parent_below h hr
    refine ⟨p, W.forest.par_eq hc, hp, W.forest.count_eq_one hc, fun q _ hq hcq => ?_⟩
    exact hq (W.forest.eq_of_mem hcq hc)
  cap n _ := W.cap n
  file_leaf n _ := W.file_leaf n
  names p _ := W.names p
  name_ok p _ c hc := ⟨(W.name_ok hc).1, Nat.le_of_lt_succ (W.name_ok hc).2⟩

end Vfs

/-- In every reachable state the nodes below the root form a finite tree with consistent parent
fields and child arrays. -/
theorem tree_shape {s : Vfs} (h : Reachable s) : s.TreeShape := h.wf.treeShape

/-! ## A machine with 64 MB that refuses no request -/

/-- A text as the list of its characters. Where the kernel meets a string literal it decodes it,
which takes longer than all the rest of `vfs_init`. -/
abbrev Spelled (text : List Char) := { l : List Char // text = l }

def Spelled.append {a b : List Char} (x : Spelled a) (y : Spelled b) : Spelled (a ++ b) :=
  ⟨x.val ++ y.val, congrArg₂ (· ++ ·) x.property y.property⟩

def spelledMotd : Spelled Vfs.motdText :=
  .append ⟨_, String.toList_ofList⟩ ⟨_, String.toList_ofList⟩

def spelledOsRelease : Spelled Vfs.osReleaseText :=
  .append ⟨_, String.toList_ofList⟩ ⟨_, String.toList_ofList⟩

def spelledReadme : Spelled Vfs.readmeText :=
  .append (.append (.append (.append (.append (.append (.append
    ⟨_, String.toList_ofList⟩ ⟨_, String.toList_ofList⟩) ⟨_, String.toList_ofList⟩)
    ⟨_, String.toList_ofList⟩) ⟨_, String.toList_ofList⟩) ⟨_, String.toList_ofList⟩)
    ⟨_, String.toList_ofList⟩) ⟨_, String.toList_ofList⟩

def spelledInit : { o : Option Vfs // Vfs.vfsInit bootRam = o } :=
  ⟨_, by rw [Vfs.vfsInit, spelledMotd.property, spelledOsRelease.property,
    spelledReadme.property]⟩

theorem bootRam_boots : (Vfs.vfsInit bootRam).isSome := by
  rw [spelledInit.property]
  decide +kernel

def bootVfs : Vfs := (Vfs.vfsInit bootRam).get bootRam_boots

def spelledVfs : Vfs := spelledInit.val.get (spelledInit.property ▸ bootRam_boots)

/-- For the kernel to evaluate. -/
theorem bootVfs_spelled : bootVfs = spelledVfs := by
  apply Option.some.inj
  rw [bootVfs, Option.some_get, spelledVfs, Option.some_get]
  exact spelledInit.property

/-- What an evaluation has found. -/
theorem exists_of_any {α : Type} {o : Option α} {p : α → Prop} [DecidablePred p]
    (h : (o.any fun a => p a) = true) : ∃ a, o = some a ∧ p a := by
  obtain ⟨a, ha, hp⟩ := (Option.any_eq_true _ _).mp h
  exact ⟨a, ha, of_decide_eq_true hp⟩

theorem bootVfs_booted : Booted bootVfs := ⟨65536, _, _, (Option.some_get bootRam_boots).symm⟩

theorem bootVfs_reachable : Reachable bootVfs := ⟨_, [], bootVfs_booted, .nil⟩

/-- The working directory is made, entered and removed, and a file is created in what is left. -/
def removedCwd : List FsOp :=
  [.mkdir "/tmp/d".toList, .chdir "/tmp/d".toList, .rm "/tmp/d".toList, .mkfile "f".toList]

theorem Reachable.run {s s' : Vfs} {tr : List (FsOp × Bool)} (h : Reachable s)
    (hr : Trace.Run FsOp.step s tr s') : Reachable s' := by
  obtain ⟨s₀, tr', hb, hr'⟩ := h
  exact ⟨s₀, _, hb, hr'.trans hr⟩

theorem removedCwd_shape : ∃ tr s, Trace.exec FsOp.step removedCwd bootVfs = some (tr, s) ∧
    s.TreeShape := by
  have h : (Trace.exec FsOp.step removedCwd bootVfs).isSome := by
    rw [bootVfs_spelled]
    decide +kernel
  obtain ⟨⟨tr, s⟩, hs⟩ := Option.isSome_iff_exists.mp h
  exact ⟨tr, s, hs, tree_shape (bootVfs_reachable.run (.of_exec _ hs))⟩

end BojanOS
