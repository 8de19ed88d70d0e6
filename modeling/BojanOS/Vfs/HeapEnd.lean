import BojanOS.Vfs.Appends

/-!
# The end of the heap

`kheap_init` sets the end, `total`, and no request moves it, so a running system has the 16 MiB of
the region at most.
-/

namespace BojanOS

namespace Vfs

variable {s s' : Vfs} {n p : Nat} {t : FsType} {b : Bool} {o : Option Nat}

@[simp] theorem makeNode_total (s : Vfs) (t : FsType) (name : List Char) (p : Option Nat) :
    (s.makeNode t name p).2.ram.heap.total = s.ram.total := by
  have h := s.ram.kzalloc_total SIZEOF_VNODE
  rw [makeNode]
  split
  · rename_i hk
    rwa [hk] at h
  · rename_i hk
    rwa [hk] at h

@[simp] theorem addChild_total (s : Vfs) (p n : Nat) :
    (s.addChild p n).2.ram.heap.total = s.ram.total := by
  rw [addChild]
  simp only
  split
  · have h := s.ram.kmalloc_total
      ((if (s.node p).childCap ≠ 0 then (s.node p).childCap * 2 else 8) * SIZEOF_PTR)
    split
    · rename_i hk
      rwa [hk] at h
    · rename_i hk
      rwa [hk] at h
  · rfl

theorem growFile_total (s : Vfs) (n need : Nat) :
    (s.growFile n need).2.ram.heap.total = s.ram.total := by
  rw [growFile]
  split
  · have h := s.ram.kmalloc_total (newCap (s.node n) need)
    split
    · rename_i hk
      rwa [hk] at h
    · rename_i hk
      rwa [hk] at h
  · rfl

@[simp] theorem vfsWriteFile_total (s : Vfs) (n : Nat) (data : Src) (len : Nat) :
    (s.vfsWriteFile n data len).2.ram.heap.total = s.ram.total := by
  have h := s.growFile_total n (len + 1)
  rw [vfsWriteFile]
  split
  · rfl
  · split
    · rename_i hg
      rwa [hg] at h
    · rename_i hg
      rwa [hg] at h

@[simp] theorem vfsAppendFile_total (s : Vfs) (n : Nat) (data : Src) (len : Nat) :
    (s.vfsAppendFile n data len).2.ram.heap.total = s.ram.total := by
  have h := s.growFile_total n ((s.node n).size + len + 1)
  rw [vfsAppendFile]
  split
  · rfl
  · split
    · rename_i hg
      rwa [hg] at h
    · rename_i hg
      rwa [hg] at h

@[simp] theorem vfsTruncate_total (s : Vfs) (n : Nat) :
    (s.vfsTruncate n).ram.heap.total = s.ram.total := by
  rw [vfsTruncate]
  split
  · rfl
  · rfl

theorem vfsMknode_total {path : List Char} (h : s.vfsMknode t path = some (b, s')) :
    s'.ram.heap.total = s.ram.total := by
  rcases vfsMknode_cases h with ⟨-, rfl⟩ | ⟨p, name, -, -, -, -, -, hcase⟩
  · rfl
  have hm := s.makeNode_total t name (some p)
  rcases hcase with ⟨-, ram, hk, rfl⟩ | ⟨n, s₁, hk, ha⟩
  · rwa [hk] at hm
  · rw [hk] at hm
    have hadd := s₁.addChild_total p n
    rw [ha] at hadd
    exact hadd.trans hm

end Vfs

/-- No operation moves the end of the heap. -/
theorem FsOp.step_total {s s' : Vfs} {op : FsOp} {b : Bool} (W : s.Wf)
    (h : op.step s = some (b, s')) : s'.ram.heap.total = s.ram.total := by
  cases op with
  | mkfile path => exact Vfs.vfsMknode_total h
  | mkdir path => exact Vfs.vfsMknode_total h
  | rm path =>
    have hs : (s.vfsRm path).2 = s' := congrArg Prod.snd (Option.some.inj h)
    cases hn : s.vfsResolve path with
    | none =>
      rw [Vfs.vfsRm, hn] at hs
      rw [← hs]
    | some n => rw [← hs, (Vfs.vfsRm_pruned hn).ram]
  | rmRecursive path =>
    cases hn : s.vfsResolve path with
    | none =>
      rw [step, Vfs.vfsRmRecursive, hn] at h
      obtain rfl : s = s' := congrArg Prod.snd (Option.some.inj h)
      rfl
    | some n => rw [(Vfs.vfsRmRecursive_pruned W hn h).ram]
  | writeFile n data =>
    rw [step] at h
    split at h
    · obtain ⟨⟨src, len⟩, -, h⟩ := Option.map_eq_some_iff.mp h
      have hs : (s.vfsWriteFile n src len).2 = s' := congrArg Prod.snd h
      rw [← hs, Vfs.vfsWriteFile_total]
    · cases h
  | appendFile n data =>
    rw [step] at h
    split at h
    · obtain ⟨⟨src, len⟩, -, h⟩ := Option.map_eq_some_iff.mp h
      have hs : (s.vfsAppendFile n src len).2 = s' := congrArg Prod.snd h
      rw [← hs, Vfs.vfsAppendFile_total]
    · cases h
  | truncate n =>
    rw [step] at h
    split at h
    · have hs : s.vfsTruncate n = s' := congrArg Prod.snd (Option.some.inj h)
      rw [← hs, Vfs.vfsTruncate_total]
    · cases h
  | chdir path =>
    have hs : (vfsChdir s path).2 = s' := congrArg Prod.snd (Option.some.inj h)
    rw [← hs, vfsChdir]
    split
    · rfl
    · split
      · rfl
      · rfl

/-! ## The initial tree -/

namespace Vfs

variable {s s' : Vfs} {parent o : Option Nat}

theorem mkdirSimple_total {name : List Char} (h : s.mkdirSimple parent name = some (o, s')) :
    s'.ram.heap.total = s.ram.total := by
  have hm := s.makeNode_total .dir name parent
  rw [mkdirSimple] at h
  split at h
  · rename_i hk
    obtain ⟨-, rfl⟩ := Prod.mk.inj (Option.some.inj h)
    rwa [hk] at hm
  · rename_i n s₁ hk
    obtain ⟨p, -, hp⟩ := Option.map_eq_some_iff.mp h
    obtain ⟨-, rfl⟩ := Prod.mk.inj hp
    rw [hk] at hm
    exact (s₁.addChild_total p n).trans hm

theorem mkfileSimple_total {name content : List Char}
    (h : s.mkfileSimple parent name content = some (o, s')) :
    s'.ram.heap.total = s.ram.total := by
  have hm := s.makeNode_total .file name parent
  rw [mkfileSimple] at h
  split at h
  · rename_i hk
    obtain ⟨-, rfl⟩ := Prod.mk.inj (Option.some.inj h)
    rwa [hk] at hm
  · rename_i n s₁ hk
    obtain ⟨p, -, hp⟩ := Option.map_eq_some_iff.mp h
    obtain ⟨-, rfl⟩ := Prod.mk.inj hp
    rw [hk] at hm
    exact ((vfsWriteFile_total _ _ _ _).trans (s₁.addChild_total p n)).trans hm

theorem vfsInit_total {ram : Ram} (h : vfsInit ram = some s) : s.ram.heap.total = ram.total := by
  simp only [vfsInit, Option.bind_eq_bind, Option.bind_eq_some_iff] at h
  generalize hs₀ : Vfs.mk ram (fun _ => Vnode.blank) 0 0 0 [] = s₀ at h
  have h₁ := s₀.makeNode_total .dir [] none
  have h₀ : s₀.ram.total = ram.total := by
    rw [← hs₀]
  rcases hm : s₀.makeNode .dir [] none with ⟨o, s₁⟩
  rw [hm] at h h₁
  obtain ⟨r, -, ⟨_, s₂⟩, h₂, ⟨_, s₃⟩, h₃, ⟨_, s₄⟩, h₄, ⟨_, s₅⟩, h₅, ⟨_, s₆⟩, h₆, ⟨_, s₇⟩, h₇,
    ⟨_, s₈⟩, h₈, ⟨_, s₉⟩, h₉, h⟩ := h
  obtain ⟨⟨_, s₁₀⟩, h₁₀, ⟨_, s₁₁⟩, h₁₁, ⟨_, s₁₂⟩, h₁₂, ⟨_, s₁₃⟩, h₁₃, cwd, -, hpwd⟩ := h
  obtain ⟨pwd, rfl⟩ := vfsUpdatePwd_cases hpwd
  have hbin := mkdirSimple_total h₂
  calc s₁₃.ram.heap.total = s₁₂.ram.total := mkfileSimple_total h₁₃
    _ = s₁₁.ram.total := mkfileSimple_total h₁₂
    _ = s₁₀.ram.total := mkfileSimple_total h₁₁
    _ = s₉.ram.total := mkfileSimple_total h₁₀
    _ = s₈.ram.total := mkdirSimple_total h₉
    _ = s₇.ram.total := mkdirSimple_total h₈
    _ = s₆.ram.total := mkdirSimple_total h₇
    _ = s₅.ram.total := mkdirSimple_total h₆
    _ = s₄.ram.total := mkdirSimple_total h₅
    _ = s₃.ram.total := mkdirSimple_total h₄
    _ = s₂.ram.total := mkdirSimple_total h₃
    _ = s₁.ram.total := hbin
    _ = s₀.ram.total := h₁
    _ = ram.total := h₀

end Vfs

theorem Booted.total_le {s : Vfs} (h : Booted s) : s.ram.heap.total ≤ HEAP_MAX - HEAP_START := by
  obtain ⟨kb, deny, mem, h⟩ := h
  rw [Vfs.vfsInit_total h]
  exact Kheap.kheapInit_total_le kb

theorem Running.total_le {s : Vfs} (h : Running s) : s.ram.heap.total ≤ HEAP_MAX - HEAP_START := by
  induction h with
  | boot h => exact h.total_le
  | op h hs ih => exact (FsOp.step_total h.wf hs).trans_le ih
  | alloc h hr ih => exact hr.total.trans_le ih

end BojanOS
