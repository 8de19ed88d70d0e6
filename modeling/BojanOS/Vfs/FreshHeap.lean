import BojanOS.Vfs.Init

/-!
# `vfs_init` on the heap that `kheap_init` sets up

`make_node` can answer null, and `vfs_init` does not look. The heap has at least 1024 bytes though,
and the root with the six directories below it takes 960 of them; whatever is refused after that
leaves no null pointer behind that is followed.
-/

namespace BojanOS

theorem Kheap.kheapInit_total_ge (kb : Nat) : 1024 ≤ (kheapInit kb).total := by
  have h : HEAP_MAX - HEAP_START = 0x1000000 := by decide
  simp only [kheapInit, h]
  split
  · decide
  · split
    · decide
    · split
      · simp only [HEAP_START] at *
        omega
      · decide

namespace Ram

/-- On a machine that refuses nothing else, what fits is granted. -/
theorem kmalloc_granted {r : Ram} (hd : r.deny 0 = false) {n k : Nat}
    (hk : Kheap.alignUp n 16 = k) (hfit : r.heap.used + k ≤ r.heap.total)
    (ht : r.heap.total < 2 ^ 64) :
    r.kmalloc n = (some r.heap.used, { r with
      heap := { r.heap with used := r.heap.used + k }, deny := fun i => r.deny (i + 1) }) := by
  rw [kmalloc, hd, Kheap.kmalloc, hk, Nat.mod_eq_of_lt (by omega)]
  simp only [Bool.false_eq_true, if_false]
  rw [if_neg (by omega)]

end Ram

namespace Vfs

variable {s s' : Vfs} {n k i u : Nat} {name : List Char}

/-- The node `n` is there, in the tree under the same root, and keeps its name, its parent and the
links to it. -/
structure Stays (s s' : Vfs) (n : Nat) : Prop where
  next : s.next ≤ s'.next
  root : s'.root = s.root
  name : s'.nameOf n = s.nameOf n
  par : s'.par n = s.par n
  linked : ∀ p < s.next, n ∈ s.kids p → n ∈ s'.kids p

namespace Stays

theorem trans {s₁ : Vfs} (H : Stays s s₁ n) (H' : Stays s₁ s' n) : Stays s s' n :=
  ⟨H.next.trans H'.next, H'.root.trans H.root, H'.name.trans H.name, H'.par.trans H.par,
    fun p hp hn => H'.linked p (hp.trans_le H.next) (H.linked p hp hn)⟩

theorem sameTree (S : SameTree s s') : Stays s s' n :=
  ⟨S.next.ge, S.root, congrFun S.nameOf n, congrFun S.par n, fun p _ hn => by rwa [S.kids]⟩

theorem makeNode (hn : n < s.next) (t : FsType) (name : List Char) (p : Option Nat) :
    Stays s (s.makeNode t name p).2 n := by
  rcases makeNode_cases s t name p with ⟨ram, h⟩ | ⟨ram, h⟩
  · rw [h]
    exact .sameTree (.ram ram)
  · rw [h]
    have hne := Nat.ne_of_lt hn
    refine ⟨Nat.le_succ _, rfl, ?_, ?_, fun p hp hn => ?_⟩
    · simp [nameOf, Function.update_of_ne hne]
    · simp [Vfs.par, Function.update_of_ne hne]
    · simpa [kids, Function.update_of_ne (Nat.ne_of_lt hp)] using hn

theorem addKid (s : Vfs) (p c n cap : Nat) :
    Stays s (s.setNode p { s.node p with childCap := cap, children := s.kids p ++ [c] }) n := by
  refine ⟨Nat.le_refl _, rfl, ?_, ?_, fun q _ hn => ?_⟩
  · rcases eq_or_ne n p with rfl | hne
    · simp [nameOf, setNode]
    · simp [nameOf, setNode, hne]
  · rcases eq_or_ne n p with rfl | hne
    · simp [Vfs.par, setNode]
    · simp [Vfs.par, setNode, hne]
  · rw [kids_setNode]
    rcases eq_or_ne q p with rfl | hne
    · rw [Function.update_self]
      exact List.mem_append_left _ hn
    · rwa [Function.update_of_ne hne]

theorem addChild (s : Vfs) (p c n : Nat) : Stays s (s.addChild p c).2 n := by
  rw [Vfs.addChild]
  simp only
  split
  · rcases s.ram.kmalloc _ with ⟨_ | a, ram⟩
    · exact .sameTree (.ram ram)
    · exact (Stays.sameTree (.ram ram)).trans (.addKid { s with ram } p c n _)
  · exact .addKid s p c n _

theorem mkdirSimple (hn : n < s.next) {parent o : Option Nat} {name : List Char}
    (h : s.mkdirSimple parent name = some (o, s')) : Stays s s' n := by
  have hm := makeNode hn .dir name parent
  rw [Vfs.mkdirSimple] at h
  rcases hk : s.makeNode .dir name parent with ⟨_ | k, s₁⟩ <;> rw [hk] at h hm
  · obtain ⟨-, rfl⟩ : none = o ∧ s₁ = s' := by simpa using h
    exact hm
  · obtain ⟨p, -, hp⟩ := Option.map_eq_some_iff.mp h
    obtain ⟨-, rfl⟩ := Prod.mk.inj hp
    exact hm.trans (.addChild s₁ p k n)

theorem mkfileSimple (hn : n < s.next) {parent o : Option Nat} {name content : List Char}
    (h : s.mkfileSimple parent name content = some (o, s')) : Stays s s' n := by
  have hm := makeNode hn .file name parent
  rw [Vfs.mkfileSimple] at h
  rcases hk : s.makeNode .file name parent with ⟨_ | k, s₁⟩ <;> rw [hk] at h hm
  · obtain ⟨-, rfl⟩ : none = o ∧ s₁ = s' := by simpa using h
    exact hm
  · obtain ⟨p, -, hp⟩ := Option.map_eq_some_iff.mp h
    obtain ⟨-, rfl⟩ := Prod.mk.inj hp
    exact (hm.trans (.addChild s₁ p k n)).trans (.sameTree (vfsWriteFile_sameTree ..))

end Stays

/-- `k` nodes were made, `i` of them are in the root, and `u` bytes are taken. -/
structure Fresh (s : Vfs) (k i u : Nat) : Prop where
  deny : s.ram.deny = fun _ => false
  used : s.ram.heap.used = u
  total : 1024 ≤ s.ram.heap.total ∧ s.ram.heap.total < 2 ^ 64
  next : s.next = k
  root : s.root = 0
  kids : (s.node 0).children.length = i
  cap : (s.node 0).childCap = if i = 0 then 0 else 8

namespace Fresh

theorem makeNode (F : Fresh s k i u) (hk : 0 < k) (hu : u + 128 ≤ 1024) (t : FsType)
    (name : List Char) (parent : Option Nat) :
    ∃ s', s.makeNode t name parent = (some k, s') ∧ Fresh s' (k + 1) i (u + 128) ∧
      s'.node k = .fresh t name parent := by
  have htotal := F.total
  have hused := F.used
  have hr := Ram.kmalloc_granted (congrFun F.deny 0) (n := SIZEOF_VNODE) (k := 128) (by decide)
    (by omega) htotal.2
  have hroot : 0 ≠ s.next := by rw [F.next]; omega
  rw [Vfs.makeNode, Ram.kzalloc, hr, F.next]
  refine ⟨_, rfl, ⟨?_, ?_, htotal, rfl, F.root, ?_, ?_⟩, Function.update_self _ _ _⟩
  · simp only [F.deny]
  · simp only [hused]
  · rw [← F.next]
    simp only [Function.update_of_ne hroot]
    exact F.kids
  · rw [← F.next]
    simp only [Function.update_of_ne hroot]
    exact F.cap

/-- The first child makes the array, and the next seven fit. -/
theorem addChild (F : Fresh s k i u) (hi : i < 8) (hu : u + 64 ≤ 1024) (c : Nat) :
    Fresh (s.addChild 0 c).2 k (i + 1) (u + if i = 0 then 64 else 0) ∧
      c ∈ (s.addChild 0 c).2.kids 0 := by
  have htotal := F.total
  have hused := F.used
  have hlen := F.kids
  have hcap := F.cap
  rw [Vfs.addChild]
  simp only
  rcases Nat.eq_zero_or_pos i with rfl | hpos
  · have hr := Ram.kmalloc_granted (congrFun F.deny 0) (n := 8 * SIZEOF_PTR) (k := 64) (by decide)
      (by omega) htotal.2
    rw [if_pos rfl] at hcap
    rw [if_pos (by rw [hcap]; exact Nat.zero_le _), hcap, if_neg (fun h => h rfl), hr]
    refine ⟨⟨?_, ?_, htotal, F.next, F.root, ?_, ?_⟩, ?_⟩
    · simp only [setNode, F.deny]
    · simp only [setNode, hused, if_pos]
    · simp [setNode, hlen]
    · simp [setNode]
    · simp [Vfs.kids, setNode]
  · rw [if_neg (by omega)] at hcap
    rw [if_neg (by omega), if_neg (by omega)]
    refine ⟨⟨F.deny, hused, htotal, F.next, F.root, ?_, ?_⟩, ?_⟩
    · simp [setNode, hlen]
    · simp [setNode, hcap]
    · simp [Vfs.kids, setNode]

theorem mkdirSimple (F : Fresh s k i u) (hk : 0 < k) (hi : i < 8) (hu : u + 192 ≤ 1024)
    (name : List Char) :
    ∃ s', s.mkdirSimple (some 0) name = some (some k, s') ∧
      Fresh s' (k + 1) (i + 1) (u + 128 + if i = 0 then 64 else 0) ∧
      s'.nameOf k = name.take (VFS_NAME_MAX - 1) ∧ s'.par k = some 0 ∧ k ∈ s'.kids 0 := by
  obtain ⟨s₁, hm, F₁, hnew⟩ := F.makeNode hk (by omega) .dir name (some 0)
  have S := Stays.addChild s₁ 0 k k
  obtain ⟨F₂, hmem⟩ := F₁.addChild hi (by omega) k
  refine ⟨_, ?_, F₂, S.name.trans ?_, S.par.trans ?_, hmem⟩
  · rw [Vfs.mkdirSimple, hm]
    rfl
  · rw [nameOf, hnew]
    rfl
  · rw [par, hnew]
    rfl

end Fresh

/-! ## What follows the directories -/

/-- With a parent, nothing is dereferenced that is null. -/
theorem mkdirSimple_some (s : Vfs) (p : Nat) (name : List Char) :
    ∃ o s', s.mkdirSimple (some p) name = some (o, s') := by
  rw [mkdirSimple]
  rcases s.makeNode .dir name (some p) with ⟨_ | n, s₁⟩
  · exact ⟨none, s₁, rfl⟩
  · exact ⟨some n, _, rfl⟩

theorem mkfileSimple_some (s : Vfs) (p : Nat) (name content : List Char) :
    ∃ o s', s.mkfileSimple (some p) name content = some (o, s') := by
  rw [mkfileSimple]
  rcases s.makeNode .file name (some p) with ⟨_ | n, s₁⟩
  · exact ⟨none, s₁, rfl⟩
  · exact ⟨some n, _, rfl⟩

/-- A directory in the root has a short path. -/
theorem vfsUpdatePwd_child (hroot : s.root = 0) (hn : s.cwd ≠ 0)
    (hname : (s.nameOf s.cwd).length < VFS_NAME_MAX) (hpar : s.par s.cwd = some 0) :
    s.vfsUpdatePwd = some { s with pwd := '/' :: s.nameOf s.cwd } := by
  have htext : pwdText (s.climb 64 s.cwd).reverse = '/' :: s.nameOf s.cwd := by
    have hp : (s.node s.cwd).parent = some 0 := hpar
    simp [climb, hroot, hn, hp, nameOf, pwdText]
  have hlt : ¬ PATH_MAX ≤ ('/' :: s.nameOf s.cwd).length := by
    rw [VFS_NAME_MAX] at hname
    rw [List.length_cons, PATH_MAX]
    omega
  rw [vfsUpdatePwd, if_neg (by rw [hroot]; exact hn)]
  simp only
  rw [htext, if_neg hlt, if_neg (List.cons_ne_nil _ _)]

/-- However much memory the machine has, `vfs_init` does not follow a null pointer, and the working
directory is `/root`. -/
theorem vfsInit_root (kb : Nat) (mem : Nat → Char) :
    ∃ s, vfsInit { heap := Kheap.kheapInit kb, deny := fun _ => false, mem } = some s ∧
      s.cwd ∈ s.kids s.root ∧ s.nameOf s.cwd = "root".toList ∧ s.pwd = "/root".toList := by
  have htotal := Kheap.kheapInit_total_ge kb
  have hle := Kheap.kheapInit_total_le kb
  have hmax : HEAP_MAX - HEAP_START < 2 ^ 64 := by decide
  have hused : (Kheap.kheapInit kb).used = 0 := rfl
  have hr := Ram.kmalloc_granted (r := { heap := Kheap.kheapInit kb, deny := fun _ => false, mem })
    rfl (n := SIZEOF_VNODE) (k := 128) (by decide) (by simp only [hused]; omega) (by simp only; omega)
  obtain ⟨s₀, hm, hs₀, F₀⟩ : ∃ s₀ : Vfs, makeNode ⟨⟨Kheap.kheapInit kb, fun _ => false, mem⟩,
      fun _ => Vnode.blank, 0, 0, 0, []⟩ .dir [] none = (some 0, s₀) ∧ s₀.next = 1 ∧
        Fresh ({ s₀ with root := 0, cwd := 0 }.setNode 0
          { s₀.node 0 with parent := some 0 }) 1 0 128 := by
    rw [makeNode, Ram.kzalloc, hr]
    refine ⟨_, rfl, rfl, rfl, ?_, ⟨htotal, ?_⟩, rfl, rfl, ?_, ?_⟩
    · simp [setNode, hused]
    · simp only [setNode]
      omega
    · simp [setNode, Vnode.fresh, Vnode.blank]
    · simp [setNode, Vnode.fresh, Vnode.blank]
  obtain ⟨s₁, h₁, F₁, -⟩ := F₀.mkdirSimple (by decide) (by decide) (by decide) "bin".toList
  obtain ⟨s₂, h₂, F₂, -⟩ := F₁.mkdirSimple (by decide) (by decide) (by decide) "etc".toList
  obtain ⟨s₃, h₃, F₃, -⟩ := F₂.mkdirSimple (by decide) (by decide) (by decide) "home".toList
  obtain ⟨s₄, h₄, F₄, hname, hpar, hmem⟩ :=
    F₃.mkdirSimple (by decide) (by decide) (by decide) "root".toList
  obtain ⟨s₅, h₅, F₅, -⟩ := F₄.mkdirSimple (by decide) (by decide) (by decide) "tmp".toList
  obtain ⟨s₆, h₆, F₆, -⟩ := F₅.mkdirSimple (by decide) (by decide) (by decide) "usr".toList
  -- every parent is there from here on
  obtain ⟨o₇, s₇, h₇⟩ := s₆.mkdirSimple_some 6 "bin".toList
  obtain ⟨o₈, s₈, h₈⟩ := s₇.mkdirSimple_some 3 "user".toList
  obtain ⟨o₉, s₉, h₉⟩ := s₈.mkfileSimple_some 2 "motd".toList motdText
  obtain ⟨o₁₀, s₁₀, h₁₀⟩ := s₉.mkfileSimple_some 2 "hostname".toList hostnameText
  obtain ⟨o₁₁, s₁₁, h₁₁⟩ := s₁₀.mkfileSimple_some 2 "os-release".toList osReleaseText
  obtain ⟨o₁₂, s₁₂, h₁₂⟩ := s₁₁.mkfileSimple_some 4 "readme.txt".toList readmeText
  have hn : 4 < s₄.next := by rw [F₄.next]; decide
  have S₅ := Stays.mkdirSimple hn h₅
  have S₆ := S₅.trans (.mkdirSimple (by have := S₅.next; omega) h₆)
  have S₇ := S₆.trans (.mkdirSimple (by have := S₆.next; omega) h₇)
  have S₈ := S₇.trans (.mkdirSimple (by have := S₇.next; omega) h₈)
  have S₉ := S₈.trans (.mkfileSimple (by have := S₈.next; omega) h₉)
  have S₁₀ := S₉.trans (.mkfileSimple (by have := S₉.next; omega) h₁₀)
  have S₁₁ := S₁₀.trans (.mkfileSimple (by have := S₁₀.next; omega) h₁₁)
  have S₁₂ := S₁₁.trans (.mkfileSimple (by have := S₁₁.next; omega) h₁₂)
  have hroot₁₂ := S₁₂.root.trans F₄.root
  have hname₁₂ := S₁₂.name.trans hname
  have hpwd : ({ s₁₂ with cwd := 4 } : Vfs).vfsUpdatePwd =
      some { s₁₂ with cwd := 4, pwd := '/' :: s₁₂.nameOf 4 } := by
    apply vfsUpdatePwd_child (s := { s₁₂ with cwd := 4 })
    · exact hroot₁₂
    · exact Nat.succ_ne_zero 3
    · change (s₁₂.nameOf 4).length < VFS_NAME_MAX
      rw [hname₁₂]
      decide
    · exact S₁₂.par.trans hpar
  refine ⟨{ s₁₂ with cwd := 4, pwd := '/' :: s₁₂.nameOf 4 }, ?_, ?_, hname₁₂, ?_⟩
  · simp only [vfsInit, Option.bind_eq_bind, hm, Option.bind_some, h₁, h₂, h₃, h₄, h₅, h₆, h₇, h₈,
      h₉, h₁₀, h₁₁, h₁₂]
    exact hpwd
  · change 4 ∈ s₁₂.kids s₁₂.root
    rw [hroot₁₂]
    exact S₁₂.linked 0 (by rw [F₄.next]; decide) hmem
  · change '/' :: s₁₂.nameOf 4 = _
    rw [hname₁₂]
    rfl

theorem vfsInit_fresh (kb : Nat) (mem : Nat → Char) :
    (vfsInit { heap := Kheap.kheapInit kb, deny := fun _ => false, mem }).isSome := by
  obtain ⟨s, h, -⟩ := vfsInit_root kb mem
  rw [h]
  rfl

end Vfs

end BojanOS
