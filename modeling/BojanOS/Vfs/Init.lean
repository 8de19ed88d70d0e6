import BojanOS.Vfs.Shape

/-!
# The tree that `vfs_init` builds

`mkdir_simple` and `mkfile_simple` do not look for a child of the same name, so the invariant of
the initial tree needs the names that each directory can have so far (`HasNames`). A refused
`kmalloc` leaves a name out or stops the kernel on a null pointer; it breaks nothing.
-/

namespace BojanOS.Vfs

variable {s s' s₁ : Vfs} {p q n : Nat} {o : Option Nat} {name content : List Char} {t : FsType}
  {L M : List (List Char)}

/-- `p` is a directory whose children have names out of `L`. -/
structure HasNames (s : Vfs) (p : Nat) (L : List (List Char)) : Prop where
  lt : p < s.next
  dir : (s.node p).type = .dir
  names : ∀ c ∈ s.kids p, s.nameOf c ∈ L

namespace HasNames

theorem sameTree (H : HasNames s p L) (S : SameTree s s') : HasNames s' p L :=
  ⟨S.next ▸ H.lt, (S.type p).trans H.dir, by rw [S.kids, S.nameOf]; exact H.names⟩

/-- The directory that got the new node. -/
theorem made {b : Bool} (H : HasNames s p L) (W : Wf s) (m : Made s s' p t name b)
    (hlen : name.length < VFS_NAME_MAX) : HasNames s' p (name :: L) := by
  have hp := Nat.ne_of_lt H.lt
  refine ⟨m.next ▸ Nat.lt_succ_of_lt H.lt, (m.type hp).trans H.dir, fun c hc => ?_⟩
  rw [m.kids_eq hp W.kids_next, Function.update_self, List.mem_append] at hc
  rcases hc with hc | hc
  · rw [m.nameOf (W.kid_ne_next hc)]
    exact List.mem_cons_of_mem _ (H.names c hc)
  · obtain rfl : c = s.next := by cases b <;> simp at hc; exact hc
    rw [m.nameOf_new hlen]
    exact List.mem_cons_self

theorem made_other {b : Bool} (H : HasNames s q L) (W : Wf s) (hq : q ≠ p)
    (m : Made s s' p t name b) : HasNames s' q L := by
  have hqn := Nat.ne_of_lt H.lt
  refine ⟨m.next ▸ Nat.lt_succ_of_lt H.lt, (m.type hqn).trans H.dir, fun c hc => ?_⟩
  rw [m.kids_old hqn hq] at hc
  rw [m.nameOf (W.kid_ne_next hc)]
  exact H.names c hc

theorem made_new {b : Bool} (m : Made s s' p .dir name b) : HasNames s' s.next [] := by
  refine ⟨m.next ▸ Nat.lt_succ_self _, congrArg Vnode.type m.new, fun c hc => ?_⟩
  rw [m.kids_new] at hc
  exact absurd hc (by simp)

end HasNames

/-- The same for a pointer that may be null. -/
def Names (s : Vfs) (o : Option Nat) (L : List (List Char)) : Prop :=
  ∀ n, o = some n → HasNames s n L

/-- Pointers to different nodes. -/
def Apart (o o' : Option Nat) : Prop := ∀ n m, o = some n → o' = some m → n ≠ m

theorem Apart.symm {o o' : Option Nat} (h : Apart o o') : Apart o' o :=
  fun n m hn hm => (h m n hm hn).symm

/-- What one line of `vfs_init` does, `o` being the pointer it returns. -/
structure Planted (s s' : Vfs) (parent : Option Nat) (t : FsType) (name : List Char)
    (o : Option Nat) : Prop where
  wf : Wf s'
  own : ∀ L, Names s parent L → Names s' parent (name :: L)
  other : ∀ q L, Apart q parent → Names s q L → Names s' q L
  new : t = .dir → Names s' o []
  apart : ∀ q L, Names s q L → Apart q o

namespace Planted

variable {parent : Option Nat}

theorem refused (W : Wf s) (r : Ram) : Planted s { s with ram := r } parent t name none where
  wf := W.ram r
  own L H n hn := by
    have H' := (H n hn).sameTree (SameTree.ram r)
    exact ⟨H'.lt, H'.dir, fun c hc => List.mem_cons_of_mem _ (H'.names c hc)⟩
  other q L _ H n hn := (H n hn).sameTree (SameTree.ram r)
  new _ n h := by cases h
  apart q L _ n m _ hm := by cases hm

theorem made {b : Bool} (W : Wf s) (H : HasNames s p L)
    (hname : name ≠ [] ∧ name.length < VFS_NAME_MAX) (hL : name ∉ L) (m : Made s s' p t name b) :
    Planted s s' (some p) t name (some s.next) where
  wf := W.made m H.lt H.dir hname fun c hc he => hL (he ▸ H.names c hc)
  own L H n hn := by
    obtain rfl := Option.some.inj hn
    exact (H p rfl).made W m hname.2
  other q L hq H n hn := (H n hn).made_other W (hq n p hn rfl) m
  new ht n hn := by
    obtain rfl := Option.some.inj hn
    subst ht
    exact .made_new m
  apart q L H n k hn hk := by
    obtain rfl := Option.some.inj hk
    exact Nat.ne_of_lt (H n hn).lt

theorem sameTree {o : Option Nat} (P : Planted s s₁ parent t name o) (S : SameTree s₁ s') :
    Planted s s' parent t name o where
  wf := S.wf P.wf
  own L H n hn := (P.own L H n hn).sameTree S
  other q L hq H n hn := (P.other q L hq H n hn).sameTree S
  new ht n hn := (P.new ht n hn).sameTree S
  apart := P.apart

end Planted

theorem mkdirSimple_planted {parent : Option Nat} (W : Wf s) (H : Names s parent L)
    (hname : name ≠ [] ∧ name.length < VFS_NAME_MAX) (hL : name ∉ L)
    (h : s.mkdirSimple parent name = some (o, s')) : Planted s s' parent .dir name o := by
  rw [mkdirSimple] at h
  rcases makeNode_cases s .dir name parent with ⟨ram, hm⟩ | ⟨ram, hm⟩ <;> rw [hm] at h
  · obtain ⟨rfl, rfl⟩ : none = o ∧ _ = s' := by simpa using h
    exact .refused W ram
  · cases parent with
    | none => cases h
    | some p =>
      obtain ⟨rfl, rfl⟩ : some s.next = o ∧ _ = s' := by simpa using h
      exact .made W (H p rfl) hname hL (made (H p rfl).lt (W.cap p) hm rfl).2

theorem mkfileSimple_planted {parent : Option Nat} (W : Wf s) (H : Names s parent L)
    (hname : name ≠ [] ∧ name.length < VFS_NAME_MAX) (hL : name ∉ L)
    (h : s.mkfileSimple parent name content = some (o, s')) :
    Planted s s' parent .file name o := by
  rw [mkfileSimple] at h
  rcases makeNode_cases s .file name parent with ⟨ram, hm⟩ | ⟨ram, hm⟩ <;> rw [hm] at h
  · obtain ⟨rfl, rfl⟩ : none = o ∧ _ = s' := by simpa using h
    exact .refused W ram
  · cases parent with
    | none => cases h
    | some p =>
      obtain ⟨rfl, rfl⟩ : some s.next = o ∧ _ = s' := by simpa using h
      exact (Planted.made W (H p rfl) hname hL (made (H p rfl).lt (W.cap p) hm rfl).2).sameTree
        (vfsWriteFile_sameTree ..)

theorem vfsUpdatePwd_cases (h : s.vfsUpdatePwd = some s') : ∃ pwd, s' = { s with pwd } := by
  rw [vfsUpdatePwd] at h
  split at h
  · exact ⟨_, (Option.some.inj h).symm⟩
  · simp only at h
    split at h
    · cases h
    · exact ⟨_, (Option.some.inj h).symm⟩

theorem Wf.setPwd (W : Wf s) (pwd : List Char) : Wf { s with pwd } := { W with }

/-- The tree with nothing but its root. -/
def rootOnly (ram : Ram) : Vfs where
  ram
  node := Function.update (fun _ => Vnode.blank) 0 { Vnode.fresh .dir [] none with parent := some 0 }
  next := 1
  root := 0
  cwd := 0
  pwd := []

theorem rootOnly_kids (ram : Ram) (n : Nat) : (rootOnly ram).kids n = [] := by
  cases n with
  | zero => rfl
  | succ n => rfl

theorem rootOnly_wf (ram : Ram) : Wf (rootOnly ram) where
  forest := by
    refine ⟨fun hc => ?_, fun p => ?_, fun p hp => ?_⟩
    · rw [rootOnly_kids] at hc; cases hc
    · rw [rootOnly_kids]; exact List.nodup_nil
    · rw [rootOnly_kids] at hp; cases hp
  blank n hn := by
    cases n with
    | zero => cases hn
    | succ n => rfl
  root_lt := Nat.zero_lt_one
  root_dir := rfl
  root_par := rfl
  cwd_lt := Nat.zero_lt_one
  cwd_dir := rfl
  kid_lt hc := by rw [rootOnly_kids] at hc; cases hc
  par_lt n hn hr := absurd (Nat.lt_one_iff.mp hn) hr
  file_leaf n _ := rootOnly_kids ram n
  names p := by rw [rootOnly_kids]; exact List.nodup_nil
  name_ok hc := by rw [rootOnly_kids] at hc; cases hc
  cap n := by rw [rootOnly_kids]; exact Nat.zero_le _

theorem rootOnly_hasNames (ram : Ram) : HasNames (rootOnly ram) 0 [] where
  lt := Nat.zero_lt_one
  dir := rfl
  names c hc := by rw [rootOnly_kids] at hc; cases hc

/-- The first node, made the root and its own parent. -/
theorem makeRoot (ram : Ram) :
    (∃ ram', makeNode ⟨ram, fun _ => Vnode.blank, 0, 0, 0, []⟩ .dir [] none =
      (none, ⟨ram', fun _ => Vnode.blank, 0, 0, 0, []⟩)) ∨
    ∃ ram' s, makeNode ⟨ram, fun _ => Vnode.blank, 0, 0, 0, []⟩ .dir [] none = (some 0, s) ∧
      { s with root := 0, cwd := 0 }.setNode 0 { s.node 0 with parent := some 0 } =
        rootOnly ram' := by
  rcases makeNode_cases ⟨ram, fun _ => Vnode.blank, 0, 0, 0, []⟩ .dir [] none with
    ⟨ram', h⟩ | ⟨ram', h⟩
  · exact .inl ⟨ram', h⟩
  · exact .inr ⟨ram', _, h, by simp [setNode, rootOnly]⟩

theorem vfsInit_wf {ram : Ram} (h : vfsInit ram = some s) : Wf s := by
  simp only [vfsInit, Option.bind_eq_bind, Option.bind_eq_some_iff] at h
  rcases makeRoot ram with ⟨ram', hm⟩ | ⟨ram', s₀, hm, hroot⟩ <;> rw [hm] at h
  · obtain ⟨_, h, -⟩ := h
    cases h
  obtain ⟨_, h0, h⟩ := h
  obtain rfl := Option.some.inj h0
  rw [show Vfs.setNode { s₀ with root := 0, cwd := 0 } 0
    { Vfs.node { s₀ with root := 0, cwd := 0 } 0 with parent := some 0 } = rootOnly ram' from hroot]
    at h
  -- one `Planted` for each line, the names that its directory has so far being in view
  obtain ⟨⟨bin, s₁⟩, h₁, h⟩ := h
  have W₀ := rootOnly_wf ram'
  have R₀ : Names (rootOnly ram') (some 0) [] := fun n hn => by
    obtain rfl := Option.some.inj hn
    exact rootOnly_hasNames ram'
  have P₁ := mkdirSimple_planted W₀ R₀ (by decide) (by decide) h₁
  have R₁ := P₁.own _ R₀
  obtain ⟨⟨etc, s₂⟩, h₂, h⟩ := h
  have P₂ := mkdirSimple_planted P₁.wf R₁ (by decide) (by decide) h₂
  have R₂ := P₂.own _ R₁
  have E₂ := P₂.new rfl
  have eR := (P₂.apart _ _ R₁).symm
  obtain ⟨⟨home, s₃⟩, h₃, h⟩ := h
  have P₃ := mkdirSimple_planted P₂.wf R₂ (by decide) (by decide) h₃
  have R₃ := P₃.own _ R₂
  have E₃ := P₃.other _ _ eR E₂
  have H₃ := P₃.new rfl
  have hR := (P₃.apart _ _ R₂).symm
  have eH := P₃.apart _ _ E₂
  obtain ⟨⟨root, s₄⟩, h₄, h⟩ := h
  have P₄ := mkdirSimple_planted P₃.wf R₃ (by decide) (by decide) h₄
  have R₄ := P₄.own _ R₃
  have E₄ := P₄.other _ _ eR E₃
  have H₄ := P₄.other _ _ hR H₃
  have T₄ := P₄.new rfl
  have tR := (P₄.apart _ _ R₃).symm
  have eT := P₄.apart _ _ E₃
  have hT := P₄.apart _ _ H₃
  obtain ⟨⟨tmp, s₅⟩, h₅, h⟩ := h
  have P₅ := mkdirSimple_planted P₄.wf R₄ (by decide) (by decide) h₅
  have R₅ := P₅.own _ R₄
  have E₅ := P₅.other _ _ eR E₄
  have H₅ := P₅.other _ _ hR H₄
  have T₅ := P₅.other _ _ tR T₄
  obtain ⟨⟨usr, s₆⟩, h₆, h⟩ := h
  have P₆ := mkdirSimple_planted P₅.wf R₅ (by decide) (by decide) h₆
  have E₆ := P₆.other _ _ eR E₅
  have H₆ := P₆.other _ _ hR H₅
  have T₆ := P₆.other _ _ tR T₅
  have U₆ := P₆.new rfl
  obtain ⟨⟨_, s₇⟩, h₇, h⟩ := h
  have P₇ := mkdirSimple_planted P₆.wf U₆ (by decide) (by decide) h₇
  have E₇ := P₇.other _ _ (P₆.apart _ _ E₅) E₆
  have H₇ := P₇.other _ _ (P₆.apart _ _ H₅) H₆
  have T₇ := P₇.other _ _ (P₆.apart _ _ T₅) T₆
  obtain ⟨⟨_, s₈⟩, h₈, h⟩ := h
  have P₈ := mkdirSimple_planted P₇.wf H₇ (by decide) (by decide) h₈
  have E₈ := P₈.other _ _ eH E₇
  have T₈ := P₈.other _ _ hT.symm T₇
  obtain ⟨⟨_, s₉⟩, h₉, h⟩ := h
  have P₉ := mkfileSimple_planted P₈.wf E₈ (by decide) (by decide) h₉
  have E₉ := P₉.own _ E₈
  have T₉ := P₉.other _ _ eT.symm T₈
  obtain ⟨⟨_, s₁₀⟩, h₁₀, h⟩ := h
  have P₁₀ := mkfileSimple_planted P₉.wf E₉ (by decide) (by decide) h₁₀
  have E₁₀ := P₁₀.own _ E₉
  have T₁₀ := P₁₀.other _ _ eT.symm T₉
  obtain ⟨⟨_, s₁₁⟩, h₁₁, h⟩ := h
  have P₁₁ := mkfileSimple_planted P₁₀.wf E₁₀ (by decide) (by decide) h₁₁
  have T₁₁ := P₁₁.other _ _ eT.symm T₁₀
  obtain ⟨⟨_, s₁₂⟩, h₁₂, h⟩ := h
  have P₁₂ := mkfileSimple_planted P₁₁.wf T₁₁ (by decide) (by decide) h₁₂
  have T₁₂ := P₁₂.own _ T₁₁
  obtain ⟨cwd, hcwd, hpwd⟩ := h
  have hc := T₁₂ cwd hcwd
  obtain ⟨pwd, rfl⟩ := vfsUpdatePwd_cases hpwd
  exact (P₁₂.wf.chdir hc.lt hc.dir).setPwd pwd

end BojanOS.Vfs

theorem BojanOS.Booted.wf {s : BojanOS.Vfs} (h : BojanOS.Booted s) : s.Wf := by
  obtain ⟨_, _, _, h⟩ := h
  exact BojanOS.Vfs.vfsInit_wf h
