import BojanOS.Cmds.Files
import BojanOS.Vfs.Named
import BojanOS.Vfs.FreshHeap

/-!
# The working directory and its name

The tree, `vfs_cwd` and `vfs_pwd` are updated by different functions. `PwdInv` is what holds them
together: the working directory hangs in the tree under names that `vfs_resolve` looks up, and
`vfs_pwd` is the text of these names. Two things break it: `cd` to a place that `vfs_update_pwd`
has no room for, and `rm -r` or `rmdir` of the working directory or of a directory above it.
-/

namespace BojanOS

namespace Vfs

variable {s s' : Vfs} {names : List (List Char)} {path : List Char} {n : Nat} {b : Bool}

structure PwdInv (s : Vfs) : Prop where
  wf : s.Wf
  named : ∃ names, s.Named names s.cwd ∧
    s.pwd = if names = [] then ['/'] else pwdText names.reverse

/-- `vfs_pwd` is an absolute path to the working directory. -/
def PwdNamesCwd (s : Vfs) : Prop :=
  s.pwd.head? = some '/' ∧ s.vfsResolve s.pwd = some s.cwd

theorem PwdInv.namesCwd (H : PwdInv s) : s.PwdNamesCwd := by
  obtain ⟨W, names, hn, hpwd⟩ := H
  rcases eq_or_ne names [] with rfl | hne
  · have hcwd := (hn.eq_nil_iff W).mp rfl
    rw [if_pos rfl] at hpwd
    rw [PwdNamesCwd, hpwd, hcwd]
    exact ⟨rfl, rfl⟩
  · rw [if_neg hne] at hpwd
    rw [PwdNamesCwd, hpwd]
    refine ⟨?_, hn.vfsResolve W hne⟩
    cases hr : names.reverse with
    | nil => exact absurd (List.reverse_eq_nil_iff.mp hr) hne
    | cons x xs => rfl

theorem PwdInv.extends (H : PwdInv s) (E : Extends s s') (W' : s'.Wf) : PwdInv s' := by
  obtain ⟨W, names, hn, hpwd⟩ := H
  exact ⟨W', names, E.cwd ▸ E.named W hn, E.pwd.trans hpwd⟩

theorem PwdInv.sameTree (S : SameTree s s') (H : PwdInv s) : PwdInv s' :=
  H.extends S.extends (S.wf H.wf)

theorem PwdInv.vfsMknode (H : PwdInv s) {t : FsType} (h : s.vfsMknode t path = some (b, s')) :
    PwdInv s' := H.extends (H.wf.mknode_extends h) (H.wf.vfsMknode h)

theorem PwdInv.pruned (H : PwdInv s) (P : Pruned s s' n) (hn : ¬ Below s.kids n s.cwd) :
    PwdInv s' := by
  obtain ⟨W, names, hnamed, hpwd⟩ := H
  exact ⟨P.wf W, names, P.cwd ▸ hnamed.pruned P hn, P.pwd.trans hpwd⟩

/-! ## `cd` -/

/-- `names[64]` and `buf[1024]` of `vfs_update_pwd` are large enough for the directory. -/
def pwdFits (s : Vfs) (n : Nat) : Bool :=
  (s.climb 65 n).length ≤ 64 ∧ (pwdText (s.climb 64 n).reverse).length < PATH_MAX

theorem PwdInv.enter (H : PwdInv s) (hn : s.vfsResolve path = some n)
    (hd : (s.node n).type = .dir) (hfits : s.pwdFits n = true) (h : s.enter n = some s') :
    PwdInv s' := by
  obtain ⟨W, cwdNames, hcwd, -⟩ := H
  obtain ⟨names, hnamed⟩ := hcwd.of_resolve W hn
  have Wn := W.chdir (W.vfsResolve_lt hn) hd
  have hnamed' : Named { s with cwd := n } names n := hnamed.of_node rfl rfl
  have hlen : names.length ≤ 64 := by
    rw [pwdFits, hnamed.climb W, List.length_take] at hfits
    have := (of_decide_eq_true hfits).1
    omega
  rw [Vfs.enter, vfsUpdatePwd] at h
  simp only at h
  split at h
  · rename_i hr
    obtain rfl := Option.some.inj h
    have hnil := (hnamed.eq_nil_iff W).mpr hr
    exact ⟨{ Wn with }, names, hnamed.of_node rfl rfl, by rw [if_pos hnil]⟩
  · rename_i hr
    have hne : names ≠ [] := fun h => hr ((hnamed.eq_nil_iff W).mp h)
    rw [hnamed'.climb Wn, List.take_of_length_le hlen] at h
    split at h
    · cases h
    obtain rfl := Option.some.inj h
    refine ⟨{ Wn with }, names, hnamed.of_node rfl rfl, ?_⟩
    have htext : pwdText names.reverse ≠ [] := by
      cases hr : names.reverse with
      | nil => exact absurd (List.reverse_eq_nil_iff.mp hr) hne
      | cons x xs => exact List.cons_ne_nil _ _
    rw [if_neg hne]
    exact if_neg htext

/-! ## `rm` and `rmdir` -/

theorem Wf.not_below_file (W : s.Wf) (hf : (s.node n).type = .file) : ¬ Below s.kids n s.cwd := by
  intro h
  have hcwd := W.cwd_dir
  rw [h.eq_of_leaf (W.file_leaf n hf), hf] at hcwd
  cases hcwd

theorem vfsRm_refused (hn : s.vfsResolve path = some n)
    (h : n = s.root ∨ (s.node n).type = .dir ∧ s.kids n ≠ []) : (s.vfsRm path).2 = s := by
  rw [vfsRm, hn]
  simp only
  split
  · rfl
  · rename_i hr
    obtain ⟨hd, hk⟩ := h.resolve_left fun h => hr (.inl h)
    rw [kids] at hk
    rw [if_pos ⟨hd, hk⟩]

/-- The path does not lead to the working directory or to a directory above it. -/
def sparesCwd (s : Vfs) (path : List Char) : Bool :=
  match s.vfsResolve path with
  | none => true
  | some n => n = s.root ∨ n ∉ s.upwards s.next s.cwd

/-- The path does not lead to the working directory, or that is not empty. -/
def sparesEmptyCwd (s : Vfs) (path : List Char) : Bool :=
  match s.vfsResolve path with
  | none => true
  | some n => n = s.root ∨ n ≠ s.cwd ∨ s.kids n ≠ []

theorem PwdInv.vfsRmRecursive (H : PwdInv s) (hs : s.sparesCwd path = true)
    (h : s.vfsRmRecursive path = some (b, s')) : PwdInv s' := by
  cases hn : s.vfsResolve path with
  | none =>
    rw [Vfs.vfsRmRecursive, hn] at h
    obtain ⟨-, rfl⟩ := Prod.mk.inj (Option.some.inj h)
    exact H
  | some n =>
    rw [sparesCwd, hn] at hs
    rcases of_decide_eq_true hs with hr | hup
    · rw [Vfs.vfsRmRecursive, hn] at h
      simp only at h
      rw [if_pos hr] at h
      obtain ⟨-, rfl⟩ := Prod.mk.inj (Option.some.inj h)
      exact H
    · exact H.pruned (vfsRmRecursive_pruned H.wf hn h) fun hb =>
        hup (H.wf.mem_upwards H.wf.cwd_lt hb)

theorem PwdInv.vfsRm_file (H : PwdInv s) (hn : s.vfsResolve path = some n)
    (hf : (s.node n).type = .file) : PwdInv (s.vfsRm path).2 :=
  H.pruned (vfsRm_pruned hn) (H.wf.not_below_file hf)

theorem PwdInv.vfsRm_dir (H : PwdInv s) (hn : s.vfsResolve path = some n)
    (hd : (s.node n).type = .dir) (hs : s.sparesEmptyCwd path = true) :
    PwdInv (s.vfsRm path).2 := by
  rw [sparesEmptyCwd, hn] at hs
  rcases of_decide_eq_true hs with hr | hcwd | hk
  · rwa [vfsRm_refused hn (.inl hr)]
  · by_cases hk : s.kids n = []
    · exact H.pruned (vfsRm_pruned hn) fun h => hcwd (h.eq_of_leaf hk).symm
    · rwa [vfsRm_refused hn (.inr ⟨hd, hk⟩)]
  · rwa [vfsRm_refused hn (.inr ⟨hd, hk⟩)]

/-! ## `cp` -/

theorem copyDst_cases {a d : List Char} {o : Option Nat} {v : Vfs}
    (h : s.copyDst a d = some (o, v)) : v = s ∨ ∃ path b, s.vfsMkfile path = some (b, v) := by
  have hcreate : ∀ {path}, s.createAt path = some (o, v) →
      v = s ∨ ∃ path b, s.vfsMkfile path = some (b, v) := by
    intro path h
    obtain ⟨⟨b, v'⟩, hm, he⟩ := Option.map_eq_some_iff.mp h
    obtain ⟨-, rfl⟩ := Prod.mk.inj he
    exact .inr ⟨path, b, hm⟩
  rw [copyDst] at h
  split at h
  · exact hcreate h
  split at h
  · split at h
    · cases h
    split at h
    · exact hcreate h
    · obtain ⟨-, rfl⟩ := Prod.mk.inj (Option.some.inj h)
      exact .inl rfl
  · obtain ⟨-, rfl⟩ := Prod.mk.inj (Option.some.inj h)
    exact .inl rfl

theorem PwdInv.copyDst (H : PwdInv s) {a d : List Char} {o : Option Nat} {v : Vfs}
    (h : s.copyDst a d = some (o, v)) : Extends s v ∧ PwdInv v := by
  rcases copyDst_cases h with rfl | ⟨path, b, hm⟩
  · exact ⟨SameTree.rfl'.extends, H⟩
  · exact ⟨H.wf.mknode_extends hm, H.vfsMknode hm⟩

theorem copyFile_sameTree (s : Vfs) (dst src : Nat) : SameTree s (s.copyFile dst src).2 :=
  vfsWriteFile_sameTree ..

end Vfs

/-! ## The commands -/

inductive FileCmd where
  | cd
  | mkdir
  | touch
  | rm
  | rmdir
  | cp
  | mv
  deriving DecidableEq

namespace FileCmd

open Prog Vfs

def main : FileCmd → List (List Char) → Prog Int
  | cd => cmdCd
  | mkdir => cmdMkdir
  | touch => cmdTouch
  | rm => cmdRm
  | rmdir => cmdRmdir
  | cp => cmdCp
  | mv => cmdMv

def step (c : FileCmd × List (List Char)) (σ : Shell) : Option (Int × Shell) :=
  (c.1.main c.2).run σ

/-- The text of the new directory fits, `rm -r` spares the working directory and what is above it,
and `rmdir` spares it if it is empty. -/
def meets : FileCmd × List (List Char) → Shell → Bool
  | (cd, argv), σ =>
    match σ.vfs.vfsResolve (cdTarget argv) with
    | none => true
    | some n => (σ.vfs.node n).type ≠ .dir ∨ σ.vfs.pwdFits n = true
  | (rm, argv), σ =>
    let (rf, operands) := rmFlags (argv.drop 1)
    !rf || eachMeets sparesCwd (rmOperand true) operands σ
  | (rmdir, argv), σ => eachMeets sparesEmptyCwd rmdirOperand (argv.drop 1) σ
  | _, _ => true

variable {σ σ' : Shell} {argv : List (List Char)} {p : List Char}

theorem cmdCd_keeps (H : PwdInv σ.vfs) (hm : meets (cd, argv) σ = true) :
    Keeps PwdInv σ (cmdCd argv) := by
  rw [meets] at hm
  refine .vfs ?_
  cases hn : σ.vfs.vfsResolve (cdTarget argv) with
  | none => exact .say (fun S H => H.sameTree S) H
  | some n =>
    rw [hn] at hm
    simp only
    split
    · exact .say (fun S H => H.sameTree S) H
    · rename_i hd
      have hfits := (of_decide_eq_true hm).resolve_left hd
      refine .fs fun _ v hv => .pure ?_
      obtain ⟨v', hv', he⟩ := Option.map_eq_some_iff.mp hv
      obtain ⟨-, rfl⟩ := Prod.mk.inj he
      exact H.enter hn (by simpa using hd) hfits hv'

theorem mkdirOperand_keeps (H : PwdInv σ.vfs) : Keeps PwdInv σ (mkdirOperand p) := by
  refine .fs fun ok v hv => ?_
  have H' := H.vfsMknode hv
  split
  · exact .pure H'
  · exact .say (fun S H => H.sameTree S) H'

theorem touchOperand_keeps (H : PwdInv σ.vfs) : Keeps PwdInv σ (touchOperand p) := by
  refine .vfs ?_
  cases σ.vfs.vfsResolve p with
  | none =>
    refine .fs fun ok v hv => ?_
    have H' := H.vfsMknode hv
    split
    · exact .pure H'
    · exact .say (fun S H => H.sameTree S) H'
  | some n =>
    simp only
    split
    · exact .say (fun S H => H.sameTree S) H
    · exact .pure H

theorem rmOperand_keeps {rf : Bool} (H : PwdInv σ.vfs)
    (hs : rf = true → σ.vfs.sparesCwd p = true) : Keeps PwdInv σ (rmOperand rf p) := by
  refine .vfs ?_
  cases hn : σ.vfs.vfsResolve p with
  | none => exact .say (fun S H => H.sameTree S) H
  | some n =>
    simp only
    split
    · exact .say (fun S H => H.sameTree S) H
    rename_i hdir
    refine .fs fun ok v hv => ?_
    have H' : PwdInv v := by
      cases rf with
      | true => exact H.vfsRmRecursive (hs rfl) hv
      | false =>
        have hf : (σ.vfs.node n).type = .file := by
          cases ht : (σ.vfs.node n).type with
          | file => rfl
          | dir => exact absurd ⟨ht, rfl⟩ hdir
        have hv : (σ.vfs.vfsRm p).2 = v := congrArg Prod.snd (Option.some.inj hv)
        exact hv ▸ H.vfsRm_file hn hf
    split
    · exact .pure H'
    · exact .say (fun S H => H.sameTree S) H'

theorem rmdirOperand_keeps (H : PwdInv σ.vfs) (hs : σ.vfs.sparesEmptyCwd p = true) :
    Keeps PwdInv σ (rmdirOperand p) := by
  refine .vfs ?_
  cases hn : σ.vfs.vfsResolve p with
  | none => exact .say (fun S H => H.sameTree S) H
  | some n =>
    simp only
    split
    · exact .say (fun S H => H.sameTree S) H
    rename_i hd
    refine .fs fun ok v hv => ?_
    have hv : (σ.vfs.vfsRm p).2 = v := congrArg Prod.snd (Option.some.inj hv)
    have H' : PwdInv v := hv ▸ H.vfsRm_dir hn (by simpa using hd) hs
    split
    · exact .pure H'
    · exact .say (fun S H => H.sameTree S) H'

theorem cmdCp_keeps (H : PwdInv σ.vfs) : Keeps PwdInv σ (cmdCp argv) := by
  intro rc σ' h
  rcases cmdCp_cases h with ⟨-, m, hm⟩ | ⟨src, dst, v, -, -, -, hv, hcase⟩
  · exact H.sameTree (Shell.shPuts_sameTree hm)
  · have H' := (H.copyDst hv).2
    rcases hcase with ⟨-, -, hm⟩ | ⟨-, n, -, -, rfl⟩
    · exact H'.sameTree (Shell.shPuts_sameTree hm)
    · exact H'.sameTree (copyFile_sameTree v n src)

/-- What `mv` removes is the file that `cp` has read. -/
theorem cmdMv_keeps (H : PwdInv σ.vfs) : Keeps PwdInv σ (cmdMv argv) := by
  intro rc σ' h
  rcases cmdMv_cases h with ⟨-, m, hm⟩ | ⟨-, hcp⟩ | ⟨σ₁, b, v, -, hcp, hrm, hcase⟩
  · exact H.sameTree (Shell.shPuts_sameTree hm)
  · exact cmdCp_keeps H _ _ hcp
  have H₁ : PwdInv σ₁.vfs := cmdCp_keeps H _ _ hcp
  have hfile : ∃ src, σ₁.vfs.vfsResolve (argv.getD 1 []) = some src ∧
      (σ₁.vfs.node src).type = .file := by
    rcases cmdCp_cases hcp with ⟨h0, -⟩ | ⟨src, dst, w, -, hsrc, hty, hw, hcase⟩
    · cases h0
    rcases hcase with ⟨h0, -⟩ | ⟨-, n, -, -, rfl⟩
    · cases h0
    obtain ⟨E, Hw⟩ := H.copyDst hw
    have S := copyFile_sameTree w n src
    refine ⟨src, (S.vfsResolve _).trans (E.vfsResolve H.wf Hw.wf hsrc), (S.type src).trans ?_⟩
    exact (E.type src (H.wf.vfsResolve_lt hsrc)).trans hty
  obtain ⟨src, hsrc, hty⟩ := hfile
  have hv : (σ₁.vfs.vfsRm (argv.getD 1 [])).2 = v := congrArg Prod.snd hrm
  have Hv : PwdInv v := hv ▸ H₁.vfsRm_file hsrc hty
  rcases hcase with ⟨-, -, rfl⟩ | ⟨-, -, hm⟩
  · exact Hv
  · exact Hv.sameTree (Shell.shPuts_sameTree hm)

theorem main_keeps {c : FileCmd} (H : PwdInv σ.vfs) (hm : meets (c, argv) σ = true) :
    Keeps PwdInv σ (c.main argv) := by
  cases c with
  | cd => exact cmdCd_keeps H hm
  | mkdir =>
    rw [main, cmdMkdir]
    split
    · exact .say (fun S H => H.sameTree S) H
    · exact .eachOperand' mkdirOperand_keeps H
  | touch =>
    rw [main, cmdTouch]
    split
    · exact .say (fun S H => H.sameTree S) H
    · exact .eachOperand' touchOperand_keeps H
  | rm =>
    rw [main, cmdRm]
    rw [meets] at hm
    rcases hfl : rmFlags (argv.drop 1) with ⟨rf, operands⟩
    rw [hfl] at hm
    simp only
    split
    · exact .say (fun S H => H.sameTree S) H
    cases rf with
    | false => exact .eachOperand' (fun H => rmOperand_keeps H fun h => by cases h) H
    | true => exact .eachOperand (fun H hs => rmOperand_keeps H fun _ => hs) H hm
  | rmdir =>
    rw [main, cmdRmdir]
    split
    · exact .say (fun S H => H.sameTree S) H
    · exact .eachOperand rmdirOperand_keeps H hm
  | cp => exact cmdCp_keeps H
  | mv => exact cmdMv_keeps H

/-- The step, if the condition is met. -/
def meetingStep (c : FileCmd × List (List Char)) (σ : Shell) : Option (Int × Shell) :=
  if meets c σ then step c σ else none

theorem meetingStep_keeps {c : FileCmd × List (List Char)} {rc : Int} (H : PwdInv σ.vfs)
    (h : meetingStep c σ = some (rc, σ')) : PwdInv σ'.vfs := by
  rw [meetingStep] at h
  split at h
  · rename_i hm
    exact main_keeps H hm _ _ h
  · cases h

end FileCmd

/-- The state that `vfs_init` leaves behind, with the allocator of `kheap.c`. -/
def Initial (s : Vfs) : Prop :=
  ∃ kb mem, Vfs.vfsInit { heap := Kheap.kheapInit kb, deny := fun _ => false, mem } = some s

theorem Initial.pwdInv {s : Vfs} (h : Initial s) : s.PwdInv := by
  obtain ⟨kb, mem, h⟩ := h
  obtain ⟨s', h', hkid, hname, hpwd⟩ := Vfs.vfsInit_root kb mem
  obtain rfl : s = s' := Option.some.inj (h.symm.trans h')
  have hplain : Plain (s.nameOf s.cwd) := by
    rw [hname]
    decide
  refine ⟨Vfs.vfsInit_wf h, _, .down .root hkid hplain, ?_⟩
  rw [hpwd, hname]
  rfl

theorem bootVfs_initial : Initial bootVfs := ⟨65536, _, (Option.some_get bootRam_boots).symm⟩

/-- Along a run whose steps meet the condition, `vfs_pwd` names the working directory, which is in
the tree. -/
theorem pwd_names_cwd {σ₀ σ : Shell} {tr : List ((FileCmd × List (List Char)) × Int)}
    (h₀ : Initial σ₀.vfs) (h : Trace.Run FileCmd.meetingStep σ₀ tr σ) :
    σ.vfs.PwdNamesCwd ∧ σ.vfs.InTree σ.vfs.cwd := by
  have H := h.inv (I := fun σ => σ.vfs.PwdInv)
    (fun _ _ _ _ H hs => FileCmd.meetingStep_keeps H hs) h₀.pwdInv
  obtain ⟨names, hn, -⟩ := H.named
  exact ⟨H.namesCwd, hn.inTree⟩

/-- A directory is made and entered, a file in it is made and renamed, and `/home` is removed. -/
def homeRemoved : List (FileCmd × List (List Char)) :=
  [(.mkdir, ["mkdir".toList, "/tmp/d".toList]), (.cd, ["cd".toList, "/tmp/d".toList]),
    (.touch, ["touch".toList, "f".toList]), (.mv, ["mv".toList, "f".toList, "g".toList]),
    (.rm, ["rm".toList, "-r".toList, "/home".toList])]

theorem pwd_names_cwd_home : ∃ tr σ, Trace.Run FileCmd.meetingStep bootShell tr σ ∧
    σ.vfs.pwd = "/tmp/d".toList ∧ σ.vfs.PwdNamesCwd ∧ σ.vfs.InTree σ.vfs.cwd := by
  have h : (Trace.exec FileCmd.meetingStep homeRemoved bootShell).any
      fun r => r.2.vfs.pwd = "/tmp/d".toList := by
    rw [bootShell_spelled]
    decide +kernel
  obtain ⟨⟨tr, σ⟩, hs, hr⟩ := (Option.any_eq_true _ _).mp h
  have hrun := Trace.Run.of_exec _ hs
  have h₀ : Initial bootShell.vfs := by
    rw [bootShell_vfs]
    exact bootVfs_initial
  exact ⟨tr, σ, hrun, of_decide_eq_true hr, pwd_names_cwd h₀ hrun⟩

/-- `rmdir` takes the empty working directory away. -/
theorem pwd_lost : ¬ ∀ (σ₀ σ : Shell) (tr : List ((FileCmd × List (List Char)) × Int)),
    Initial σ₀.vfs → Trace.Run FileCmd.step σ₀ tr σ → σ.vfs.PwdNamesCwd := by
  intro H
  have h : (Trace.exec FileCmd.step [(.mkdir, ["mkdir".toList, "/tmp/d".toList]),
      (.cd, ["cd".toList, "/tmp/d".toList]), (.rmdir, ["rmdir".toList, "/tmp/d".toList])]
      bootShell).any fun r => r.2.vfs.vfsResolve r.2.vfs.pwd ≠ some r.2.vfs.cwd := by
    rw [bootShell_spelled]
    decide +kernel
  obtain ⟨⟨tr, σ⟩, hs, hr⟩ := (Option.any_eq_true _ _).mp h
  have h₀ : Initial bootShell.vfs := by
    rw [bootShell_vfs]
    exact bootVfs_initial
  exact of_decide_eq_true hr (H bootShell σ tr h₀ (Trace.Run.of_exec _ hs)).2

end BojanOS
