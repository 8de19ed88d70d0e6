import BojanOS.Cmds.Files
import BojanOS.Shell.Session
import BojanOS.Vfs.Named

/-!
# What `mv` does with the bytes (`cmd_mv`)

`mv` is `cp` and then `vfs_rm` of the source. `cp` drops the answer of `vfs_write_file` and does
not compare the two nodes, and the paths are looked up again and again while the tree changes.
`MoveSafe` says, in the state in front of the command, when the bytes come out on the other side.
-/

namespace BojanOS

namespace Vfs

variable {s s' u v w : Vfs} {g n p src : Nat} {a d t path : List Char}

/-! ## The destination -/

/-- `argv[2]`, or `argv[2]/basename(argv[1])` if `argv[2]` names a directory. -/
def moveDest (s : Vfs) (a d : List Char) : Option (List Char) :=
  match s.vfsResolve d with
  | none => some d
  | some n => if (s.node n).type = .dir then copyPath a d else some d

/-- `vfs_mkfile` for a path that leads nowhere. -/
def withFile (s : Vfs) (path : List Char) : Option Vfs :=
  if (s.vfsResolve path).isSome then some s else (s.vfsMkfile path).map Prod.snd

theorem copyDst_eq (s : Vfs) (a d : List Char) :
    s.copyDst a d =
      (s.moveDest a d).bind fun t => (s.withFile t).map fun v => (v.vfsResolve t, v) := by
  have hcreate : ∀ {t}, s.vfsResolve t = none →
      s.createAt t = (s.withFile t).map fun v => (v.vfsResolve t, v) := by
    intro t ht
    rw [withFile, ht, createAt]
    cases s.vfsMkfile t <;> rfl
  have hthere : ∀ {t n}, s.vfsResolve t = some n →
      some (some n, s) = (s.withFile t).map fun v => (v.vfsResolve t, v) := by
    intro t n ht
    rw [withFile, ht, Option.isSome_some, if_pos rfl, Option.map_some, ht]
  rw [copyDst, moveDest]
  cases hd : s.vfsResolve d with
  | none => exact hcreate hd
  | some n =>
    simp only
    split
    · cases copyPath a d with
      | none => rfl
      | some full =>
        simp only [Option.bind_some]
        cases hf : s.vfsResolve full with
        | none => exact hcreate hf
        | some m => exact hthere hf
    · exact hthere hd

theorem withFile_spec (W : Wf s) (H : HeapOk s) (h : s.withFile path = some v) :
    Extends s v ∧ Wf v ∧ HeapOk v ∧ v.contents = s.contents := by
  rw [withFile] at h
  split at h
  · obtain rfl := Option.some.inj h
    exact ⟨SameTree.rfl'.extends, W, H, rfl⟩
  · obtain ⟨⟨b, v'⟩, hm, rfl⟩ := Option.map_eq_some_iff.mp h
    have U := H.toBuffers.vfsMknode hm
    exact ⟨W.mknode_extends hm, W.vfsMknode hm, U.heapOk H, U.contents H.toBuffers⟩

/-! ## The copy -/

/-- `vfs_write_file` has its buffer: it is large enough, or the request for a new one is
granted. -/
def roomToWrite (s : Vfs) (n len : Nat) : Bool :=
  len + 1 ≤ (s.node n).cap ∨ (s.ram.kmalloc (newCap (s.node n) (len + 1))).1.isSome

theorem vfsWriteFile_answer (B : Buffers s) (hf : (s.node n).type = .file) (data : Src)
    (len : Nat) : (s.vfsWriteFile n data len).1 = s.roomToWrite n len := by
  rw [vfsWriteFile, if_neg (by simp [hf]), growFile, roomToWrite]
  rcases Nat.lt_or_ge (s.node n).cap (len + 1) with hlt | hge
  · rw [if_pos hlt]
    rcases s.ram.kmalloc (newCap (s.node n) (len + 1)) with ⟨_ | e, r⟩
    · simp [Nat.not_le.mpr hlt]
    · simp
  · rw [if_neg (Nat.not_lt.mpr hge)]
    cases hd : (s.node n).data with
    | none =>
      have := (B.noData hd).2
      omega
    | some e => simp [hge]

theorem copyFile_spec (H : HeapOk s) (hg : g < s.next) (hf : (s.node g).type = .file)
    (src : Nat) :
    (s.copyFile g src).2.contents =
      if s.roomToWrite g (s.contents src).length then
        Function.update s.contents g (s.contents src)
      else s.contents := by
  have B := H.toBuffers
  have hlen := B.length_contents src
  have hsize := B.size_le src
  have key : ∀ data : Src, s.Sound (s.node src).size data →
      data.bytes s.ram.mem (s.node src).size = s.contents src →
      (s.vfsWriteFile g data (s.node src).size).2.contents =
        if s.roomToWrite g (s.contents src).length then
          Function.update s.contents g (s.contents src)
        else s.contents := by
    intro data hs hb
    rcases hw : s.vfsWriteFile g data (s.node src).size with ⟨b, s'⟩
    have hroom := vfsWriteFile_answer B hf data (s.node src).size
    rw [hw] at hroom
    rw [(H.vfsWriteFile hs hsize hg hw).2, hb, hlen, ← hroom]
  rw [copyFile]
  cases hd : (s.node src).data with
  | none =>
    refine key (.ext []) trivial ?_
    rw [contents_nil hd, (B.noData hd).1]
    rfl
  | some e =>
    refine key (.heap e) ⟨src, hd, Nat.le_refl _⟩ ?_
    rw [Src.bytes_heap, contents_eq hd]

/-- The bytes arrive at `g` or are there already, and the other files stay. -/
theorem copyFile_contents (H : HeapOk s) (hg : g < s.next) (hf : (s.node g).type = .file)
    (src : Nat) :
    ((s.copyFile g src).2.contents g = s.contents src ↔
      s.roomToWrite g (s.contents src).length = true ∨ s.contents g = s.contents src) ∧
    ∀ n, n ≠ g → (s.copyFile g src).2.contents n = s.contents n := by
  rw [copyFile_spec H hg hf]
  split
  · rename_i hroom
    exact ⟨iff_of_true (Function.update_self ..) (.inl hroom),
      fun n hn => Function.update_of_ne hn ..⟩
  · rename_i hroom
    exact ⟨⟨.inr, fun h => h.resolve_left hroom⟩, fun _ _ => rfl⟩

/-! ## The source is unlinked -/

/-- A path that leads to a file comes in through a link. -/
theorem Wf.linked_of_resolve (W : Wf s) (h : s.vfsResolve path = some n)
    (hf : (s.node n).type = .file) : ∃ p, n ∈ s.kids p := by
  have hstep : ∀ {m c x}, m < s.next → ((s.node m).type = .dir ∨ ∃ p, m ∈ s.kids p) →
      s.walkStep m x = some c → c < s.next ∧ ((s.node c).type = .dir ∨ ∃ p, c ∈ s.kids p) := by
    intro m c x hm hP hc
    rcases walkStep_cases hc with rfl | hp | ⟨q, hk⟩
    · exact ⟨hm, hP⟩
    · refine ⟨W.par_lt_next hm hp, .inl ?_⟩
      rcases eq_or_ne m s.root with rfl | hr
      · rw [W.root_par] at hp
        exact Option.some.inj hp ▸ W.root_dir
      · obtain ⟨q, -, hq, hd⟩ := W.par_lt m hm hr
        exact Option.some.inj (hq.symm.trans hp) ▸ hd
    · exact ⟨W.kid_lt hk, .inr ⟨q, hk⟩⟩
  have hwalk : ∀ {xs m}, m < s.next → ((s.node m).type = .dir ∨ ∃ p, m ∈ s.kids p) →
      s.walk m xs = some n → (s.node n).type = .dir ∨ ∃ p, n ∈ s.kids p := by
    intro xs
    induction xs with
    | nil =>
      intro m _ hP hw
      obtain rfl : m = n := Option.some.inj hw
      exact hP
    | cons x xs ih =>
      intro m hm hP hw
      rw [walk, List.foldlM_cons] at hw
      obtain ⟨c, hc, hw⟩ := Option.bind_eq_some_iff.mp hw
      obtain ⟨hlt, hP'⟩ := hstep hm hP hc
      exact ih hlt hP' hw
  have hor : (s.node n).type = .dir ∨ ∃ p, n ∈ s.kids p := by
    rw [vfsResolve] at h
    split at h
    · exact hwalk W.root_lt (.inl W.root_dir) h
    · exact hwalk W.cwd_lt (.inl W.cwd_dir) h
  refine hor.resolve_left fun hd => ?_
  rw [hf] at hd
  cases hd

/-- The tree without the link to `n`. -/
def unlinked (s : Vfs) (n : Nat) : Vfs := (s.vfsUnlinkNode n).2

theorem Wf.vfsUnlinkNode_linked (W : Wf s) (h : n ∈ s.kids p) :
    s.vfsUnlinkNode n = (true, s.setNode p { s.node p with children := (s.kids p).erase n }) := by
  have hp := W.forest.par_eq h
  rcases vfsUnlinkNode_cases s n with ⟨-, hr | hnone⟩ | ⟨q, hq, -, -, hu⟩
  · exact absurd (hr ▸ h) (W.forest.root_not_mem p)
  · exact absurd h (hnone p hp)
  · obtain rfl : p = q := Option.some.inj (hp.symm.trans hq)
    exact hu

/-- `vfs_rm` of a path that leads to a file. -/
theorem Wf.vfsRm_file (W : Wf s) (h : s.vfsResolve path = some n)
    (hf : (s.node n).type = .file) : s.vfsRm path = (true, s.unlinked n) := by
  obtain ⟨p, hp⟩ := W.linked_of_resolve h hf
  have hr : n ≠ s.root := by
    rintro rfl
    rw [W.root_dir] at hf
    cases hf
  have hpar : (s.node n).parent = some p := W.forest.par_eq hp
  rw [Vfs.vfsRm, h]
  simp only
  rw [if_neg (by simp [hr, hpar]), if_neg (by simp [hf]), unlinked, W.vfsUnlinkNode_linked hp]

theorem unlinked_pruned (s : Vfs) (n : Nat) : Pruned s (s.unlinked n) n := vfsUnlinkNode_pruned s n

/-- The same link is cut in two states with the same tree. -/
theorem SameTree.unlinked (S : SameTree s s') (W : Wf s) (h : n ∈ s.kids p) :
    SameTree (s.unlinked n) (s'.unlinked n) := by
  have h' : n ∈ s'.kids p := by rwa [S.kids]
  rw [Vfs.unlinked, Vfs.unlinked, W.vfsUnlinkNode_linked h, (S.wf W).vfsUnlinkNode_linked h']
  refine ⟨S.next, S.root, S.cwd, S.pwd, fun m => ?_⟩
  rcases eq_or_ne m p with rfl | hm
  · simp only [Vfs.setNode, Function.update_self, S.kids]
    exact congrArg (fun v : Vnode => { v with children := (s.kids m).erase n }) (S.shape m)
  · simp only [Vfs.setNode, Function.update_of_ne hm]
    exact S.shape m

/-! ## Copy and unlink -/

/-- Some file of the tree holds the bytes, and if the exit code is 0, the destination is one. -/
def MoveKept (s : Vfs) (bytes dest : List Char) (rc : Int) : Prop :=
  (∃ n, s.InTree n ∧ (s.node n).type = .file ∧ s.contents n = bytes) ∧
    (rc = 0 → ∃ n, s.vfsResolve dest = some n ∧ (s.node n).type = .file ∧ s.contents n = bytes)

/-- In front of the copy of `src` to `g`, the node that `t` leads to: `t` leads there without `src`
too, the bytes arrive or are there already, and the tree has `g` or another file with them. -/
def CopySafe (s : Vfs) (src g : Nat) (t : List Char) : Prop :=
  (s.unlinked src).vfsResolve t = some g ∧
    (s.roomToWrite g (s.contents src).length = true ∨ s.contents g = s.contents src) ∧
    ∃ n, (s.unlinked src).InTree n ∧ (s.node n).type = .file ∧
      (n = g ∨ s.contents n = s.contents src)

theorem copyFile_kept (W : Wf s) (H : HeapOk s) (ha : s.vfsResolve a = some src)
    (hsrc : (s.node src).type = .file) (ht : s.vfsResolve t = some g)
    (hg : (s.node g).type = .file) :
    ∃ u, (s.copyFile g src).2.vfsRm a = (true, u) ∧
      (u.MoveKept (s.contents src) t 0 ↔ s.CopySafe src g t) := by
  have S : SameTree s (s.copyFile g src).2 := vfsWriteFile_sameTree ..
  obtain ⟨hown, hother⟩ := copyFile_contents H (W.vfsResolve_lt ht) hg src
  generalize (s.copyFile g src).2 = w at S hown hother
  obtain ⟨p, hp⟩ := W.linked_of_resolve ha hsrc
  have hrm := (S.wf W).vfsRm_file ((S.vfsResolve a).trans ha) ((S.type src).trans hsrc)
  refine ⟨w.unlinked src, hrm, ?_⟩
  have P := unlinked_pruned s src
  have Q := unlinked_pruned w src
  have T := S.unlinked W hp
  have htype : ∀ n, ((w.unlinked src).node n).type = (s.node n).type := fun n =>
    (Q.type n).trans (S.type n)
  have hbytes : ∀ n, (w.unlinked src).contents n = w.contents n := Q.contents
  -- a path that still leads somewhere leads to `g`
  have hto : ∀ n, (s.unlinked src).vfsResolve t = some n → n = g := fun n hn =>
    Option.some.inj ((P.extends.vfsResolve (P.wf W) W hn).symm.trans ht)
  constructor
  · rintro ⟨⟨n, hin, hty, hn⟩, hdest⟩
    obtain ⟨m, hm, -, hmb⟩ := hdest rfl
    rw [T.vfsResolve] at hm
    obtain rfl := hto m hm
    rw [hbytes] at hmb hn
    refine ⟨hm, hown.mp hmb, n, T.inTree.mp hin, (htype n).symm.trans hty, ?_⟩
    rcases eq_or_ne n m with rfl | hne
    · exact .inl rfl
    · exact .inr ((hother n hne).symm.trans hn)
  · rintro ⟨hres, hroom, n, hin, hty, hn⟩
    have hgb := hown.mpr hroom
    refine ⟨⟨n, T.inTree.mpr hin, (htype n).trans hty, ?_⟩,
      fun _ => ⟨g, (T.vfsResolve t).trans hres, (htype g).trans hg, (hbytes g).trans hgb⟩⟩
    rw [hbytes]
    rcases eq_or_ne n g with rfl | hne
    · exact hgb
    · exact (hother n hne).trans (hn.resolve_left hne)

end Vfs

/-! ## Messages -/

namespace Shell

variable {σ σ' : Shell} {m : List Char}

/-- The bytes of the file `n` after the output of `m`. -/
def printed (σ : Shell) (m : List Char) (n : Nat) : List Char :=
  if σ.outFile = some n then
    σ.vfs.contents n ++ stored m (Vfs.grants m.length (σ.vfs.node n) σ.vfs.ram)
  else σ.vfs.contents n

theorem outRaw_not_nullOut {c : Char} (hnull : ¬ σ.NullOut) (h : σ.outRaw c = some σ') :
    ¬ σ'.NullOut := by
  rintro ⟨hout, hw, w, hwr, hlen, halloc⟩
  have R := outRaw_routing h
  rw [R.outFile] at hout
  rw [R.pipeWriting] at hw
  rw [R.pipeWriter] at hwr
  rw [outRaw, hout] at h
  simp only [hw, if_true] at h
  rw [pipeWriterAdd, hwr] at h
  simp only at h
  split at h
  · obtain rfl := Option.some.inj h
    omega
  rename_i hlt
  split at h
  · rename_i ha
    obtain rfl := Option.some.inj h
    simp [ha] at halloc
  · rename_i ha
    exact hnull ⟨hout, hw, w, hwr, by omega, (Bool.not_eq_true _).mp ha⟩

/-- A text comes out unless its first byte goes through a null pointer. -/
theorem shPuts_isSome {c : Char} : (σ.shPuts (c :: m)).isSome ↔ ¬ σ.NullOut := by
  induction m generalizing σ c with
  | nil =>
    rw [shPuts, List.foldlM_cons, ← outRaw_eq_none]
    cases σ.outRaw c with
    | none => simp
    | some τ => simp
  | cons d m ih =>
    rw [shPuts, List.foldlM_cons]
    cases h : σ.outRaw c with
    | none => simp [outRaw_eq_none.mp h]
    | some τ =>
      have hnull : ¬ σ.NullOut := fun hn => by
        rw [outRaw_eq_none.mpr hn] at h
        cases h
      exact iff_of_true (ih.mpr (outRaw_not_nullOut hnull h)) hnull

theorem shPuts_printed (H : σ.vfs.HeapOk)
    (hout : ∀ o, σ.outFile = some o → o < σ.vfs.next ∧ (σ.vfs.node o).type = .file)
    (h : σ.shPuts m = some σ') : σ'.vfs.contents = σ.printed m := by
  funext n
  cases ho : σ.outFile with
  | none => rw [shPuts_quiet ho h, printed, ho, if_neg (by simp)]
  | some o =>
    obtain ⟨hlt, hf⟩ := hout o ho
    obtain ⟨v, hv, -, -, hc⟩ := shPuts_file H ho hlt hf m
    obtain rfl := Option.some.inj (hv.symm.trans h)
    rw [printed, ho]
    simp only
    rw [hc]
    rcases eq_or_ne n o with rfl | hne
    · rw [Function.update_self, if_pos rfl]
    · rw [Function.update_of_ne hne, if_neg fun h => hne (Option.some.inj h).symm]

end Shell

/-! ## The command -/

/-- What `cp` says when it refuses. -/
def cannotWrite (d : List Char) : List Char := "cp: ".toList ++ d ++ ": cannot write\n".toList

/-- The command returns, and the bytes are where they should be. -/
def MoveOk (σ : Shell) (argv : List (List Char)) (src : Nat) : Prop :=
  ∃ rc σ' dest, (cmdMv argv).run σ = some (rc, σ') ∧
    σ.vfs.moveDest (argv.getD 1 []) (argv.getD 2 []) = some dest ∧
    σ'.vfs.MoveKept (σ.vfs.contents src) dest rc

/-- The destination is a string that fits, and with the file made where it leads nowhere, either it
leads to a file that can take the bytes, or `cp` refuses and some file of the tree holds the bytes
behind its message. -/
def MoveSafe (σ : Shell) (argv : List (List Char)) (src : Nat) : Prop :=
  ∃ dest v, σ.vfs.moveDest (argv.getD 1 []) (argv.getD 2 []) = some dest ∧
    σ.vfs.withFile dest = some v ∧
    match (v.vfsResolve dest).filter fun g => (v.node g).type = .file with
    | some g => v.CopySafe src g dest
    | none => ¬ σ.NullOut ∧ ∃ n, v.InTree n ∧ (v.node n).type = .file ∧
      ({ σ with vfs := v } : Shell).printed (cannotWrite (argv.getD 2 [])) n = σ.vfs.contents src

section

variable {σ : Shell} {argv : List (List Char)} {src g : Nat} {dest : List Char} {v : Vfs}
  (hargc : 3 ≤ argv.length) (hsrc : σ.vfs.vfsResolve (argv.getD 1 []) = some src)
  (hfile : (σ.vfs.node src).type = .file)

include hargc hsrc hfile

/-- `cp` of a file. -/
theorem cmdCp_run : (cmdCp argv).run σ =
    (σ.vfs.copyDst (argv.getD 1 []) (argv.getD 2 [])).bind fun (dst, v) =>
      match dst.filter fun g => (v.node g).type = .file with
      | none => (({ σ with vfs := v } : Shell).shPuts (cannotWrite (argv.getD 2 []))).map
          fun σ => ((1 : Int), σ)
      | some g => some ((0 : Int), { σ with vfs := (v.copyFile g src).2 }) := by
  rw [cmdCp, if_neg (by omega), Prog.run_bind, Prog.run_vfs, Option.bind_some]
  simp only [hsrc]
  rw [if_neg (by simp [hfile]), Prog.run_bind, Prog.run_fs]
  rcases σ.vfs.copyDst (argv.getD 1 []) (argv.getD 2 []) with _ | ⟨dst, v⟩
  · rfl
  rw [Option.map_some, Option.bind_some, Option.bind_some, Prog.run_bind, Prog.run_vfs,
    Option.bind_some]
  simp only
  cases dst.filter fun g => (v.node g).type = .file with
  | none => exact Prog.run_say ..
  | some g => rfl

section

variable (hd : σ.vfs.moveDest (argv.getD 1 []) (argv.getD 2 []) = some dest)
  (hv : σ.vfs.withFile dest = some v)

include hd hv

/-- `cp`, and with it `mv`, finds no file at the destination. -/
theorem cmdMv_refused
    (hg : ((v.vfsResolve dest).filter fun g => (v.node g).type = .file) = none) :
    (cmdMv argv).run σ =
      (({ σ with vfs := v } : Shell).shPuts (cannotWrite (argv.getD 2 []))).map
        fun σ => ((1 : Int), σ) := by
  have hcp := cmdCp_run hargc hsrc hfile
  rw [Vfs.copyDst_eq, hd, Option.bind_some, hv, Option.map_some, Option.bind_some] at hcp
  simp only [hg] at hcp
  rw [cmdMv, if_neg (by omega), Prog.run_bind, hcp]
  cases ({ σ with vfs := v } : Shell).shPuts (cannotWrite (argv.getD 2 [])) with
  | none => rfl
  | some σ' => rfl

/-- Then the bytes that count are those that the message leaves. -/
theorem cmdMv_refused_kept (W : σ.vfs.Wf) (H : σ.vfs.HeapOk)
    (hout : ∀ o, σ.outFile = some o → o < σ.vfs.next ∧ (σ.vfs.node o).type = .file)
    (hg : ((v.vfsResolve dest).filter fun g => (v.node g).type = .file) = none) :
    (∃ rc σ', (cmdMv argv).run σ = some (rc, σ') ∧
        σ'.vfs.MoveKept (σ.vfs.contents src) dest rc) ↔
      ¬ σ.NullOut ∧ ∃ n, v.InTree n ∧ (v.node n).type = .file ∧
        ({ σ with vfs := v } : Shell).printed (cannotWrite (argv.getD 2 [])) n =
          σ.vfs.contents src := by
  obtain ⟨E, -, Hv, -⟩ := Vfs.withFile_spec W H hv
  have hout' : ∀ o, σ.outFile = some o → o < v.next ∧ (v.node o).type = .file := by
    intro o ho
    obtain ⟨hlt, hf⟩ := hout o ho
    exact ⟨hlt.trans_le E.next, (E.type o hlt).trans hf⟩
  have hsome : (({ σ with vfs := v } : Shell).shPuts
      (cannotWrite (argv.getD 2 []))).isSome ↔ ¬ σ.NullOut := Shell.shPuts_isSome
  have hkept : ∀ {σ'}, ({ σ with vfs := v } : Shell).shPuts
      (cannotWrite (argv.getD 2 [])) = some σ' →
      (σ'.vfs.MoveKept (σ.vfs.contents src) dest 1 ↔
        ∃ n, v.InTree n ∧ (v.node n).type = .file ∧
          ({ σ with vfs := v } : Shell).printed (cannotWrite (argv.getD 2 [])) n =
            σ.vfs.contents src) := by
    intro σ' hm
    have S : v.SameTree σ'.vfs := Shell.shPuts_sameTree hm
    rw [Vfs.MoveKept, and_iff_left fun h => (by cases h),
      Shell.shPuts_printed (σ := { σ with vfs := v }) Hv hout' hm]
    exact exists_congr fun n => and_congr S.inTree (by rw [S.type])
  rw [cmdMv_refused hargc hsrc hfile hd hv hg]
  constructor
  · rintro ⟨rc, σ', he, hk⟩
    obtain ⟨τ, hm, he⟩ := Option.map_eq_some_iff.mp he
    obtain ⟨rfl, rfl⟩ := Prod.mk.inj he
    exact ⟨hsome.mp (by rw [hm]; rfl), (hkept hm).mp hk⟩
  · rintro ⟨hnull, hn⟩
    obtain ⟨τ, hm⟩ := Option.isSome_iff_exists.mp (hsome.mpr hnull)
    exact ⟨1, τ, by rw [hm]; rfl, (hkept hm).mpr hn⟩

/-- It finds one: a copy, and the source is unlinked. -/
theorem cmdMv_copied
    (hg : ((v.vfsResolve dest).filter fun g => (v.node g).type = .file) = some g) {u : Vfs}
    (hrm : (v.copyFile g src).2.vfsRm (argv.getD 1 []) = (true, u)) :
    (cmdMv argv).run σ = some (0, { σ with vfs := u }) := by
  have hcp := cmdCp_run hargc hsrc hfile
  rw [Vfs.copyDst_eq, hd, Option.bind_some, hv, Option.map_some, Option.bind_some] at hcp
  simp only [hg] at hcp
  rw [cmdMv, if_neg (by omega), Prog.run_bind, hcp, Option.bind_some]
  simp only [ne_eq, not_true_eq_false, if_false]
  rw [Prog.run_bind, Prog.run_fs]
  simp only [hrm]
  rfl

theorem cmdMv_copied_kept (W : σ.vfs.Wf) (H : σ.vfs.HeapOk)
    (hg : ((v.vfsResolve dest).filter fun g => (v.node g).type = .file) = some g) :
    (∃ rc σ', (cmdMv argv).run σ = some (rc, σ') ∧
      σ'.vfs.MoveKept (σ.vfs.contents src) dest rc) ↔ v.CopySafe src g dest := by
  obtain ⟨E, Wv, Hv, hc⟩ := Vfs.withFile_spec W H hv
  obtain ⟨ht, hgf⟩ := Option.filter_eq_some_iff.mp hg
  obtain ⟨u, hrm, hk⟩ := Vfs.copyFile_kept Wv Hv (E.vfsResolve W Wv hsrc)
    ((E.type src (W.vfsResolve_lt hsrc)).trans hfile) ht (of_decide_eq_true hgf)
  rw [hc] at hk
  rw [cmdMv_copied hargc hsrc hfile hd hv hg hrm]
  refine Iff.trans ?_ hk
  constructor
  · rintro ⟨rc, σ', he, hkept⟩
    obtain ⟨rfl, rfl⟩ := Prod.mk.inj (Option.some.inj he)
    exact hkept
  · exact fun hkept => ⟨0, _, rfl, hkept⟩

end

/-- `mv` keeps the bytes, and has them at the destination when it answers 0, exactly when the move
is safe. -/
theorem moveOk_iff (hrun : Running σ.vfs)
    (hout : ∀ o, σ.outFile = some o → o < σ.vfs.next ∧ (σ.vfs.node o).type = .file) :
    MoveOk σ argv src ↔ MoveSafe σ argv src := by
  have W := hrun.wf
  have H := hrun.heapOk
  constructor
  · rintro ⟨rc, σ', dest, hr, hd, hk⟩
    cases hv : σ.vfs.withFile dest with
    | none =>
      have hcp := cmdCp_run hargc hsrc hfile
      rw [Vfs.copyDst_eq, hd, Option.bind_some, hv] at hcp
      rw [cmdMv, if_neg (by omega), Prog.run_bind, hcp] at hr
      cases hr
    | some v =>
      refine ⟨dest, v, hd, hv, ?_⟩
      split
      · rename_i g hg
        exact (cmdMv_copied_kept hargc hsrc hfile hd hv W H hg).mp ⟨rc, σ', hr, hk⟩
      · rename_i hg
        exact (cmdMv_refused_kept hargc hsrc hfile hd hv W H hout hg).mp ⟨rc, σ', hr, hk⟩
  · rintro ⟨dest, v, hd, hv, hsafe⟩
    split at hsafe
    · rename_i g hg
      obtain ⟨rc, σ', hr, hk⟩ := (cmdMv_copied_kept hargc hsrc hfile hd hv W H hg).mpr hsafe
      exact ⟨rc, σ', dest, hr, hd, hk⟩
    · rename_i hg
      obtain ⟨rc, σ', hr, hk⟩ :=
        (cmdMv_refused_kept hargc hsrc hfile hd hv W H hout hg).mpr hsafe
      exact ⟨rc, σ', dest, hr, hd, hk⟩

end

/-- `mv /etc/motd /tmp` in the initial state. -/
theorem mv_motd_ok : ∃ src, MoveOk bootShell ["mv".toList, "/etc/motd".toList, "/tmp".toList] src := by
  have h : (bootVfs.vfsResolve "/etc/motd".toList).any fun src =>
      (bootVfs.node src).type = .file ∧
      bootVfs.moveDest "/etc/motd".toList "/tmp".toList = some "/tmp/motd".toList ∧
      (bootVfs.withFile "/tmp/motd".toList).any fun v =>
        (v.vfsResolve "/tmp/motd".toList).any fun g =>
          (v.node g).type = .file ∧ (v.unlinked src).vfsResolve "/tmp/motd".toList = some g ∧
          v.roomToWrite g (v.contents src).length = true := by
    rw [bootVfs_spelled]
    decide +kernel
  obtain ⟨src, hsrc, hfile, hd, hv⟩ := exists_of_any h
  obtain ⟨v, hv, hx⟩ := (Option.any_eq_true _ _).mp hv
  obtain ⟨g, hg, hgf, hres, hroom⟩ := exists_of_any hx
  obtain ⟨-, W, -, -⟩ := Vfs.withFile_spec bootVfs_booted.wf bootVfs_booted.heapOk hv
  have hin : (v.unlinked src).InTree g :=
    Vfs.Named.inTree_of_absolute ((Vfs.unlinked_pruned v src).wf W) (by decide) hres
  have hfilter : ((v.vfsResolve "/tmp/motd".toList).filter fun g => (v.node g).type = .file) =
      some g := Option.filter_eq_some_iff.mpr ⟨hg, decide_eq_true hgf⟩
  have hsafe : MoveSafe bootShell ["mv".toList, "/etc/motd".toList, "/tmp".toList] src := by
    refine ⟨"/tmp/motd".toList, v, by rw [bootShell_vfs]; exact hd,
      by rw [bootShell_vfs]; exact hv, ?_⟩
    rw [hfilter]
    exact ⟨hres, .inl hroom, g, hin, hgf, .inl rfl⟩
  refine ⟨src, (moveOk_iff (by decide) ?_ ?_ bootShell_running ?_).mpr hsafe⟩
  · rw [bootShell_vfs]
    exact hsrc
  · rw [bootShell_vfs]
    exact hfile
  · intro o ho
    rw [bootShell] at ho
    cases ho

/-- `mv /etc/motd /etc/motd` writes the file onto itself and unlinks it. -/
theorem mv_self_lost : ¬ ∀ (σ : Shell) (argv : List (List Char)) (src : Nat), Running σ.vfs →
    (∀ o, σ.outFile = some o → o < σ.vfs.next ∧ (σ.vfs.node o).type = .file) →
    3 ≤ argv.length →
    σ.vfs.vfsResolve (argv.getD 1 []) = some src → (σ.vfs.node src).type = .file →
    MoveOk σ argv src := by
  intro H
  have h : (bootVfs.vfsResolve "/etc/motd".toList).any fun src =>
      (bootVfs.node src).type = .file ∧
      bootVfs.moveDest "/etc/motd".toList "/etc/motd".toList = some "/etc/motd".toList ∧
      ((cmdMv ["mv".toList, "/etc/motd".toList, "/etc/motd".toList]).run bootShell).any
        fun r => r.1 = 0 ∧ r.2.vfs.vfsResolve "/etc/motd".toList = none := by
    rw [bootShell_spelled, bootVfs_spelled]
    decide +kernel
  obtain ⟨src, hsrc, hfile, hd, hr⟩ := exists_of_any h
  obtain ⟨⟨rc, σ'⟩, hr, hrc, hnone⟩ := exists_of_any hr
  rw [← bootShell_vfs] at hsrc hfile hd
  obtain ⟨rc', σ'', dest, hr', hd', -, hdest⟩ :=
    H bootShell ["mv".toList, "/etc/motd".toList, "/etc/motd".toList] src bootShell_running
      (fun o ho => by rw [bootShell] at ho; cases ho) (by decide) hsrc hfile
  obtain ⟨rfl, rfl⟩ := Prod.mk.inj (Option.some.inj (hr.symm.trans hr'))
  obtain rfl : "/etc/motd".toList = dest := Option.some.inj (hd.symm.trans hd')
  obtain ⟨n, hn, -⟩ := hdest hrc
  rw [hnone] at hn
  cases hn

end BojanOS
