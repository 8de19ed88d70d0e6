import BojanOS.Cmds.Move
import BojanOS.Shell.Output

/-!
# What `cp` answers (`cmd_cp`)

`cp` returns 1 with a message, or copies and returns 0. The answer of `vfs_write_file` is dropped,
so that 0 also stands for a copy that got no memory. `CopySafe` says, in the state in front of the
command, when the files are as the exit code has it.
-/

namespace BojanOS

namespace Vfs

/-- `src` of `cmd_cp`, when it is a file. -/
def copySource (s : Vfs) (argv : List (List Char)) : Option Nat :=
  if argv.length < 3 then none
  else (s.vfsResolve (argv.getD 1 [])).filter fun n => (s.node n).type = .file

/-- What `rc` says of the files of `s`, in front of `cp`, and of `s'`, behind it. With 0 the
destination has the bytes of the source and nothing else changed. Otherwise nothing changed,
`spare` not looked at. -/
def CopyKept (s s' : Vfs) (argv : List (List Char)) (spare : Option Nat) (rc : Int) : Prop :=
  (rc = 0 → ∃ src dest g, s.copySource argv = some src ∧
    s.moveDest (argv.getD 1 []) (argv.getD 2 []) = some dest ∧
    s'.vfsResolve dest = some g ∧ (s'.node g).type = .file ∧
    s'.contents g = s.contents src ∧ s'.contents src = s.contents src ∧
    ∀ n < s.next, n ≠ g → s'.contents n = s.contents n) ∧
  (rc ≠ 0 → ∀ n < s.next, spare ≠ some n → s'.contents n = s.contents n)

end Vfs

/-- What `cp` says when it has no source. -/
def noSource (argv : List (List Char)) : List Char :=
  if argv.length < 3 then "cp: missing operand\n".toList
  else "cp: ".toList ++ argv.getD 1 [] ++ ": no such file\n".toList

/-- The command returns, and the files are as the exit code has it. -/
def CopyOk (σ : Shell) (argv : List (List Char)) (spare : Option Nat) : Prop :=
  ∃ rc σ', (cmdCp argv).run σ = some (rc, σ') ∧ σ.vfs.CopyKept σ'.vfs argv spare rc

/-- The message does not go through a null pointer, and if it goes to a file, this one is spared or
takes none of it. -/
def Shell.Harmless (σ : Shell) (spare : Option Nat) (m : List Char) : Prop :=
  ¬ σ.NullOut ∧ ∀ o, σ.outFile = some o → spare ≠ some o →
    stored m (Vfs.grants m.length (σ.vfs.node o) σ.vfs.ram) = []

/-- Without a source the message is harmless. With one, the destination is a string that fits, and
with the file made where it leads nowhere, either it leads to a file that can take the bytes or has
them, or the message is harmless. -/
def CopySafe (σ : Shell) (argv : List (List Char)) (spare : Option Nat) : Prop :=
  match σ.vfs.copySource argv with
  | none => σ.Harmless spare (noSource argv)
  | some src => ∃ dest v, σ.vfs.moveDest (argv.getD 1 []) (argv.getD 2 []) = some dest ∧
      σ.vfs.withFile dest = some v ∧
      match (v.vfsResolve dest).filter fun g => (v.node g).type = .file with
      | some g => v.roomToWrite g (σ.vfs.contents src).length = true ∨
          v.contents g = σ.vfs.contents src
      | none => ({ σ with vfs := v } : Shell).Harmless spare (cannotWrite (argv.getD 2 []))

/-! ## The message -/

section

variable {σ σ' : Shell} {argv : List (List Char)} {spare : Option Nat} {v : Vfs} {m : List Char}

theorem noSource_eq_cons (argv : List (List Char)) : ∃ c m, noSource argv = c :: m := by
  rw [noSource]
  split
  · exact ⟨_, _, rfl⟩
  · exact ⟨_, _, rfl⟩

theorem cmdCp_noSource (h : σ.vfs.copySource argv = none) :
    (cmdCp argv).run σ = (σ.shPuts (noSource argv)).map fun σ => ((1 : Int), σ) := by
  rw [Vfs.copySource] at h
  rw [cmdCp, noSource]
  split at h
  · rename_i hargc
    rw [if_pos hargc, if_pos hargc]
    exact Prog.run_say ..
  · rename_i hargc
    rw [if_neg hargc, if_neg hargc, Prog.run_bind, Prog.run_vfs, Option.bind_some]
    cases hsrc : σ.vfs.vfsResolve (argv.getD 1 []) with
    | none => exact Prog.run_say ..
    | some src =>
      rw [hsrc] at h
      have hfile : (σ.vfs.node src).type ≠ .file := by simpa using h
      simp only [if_pos hfile]
      exact Prog.run_say ..

theorem Vfs.copyKept_refused {s s' : Vfs} :
    s.CopyKept s' argv spare 1 ↔
      ∀ n < s.next, spare ≠ some n → s'.contents n = s.contents n := by
  rw [Vfs.CopyKept]
  exact ⟨fun h => h.2 (by decide), fun h => ⟨fun h => absurd h (by decide), fun _ => h⟩⟩

/-- The files behind a message are those in front of it exactly when it is harmless. -/
theorem refused_kept (E : Vfs.Extends σ.vfs v) (H : v.HeapOk) (hc : v.contents = σ.vfs.contents)
    (hout : ∀ o, σ.outFile = some o → o < σ.vfs.next ∧ (σ.vfs.node o).type = .file)
    (hm : ∃ c t, m = c :: t) :
    (∃ rc σ', (({ σ with vfs := v } : Shell).shPuts m).map (fun σ => ((1 : Int), σ)) =
        some (rc, σ') ∧ σ.vfs.CopyKept σ'.vfs argv spare rc) ↔
      ({ σ with vfs := v } : Shell).Harmless spare m := by
  obtain ⟨c, t, rfl⟩ := hm
  have hout' : ∀ o, σ.outFile = some o → o < v.next ∧ (v.node o).type = .file := by
    intro o ho
    obtain ⟨hlt, hf⟩ := hout o ho
    exact ⟨hlt.trans_le E.next, (E.type o hlt).trans hf⟩
  have hsome : (({ σ with vfs := v } : Shell).shPuts (c :: t)).isSome ↔ ¬ σ.NullOut :=
    Shell.shPuts_isSome
  have hkept : ∀ {τ}, ({ σ with vfs := v } : Shell).shPuts (c :: t) = some τ →
      (σ.vfs.CopyKept τ.vfs argv spare 1 ↔
        ∀ o, σ.outFile = some o → spare ≠ some o →
          stored (c :: t) (Vfs.grants (c :: t).length (v.node o) v.ram) = []) := by
    intro τ hτ
    rw [Vfs.copyKept_refused, Shell.shPuts_printed (σ := { σ with vfs := v }) H hout' hτ]
    constructor
    · intro h o ho hs
      have hn := h o (hout o ho).1 hs
      rw [Shell.printed, if_pos ho, hc] at hn
      exact List.append_right_eq_self.mp hn
    · intro h n hn hs
      rw [Shell.printed]
      split
      · rename_i ho
        rw [h n ho hs, List.append_nil, hc]
      · rw [hc]
  constructor
  · rintro ⟨rc, σ', he, hk⟩
    obtain ⟨τ, hτ, he⟩ := Option.map_eq_some_iff.mp he
    obtain ⟨rfl, rfl⟩ := Prod.mk.inj he
    exact ⟨hsome.mp (by rw [hτ]; rfl), (hkept hτ).mp hk⟩
  · rintro ⟨hnull, h⟩
    obtain ⟨τ, hτ⟩ := Option.isSome_iff_exists.mp (hsome.mpr hnull)
    exact ⟨1, τ, by rw [hτ]; rfl, (hkept hτ).mpr h⟩

end

/-! ## The copy -/

section

variable {σ : Shell} {argv : List (List Char)} {src g : Nat}
  {dest : List Char} {v : Vfs}

/-- The files behind the copy of `src` to `g` are as 0 has it when `g` can take the bytes or has
them. -/
theorem copied_kept (spare : Option Nat) (hsrc : σ.vfs.copySource argv = some src)
    (hd : σ.vfs.moveDest (argv.getD 1 []) (argv.getD 2 []) = some dest)
    (W : v.Wf) (H : v.HeapOk) (hc : v.contents = σ.vfs.contents)
    (hg : v.vfsResolve dest = some g) (hgf : (v.node g).type = .file) :
    σ.vfs.CopyKept (v.copyFile g src).2 argv spare 0 ↔
      v.roomToWrite g (σ.vfs.contents src).length = true ∨ v.contents g = σ.vfs.contents src := by
  have S : v.SameTree (v.copyFile g src).2 := Vfs.vfsWriteFile_sameTree ..
  obtain ⟨hown, hother⟩ := Vfs.copyFile_contents H (W.vfsResolve_lt hg) hgf src
  generalize (v.copyFile g src).2 = w at S hown hother
  rw [hc] at hown hother
  rw [hc, ← hown, Vfs.CopyKept, and_iff_left fun h => absurd rfl h]
  constructor
  · intro h
    obtain ⟨src', dest', g', hsrc', hd', hg', -, hb, -, -⟩ := h rfl
    obtain rfl := Option.some.inj (hsrc.symm.trans hsrc')
    obtain rfl := Option.some.inj (hd.symm.trans hd')
    obtain rfl := Option.some.inj (hg.symm.trans ((S.vfsResolve dest).symm.trans hg'))
    exact hb
  · intro h _
    refine ⟨src, dest, g, hsrc, hd, (S.vfsResolve dest).trans hg, (S.type g).trans hgf, h, ?_,
      fun n _ hn => hother n hn⟩
    rcases eq_or_ne src g with rfl | hne
    · exact h
    · exact hother src hne

theorem exists_withFile {P : List Char → Vfs → Prop} (hv : σ.vfs.withFile dest = some v) :
    (∃ t u, some dest = some t ∧ σ.vfs.withFile t = some u ∧ P t u) ↔ P dest v := by
  constructor
  · rintro ⟨t, u, ht, hu, h⟩
    obtain rfl := Option.some.inj ht
    obtain rfl := Option.some.inj (hv.symm.trans hu)
    exact h
  · exact fun h => ⟨dest, v, rfl, hv, h⟩

/-- `cp` leaves the files as its exit code has it exactly when the copy is safe. -/
theorem copyOk_iff {spare : Option Nat} (hrun : Running σ.vfs)
    (hout : ∀ o, σ.outFile = some o → o < σ.vfs.next ∧ (σ.vfs.node o).type = .file) :
    CopyOk σ argv spare ↔ CopySafe σ argv spare := by
  have W := hrun.wf
  have H := hrun.heapOk
  rw [CopyOk, CopySafe]
  cases hsrc : σ.vfs.copySource argv with
  | none =>
    rw [cmdCp_noSource hsrc]
    exact refused_kept (σ := σ) (v := σ.vfs) Vfs.SameTree.rfl'.extends H rfl hout
      (noSource_eq_cons argv)
  | some src =>
    have hs := hsrc
    rw [Vfs.copySource] at hs
    split at hs
    · cases hs
    rename_i hargc
    obtain ⟨hres, hfile⟩ := Option.filter_eq_some_iff.mp hs
    rw [cmdCp_run (by omega) hres (of_decide_eq_true hfile), Vfs.copyDst_eq]
    cases hd : σ.vfs.moveDest (argv.getD 1 []) (argv.getD 2 []) with
    | none =>
      constructor
      · rintro ⟨rc, σ', he, -⟩
        cases he
      · rintro ⟨dest, v, he, -⟩
        cases he
    | some dest =>
      rw [Option.bind_some]
      cases hv : σ.vfs.withFile dest with
      | none =>
        constructor
        · rintro ⟨rc, σ', he, -⟩
          cases he
        · rintro ⟨dest', v, he, hv', -⟩
          obtain rfl := Option.some.inj he
          rw [hv] at hv'
          cases hv'
      | some v =>
        obtain ⟨E, Wv, Hv, hc⟩ := Vfs.withFile_spec W H hv
        rw [Option.map_some, Option.bind_some]
        refine Iff.trans ?_ (exists_withFile (P := fun _ v => _) hv).symm
        simp only
        cases hg : (v.vfsResolve dest).filter fun g => (v.node g).type = .file with
        | none => exact refused_kept E Hv hc hout ⟨_, _, rfl⟩
        | some g =>
          obtain ⟨hres, hgf⟩ := Option.filter_eq_some_iff.mp hg
          refine Iff.trans ?_ (copied_kept spare hsrc hd Wv Hv hc hres (of_decide_eq_true hgf))
          constructor
          · rintro ⟨rc, σ', he, hk⟩
            obtain ⟨rfl, rfl⟩ := Prod.mk.inj (Option.some.inj he)
            exact hk
          · exact fun hk => ⟨0, _, rfl, hk⟩

end

/-- `cp /etc/motd /tmp` in the initial state. -/
theorem cp_motd_ok : CopyOk bootShell ["cp".toList, "/etc/motd".toList, "/tmp".toList] none := by
  have h : (bootVfs.copySource ["cp".toList, "/etc/motd".toList, "/tmp".toList]).any fun src =>
      bootVfs.moveDest "/etc/motd".toList "/tmp".toList = some "/tmp/motd".toList ∧
      (bootVfs.withFile "/tmp/motd".toList).any fun v =>
        (v.vfsResolve "/tmp/motd".toList).any fun g =>
          (v.node g).type = .file ∧ v.roomToWrite g (bootVfs.contents src).length = true := by
    rw [bootVfs_spelled]
    decide +kernel
  obtain ⟨src, hsrc, hd, hv⟩ := exists_of_any h
  obtain ⟨v, hv, hx⟩ := (Option.any_eq_true _ _).mp hv
  obtain ⟨g, hg, hgf, hroom⟩ := exists_of_any hx
  have hfilter : ((v.vfsResolve "/tmp/motd".toList).filter fun g => (v.node g).type = .file) =
      some g := Option.filter_eq_some_iff.mpr ⟨hg, decide_eq_true hgf⟩
  apply (copyOk_iff bootShell_running fun o ho => by rw [bootShell] at ho; cases ho).mpr
  rw [CopySafe, bootShell_vfs, hsrc]
  refine ⟨"/tmp/motd".toList, v, hd, hv, ?_⟩
  rw [hfilter]
  exact .inl hroom

/-- On a heap with nothing left `cp /root/readme.txt /etc/motd` answers 0, and `/etc/motd` is what
it was. -/
theorem cp_refused_zero : ¬ ∀ (σ : Shell) (argv : List (List Char)), Running σ.vfs →
    (∀ o, σ.outFile = some o → o < σ.vfs.next ∧ (σ.vfs.node o).type = .file) →
    CopyOk σ argv σ.outFile := by
  intro H
  have h : (heapFull.copySource ["cp".toList, "/root/readme.txt".toList, "/etc/motd".toList]).any
      fun src =>
        heapFull.moveDest "/root/readme.txt".toList "/etc/motd".toList =
          some "/etc/motd".toList ∧
        ((cmdCp ["cp".toList, "/root/readme.txt".toList, "/etc/motd".toList]).run
          { bootShell with vfs := heapFull }).any fun r => r.1 = 0 ∧
            (r.2.vfs.vfsResolve "/etc/motd".toList).any fun g =>
              (r.2.vfs.contents g).length < (heapFull.contents src).length := by
    rw [heapFull, bootVfs_spelled]
    decide +kernel
  obtain ⟨src, hsrc, hd, hr⟩ := exists_of_any h
  obtain ⟨⟨rc, σ'⟩, hr, hrc, hx⟩ := exists_of_any hr
  obtain ⟨g, hg, hlt⟩ := (Option.any_eq_true _ _).mp hx
  obtain ⟨rc', σ'', hr', h0, -⟩ := H { bootShell with vfs := heapFull }
    ["cp".toList, "/root/readme.txt".toList, "/etc/motd".toList] heapFull_running
    fun o ho => by rw [bootShell] at ho; cases ho
  obtain ⟨rfl, rfl⟩ := Prod.mk.inj (Option.some.inj (hr.symm.trans hr'))
  obtain ⟨src', dest, g', hsrc', hd', hg', -, hb, -⟩ := h0 hrc
  obtain rfl := Option.some.inj (hsrc.symm.trans hsrc')
  obtain rfl : "/etc/motd".toList = dest := Option.some.inj (hd.symm.trans hd')
  obtain rfl : g = g' := Option.some.inj (hg.symm.trans hg')
  have hlt : (σ'.vfs.contents g).length < (heapFull.contents src).length := of_decide_eq_true hlt
  rw [hb] at hlt
  exact absurd hlt (Nat.lt_irrefl _)

end BojanOS
