import BojanOS.Cmds.Input
import BojanOS.Vfs.RemoveTree
import BojanOS.Vfs.Named
import BojanOS.Shell.Redirs

/-!
# Removing without `-r` (`cmd_rm`)

`cmd_rm` takes `-f` for `-r`. What a removal takes away stays away, and a path that leads somewhere
after it led there before, so a directory or a file that no operand names is lost exactly when the
operand that is come to names a directory that has something to lose (`spares`).
-/

namespace BojanOS

open Prog

namespace Vfs

variable {s s' s₁ : Vfs} {n c d : Nat} {path : List Char}

/-- `s'` is `s` without some of the entries of the child arrays. -/
structure Trimmed (s s' : Vfs) : Prop extends Extends s' s where
  wf : Wf s → Wf s'
  sub : ∀ d, (s'.kids d).Sublist (s.kids d)
  types : ∀ d, (s'.node d).type = (s.node d).type

theorem SameTree.trimmed (S : SameTree s s') : Trimmed s s' where
  toExtends := S.symm.extends
  wf := S.wf
  sub d := by rw [S.kids]
  types := S.type

theorem Pruned.trimmed (P : Pruned s s' n) : Trimmed s s' where
  toExtends := P.extends
  wf := P.wf
  sub := P.sub
  types := P.type

theorem Trimmed.trans (T : Trimmed s s₁) (T' : Trimmed s₁ s') : Trimmed s s' where
  next := T'.next.trans T.next
  root := T.root.trans T'.root
  cwd := T.cwd.trans T'.cwd
  pwd := T.pwd.trans T'.pwd
  type m hm := (T.type m (hm.trans_le T'.next)).trans (T'.type m hm)
  par m hm := (T.par m (hm.trans_le T'.next)).trans (T'.par m hm)
  nameOf m hm := (T.nameOf m (hm.trans_le T'.next)).trans (T'.nameOf m hm)
  kids p c hc := T.kids p c (T'.kids p c hc)
  wf := T'.wf ∘ T.wf
  sub d := (T'.sub d).trans (T.sub d)
  types d := (T'.types d).trans (T.types d)

/-- `c` is a file that one of the operands names. -/
def NamedFile (s : Vfs) (operands : List (List Char)) (c : Nat) : Prop :=
  (s.node c).type = .file ∧ ∃ o ∈ operands, s.vfsResolve o = some c

instance (s : Vfs) (operands : List (List Char)) (c : Nat) : Decidable (NamedFile s operands c) :=
  instDecidableAnd

/-- The path does not lead to a directory, or to the root, or to a directory that no array has and
that has nothing in it but files that `s₀` knows as operands. -/
def spares (s₀ : Vfs) (operands : List (List Char)) (s : Vfs) (path : List Char) : Bool :=
  match s.vfsResolve path with
  | none => true
  | some n => (s.node n).type = .file ∨ n = s.root ∨
      (s.par n).all (fun p => n ∉ s.kids p) ∧ ∀ c ∈ s.kids n, NamedFile s₀ operands c

end Vfs

section

open Vfs

variable {σ σ' : Shell} {s₀ : Vfs} {p : List Char} {operands ps : List (List Char)} {rf ok : Bool}
  {rc rc' : Int} {n c d : Nat}

section call

variable {s s' : Vfs} {b : Bool}

/-- The root is not removed. -/
theorem rmCall_root (hn : s.vfsResolve p = some s.root)
    (h : (if rf = true then s.vfsRmRecursive p else some (s.vfsRm p)) = some (b, s')) : s' = s := by
  cases rf with
  | true =>
    rw [if_pos rfl, vfsRmRecursive, hn] at h
    simp only at h
    rw [if_pos trivial] at h
    exact (Prod.mk.inj (Option.some.inj h)).2.symm
  | false =>
    rw [if_neg (by decide), vfsRm, hn] at h
    simp only at h
    rw [if_pos (.inl trivial)] at h
    exact (Prod.mk.inj (Option.some.inj h)).2.symm

/-- Behind the check of the type, the node is cut off with all that is below it. -/
theorem rmCall_cut (W : s.Wf) (hn : s.vfsResolve p = some n) (hr : n ≠ s.root)
    (hdir : ¬ ((s.node n).type = .dir ∧ rf = false))
    (h : (if rf = true then s.vfsRmRecursive p else some (s.vfsRm p)) = some (b, s')) :
    Pruned s s' n ∧ (rf = false → (s.node n).type = .file) ∧ Forest.Cut s.kids s'.kids n := by
  cases rf with
  | true =>
    rw [if_pos rfl, vfsRmRecursive, hn] at h
    simp only at h
    rw [if_neg hr] at h
    exact ⟨vfsRmRecursiveNode_pruned W h, fun h => (by cases h), (vfsRmRecursiveNode_cut W hr h).2⟩
  | false =>
    have hf : (s.node n).type = .file := by
      cases ht : (s.node n).type with
      | file => rfl
      | dir => exact absurd ⟨ht, rfl⟩ hdir
    obtain ⟨P, -, C⟩ := vfsRm_cut W hn hr (.inl hf) (Option.some.inj h)
    exact ⟨P, fun _ => hf, C⟩

end call

/-- Nothing is taken away, or what the operand names with all that is below it. -/
theorem rmOperand_spec (W : σ.vfs.Wf) (h : (rmOperand rf p).run σ = some (ok, σ')) :
    Trimmed σ.vfs σ'.vfs ∧
      ((σ'.vfs.kids = σ.vfs.kids ∧ ∀ n, σ.vfs.vfsResolve p = some n →
          n = σ.vfs.root ∨ (σ.vfs.node n).type = .dir ∧ rf = false) ∨
        ∃ n, σ.vfs.vfsResolve p = some n ∧ n ≠ σ.vfs.root ∧
          (rf = false → (σ.vfs.node n).type = .file) ∧
          Forest.Cut σ.vfs.kids σ'.vfs.kids n) := by
  rw [rmOperand, run_bind, run_vfs, Option.bind_some] at h
  cases hn : σ.vfs.vfsResolve p with
  | none =>
    rw [hn] at h
    have S := Shell.shPuts_sameTree (of_run_say h).2
    exact ⟨S.trimmed, .inl ⟨S.kids, fun n hn => by cases hn⟩⟩
  | some n =>
    rw [hn] at h
    simp only at h
    by_cases hdir : (σ.vfs.node n).type = .dir ∧ rf = false
    · rw [if_pos hdir] at h
      have S := Shell.shPuts_sameTree (of_run_say h).2
      refine ⟨S.trimmed, .inl ⟨S.kids, fun m hm => .inr ?_⟩⟩
      exact Option.some.inj hm ▸ hdir
    rw [if_neg hdir] at h
    obtain ⟨b, σ₁, h₁, h⟩ := of_run_bind h
    obtain ⟨v, hv, rfl⟩ := of_run_fs h₁
    -- the answer only decides about the message
    have hS : SameTree v σ'.vfs := by
      split at h
      · obtain ⟨-, rfl⟩ := Prod.mk.inj (Option.some.inj h)
        exact .rfl'
      · exact Shell.shPuts_sameTree (of_run_say h).2
    by_cases hr : n = σ.vfs.root
    · subst hr
      obtain rfl := rmCall_root hn hv
      refine ⟨hS.trimmed, .inl ⟨hS.kids, fun m hm => .inl ?_⟩⟩
      exact (Option.some.inj hm).symm
    obtain ⟨P, hf, C⟩ := rmCall_cut W hn hr hdir hv
    refine ⟨P.trimmed.trans hS.trimmed, .inr ⟨n, rfl, hr, hf, ?_⟩⟩
    rw [hS.kids]
    exact C

theorem spares_some (W : σ.vfs.Wf) (hn : σ.vfs.vfsResolve p = some n)
    (h : spares s₀ operands σ.vfs p = true) : (σ.vfs.node n).type = .file ∨ n = σ.vfs.root ∨
      (∀ q, n ∉ σ.vfs.kids q) ∧ ∀ c ∈ σ.vfs.kids n, NamedFile s₀ operands c := by
  rw [spares, hn] at h
  rcases of_decide_eq_true h with hf | hr | ⟨hfree, hk⟩
  · exact .inl hf
  · exact .inr (.inl hr)
  · refine .inr (.inr ⟨fun q hq => ?_, hk⟩)
    rw [W.forest.par_eq hq] at hfree
    exact of_decide_eq_true hfree hq

/-- What goes with an operand that is spared is a file that an operand names. -/
theorem rmOperand_kept (W₀ : s₀.Wf) (T : Trimmed s₀ σ.vfs) (hp : p ∈ operands)
    (hs : rf = false ∨ spares s₀ operands σ.vfs p = true)
    (h : (rmOperand rf p).run σ = some (ok, σ')) (hc : c ∈ σ.vfs.kids d)
    (hno : c ∉ σ'.vfs.kids d) : NamedFile s₀ operands c := by
  have W := T.wf W₀
  rcases (rmOperand_spec W h).2 with ⟨hk, -⟩ | ⟨n, hn, hr, hf, C⟩
  · exact absurd (hk ▸ hc) hno
  have hlast : ¬ Below σ.vfs.kids n d → c = n := by
    intro hd
    by_contra hne
    apply hno
    rw [C.kept hd, List.mem_filter]
    exact ⟨hc, decide_eq_true hne⟩
  have hcase : (σ.vfs.node n).type = .file ∨
      (∀ q, n ∉ σ.vfs.kids q) ∧ ∀ c ∈ σ.vfs.kids n, NamedFile s₀ operands c := by
    rcases hs with rfl | hs
    · exact .inl (hf rfl)
    · exact (spares_some W hn hs).imp_right fun h => h.resolve_left hr
  rcases hcase with hfile | ⟨hfree, hkids⟩
  · have hd : ¬ Below σ.vfs.kids n d := by
      intro hd
      rw [hd.eq_of_leaf (W.file_leaf n hfile), W.file_leaf n hfile] at hc
      cases hc
    obtain rfl := hlast hd
    exact ⟨(T.types c).symm.trans hfile, p, hp, T.vfsResolve W W₀ hn⟩
  · by_cases hd : Below σ.vfs.kids n d
    · obtain rfl | ⟨e, he, hed⟩ := Relation.ReflTransGen.cases_head hd
      · exact hkids c hc
      · -- a file has nothing below it
        have hleaf := W.file_leaf e ((T.types e).trans (hkids e he).1)
        rw [Below.eq_of_leaf hed hleaf, hleaf] at hc
        cases hc
    · obtain rfl := hlast hd
      exact absurd hc (hfree d)

/-- A directory that is not spared loses what is not a file that an operand names. -/
theorem rmOperand_lost (W₀ : s₀.Wf) (T : Trimmed s₀ σ.vfs)
    (hs : spares s₀ operands σ.vfs p = false)
    (h : (rmOperand true p).run σ = some (ok, σ')) :
    ∃ d c, c ∈ σ.vfs.kids d ∧ c ∉ σ'.vfs.kids d ∧ ¬ NamedFile s₀ operands c := by
  have W := T.wf W₀
  cases hn : σ.vfs.vfsResolve p with
  | none =>
    rw [spares, hn] at hs
    cases hs
  | some n =>
    rw [spares, hn] at hs
    have hno := of_decide_eq_false hs
    rw [not_or, not_or, not_and_or] at hno
    obtain ⟨hfile, hr, hlost⟩ := hno
    have C : Forest.Cut σ.vfs.kids σ'.vfs.kids n := by
      rcases (rmOperand_spec W h).2 with ⟨-, hsame⟩ | ⟨m, hm, -, -, C⟩
      · rcases hsame n hn with h | ⟨-, h⟩
        · exact absurd h hr
        · cases h
      · obtain rfl := Option.some.inj (hn.symm.trans hm)
        exact C
    rcases hlost with hlinked | hkids
    · cases hpar : σ.vfs.par n with
      | none =>
        rw [hpar] at hlinked
        exact absurd rfl hlinked
      | some q =>
        rw [hpar] at hlinked
        have hq : n ∈ σ.vfs.kids q := by
          by_contra hq
          exact hlinked (decide_eq_true hq)
        refine ⟨q, n, hq, fun hm => ?_, fun hnamed => hfile ((T.types n).trans hnamed.1)⟩
        rw [C.kept (W.not_below hq), List.mem_filter] at hm
        exact of_decide_eq_true hm.2 rfl
    · push Not at hkids
      obtain ⟨c, hc, hnamed⟩ := hkids
      refine ⟨n, c, hc, fun hm => ?_, hnamed⟩
      rw [C.gone .refl] at hm
      cases hm

/-- What goes along the operands. -/
theorem eachRm_iff (W₀ : s₀.Wf) (T : Trimmed s₀ σ.vfs) (hps : ∀ p ∈ ps, p ∈ operands)
    (h : (eachOperand (rmOperand rf) ps rc).run σ = some (rc', σ')) :
    Trimmed σ.vfs σ'.vfs ∧
      ((∀ d c, c ∈ σ.vfs.kids d → c ∉ σ'.vfs.kids d → NamedFile s₀ operands c) ↔
        rf = false ∨ eachMeets (spares s₀ operands) (rmOperand rf) ps σ = true) := by
  induction ps generalizing σ rc with
  | nil =>
    obtain ⟨-, rfl⟩ := Prod.mk.inj (Option.some.inj h)
    exact ⟨SameTree.rfl'.trimmed, iff_of_true (fun d c hc hno => absurd hc hno) (.inr rfl)⟩
  | cons p ps ih =>
    rw [eachOperand] at h
    obtain ⟨ok, σ₁, h₁, h⟩ := of_run_bind h
    have T₁ := (rmOperand_spec (T.wf W₀) h₁).1
    obtain ⟨T', hrest⟩ := ih (T.trans T₁) (fun q hq => hps q (List.mem_cons_of_mem p hq)) h
    refine ⟨T₁.trans T', ?_⟩
    rw [eachMeets, h₁, Bool.and_eq_true]
    constructor
    · intro hall
      have hlater := hrest.mp fun d c hc hno => hall d c ((T₁.sub d).subset hc) hno
      cases rf with
      | false => exact .inl rfl
      | true =>
        refine .inr ⟨?_, hlater.resolve_left (by decide)⟩
        by_contra hs
        obtain ⟨d, c, hc, hno, hnamed⟩ := rmOperand_lost W₀ T ((Bool.not_eq_true _).mp hs) h₁
        exact hnamed (hall d c hc fun hm => hno ((T'.sub d).subset hm))
    · intro hmeets d c hc hno
      by_cases hc₁ : c ∈ σ₁.vfs.kids d
      · exact hrest.mpr (hmeets.imp_right And.right) d c hc₁ hno
      · exact rmOperand_kept W₀ T (hps p List.mem_cons_self) (hmeets.imp_right And.left) h₁ hc hc₁

end

/-! ## What is asked of `rm` without `-r` -/

namespace Vfs

/-- Every directory is still there, and has what it had but for files that an operand names. -/
structure RmKept (operands : List (List Char)) (s s' : Vfs) : Prop where
  dirs : ∀ d, (s.node d).type = .dir → s.InTree d → s'.InTree d ∧ (s'.node d).type = .dir ∧
    s'.nameOf d = s.nameOf d ∧ s'.par d = s.par d
  sub : ∀ d, (s'.kids d).Sublist (s.kids d)
  named : ∀ d c, c ∈ s.kids d → c ∉ s'.kids d → NamedFile s operands c

theorem Trimmed.rmKept {s s' : Vfs} {operands : List (List Char)} (W : s.Wf) (T : Trimmed s s')
    (H : ∀ d c, c ∈ s.kids d → c ∉ s'.kids d → NamedFile s operands c) :
    RmKept operands s s' where
  dirs d hd hin := by
    have hin' : s'.InTree d := by
      rw [InTree, ← T.root]
      induction hin with
      | refl => exact .refl
      | @tail q c _ hc ih =>
        have hq : (s.node q).type = .dir := by
          cases ht : (s.node q).type with
          | dir => rfl
          | file =>
            rw [W.file_leaf q ht] at hc
            cases hc
        refine (ih hq).tail ?_
        by_contra hno
        have hfile := (H q c hc hno).1
        rw [hd] at hfile
        cases hfile
    have hlt := (T.wf W).inTree_lt hin'
    exact ⟨hin', (T.types d).trans hd, (T.nameOf d hlt).symm, (T.par d hlt).symm⟩
  sub := T.sub
  named := H

end Vfs

open Vfs in
/-- Without `-r` and `-R`, `rm` takes no directory away exactly when `-f` is not given either or no
operand that is come to names a directory with something to lose. -/
theorem rm_iff {σ σ' : Shell} {argv : List (List Char)} {rc : Int} (hs : Running σ.vfs)
    (hletters : 'r' ∉ (options (argv.drop 1)).1 ∧ 'R' ∉ (options (argv.drop 1)).1)
    (h : (cmdRm argv).run σ = some (rc, σ')) :
    RmKept (options (argv.drop 1)).2 σ.vfs σ'.vfs ↔
      'f' ∉ (options (argv.drop 1)).1 ∨
        eachMeets (spares σ.vfs (options (argv.drop 1)).2) (rmOperand true)
          (options (argv.drop 1)).2 σ = true := by
  rw [cmdRm, rmFlags_eq] at h
  generalize (options (argv.drop 1)).1 = letters at hletters h ⊢
  generalize (options (argv.drop 1)).2 = operands at h ⊢
  have W := hs.wf
  have hrf : (letters.any fun c => c = 'r' ∨ c = 'R' ∨ c = 'f') = decide ('f' ∈ letters) := by
    rw [Bool.eq_iff_iff, List.any_eq_true, decide_eq_true_iff]
    constructor
    · rintro ⟨c, hc, he⟩
      rcases of_decide_eq_true he with rfl | rfl | rfl
      · exact absurd hc hletters.1
      · exact absurd hc hletters.2
      · exact hc
    · exact fun hf => ⟨'f', hf, by decide⟩
  rw [hrf] at h
  have hrun : Trimmed σ.vfs σ'.vfs ∧
      ((∀ d c, c ∈ σ.vfs.kids d → c ∉ σ'.vfs.kids d → NamedFile σ.vfs operands c) ↔
        decide ('f' ∈ letters) = false ∨
          eachMeets (spares σ.vfs operands) (rmOperand (decide ('f' ∈ letters))) operands σ =
            true) := by
    simp only at h
    split at h
    · rename_i hnil
      subst hnil
      have S := Shell.shPuts_sameTree (of_run_say h).2
      refine ⟨S.trimmed, iff_of_true (fun d c hc hno => ?_) (.inr rfl)⟩
      rw [S.kids] at hno
      exact absurd hc hno
    · exact eachRm_iff W SameTree.rfl'.trimmed (fun _ hp => hp) h
  obtain ⟨T, hiff⟩ := hrun
  have hkept : RmKept operands σ.vfs σ'.vfs ↔
      ∀ d c, c ∈ σ.vfs.kids d → c ∉ σ'.vfs.kids d → NamedFile σ.vfs operands c :=
    ⟨fun K => K.named, T.rmKept W⟩
  rw [hkept, hiff]
  by_cases hf : 'f' ∈ letters
  · rw [decide_eq_true hf]
    simp [hf]
  · simp [hf]

open Vfs in
/-- A file with `-f`. -/
theorem rm_motd_kept : ∃ rc σ',
    (cmdRm ["rm".toList, "-f".toList, "/etc/motd".toList]).run bootShell = some (rc, σ') ∧
      RmKept ["/etc/motd".toList] bootShell.vfs σ'.vfs := by
  have h : ((cmdRm ["rm".toList, "-f".toList, "/etc/motd".toList]).run bootShell).isSome ∧
      eachMeets (spares bootShell.vfs ["/etc/motd".toList]) (rmOperand true) ["/etc/motd".toList]
        bootShell = true := by
    rw [bootShell_spelled]
    decide +kernel
  obtain ⟨hrun, hm⟩ := h
  obtain ⟨⟨rc, σ'⟩, hrun⟩ := Option.isSome_iff_exists.mp hrun
  exact ⟨rc, σ', hrun, (rm_iff bootShell_running (by decide) hrun).mpr (.inr hm)⟩

open Vfs in
/-- `rm -f /home` takes `/home` away, and `/home/user` with it. -/
theorem rm_home_lost : ¬ ∀ (σ σ' : Shell) (argv : List (List Char)) (rc : Int), Running σ.vfs →
    'r' ∉ (options (argv.drop 1)).1 ∧ 'R' ∉ (options (argv.drop 1)).1 →
    (cmdRm argv).run σ = some (rc, σ') → RmKept (options (argv.drop 1)).2 σ.vfs σ'.vfs := by
  intro H
  have h : ((cmdRm ["rm".toList, "-f".toList, "/home".toList]).run bootShell).any fun r =>
      3 ∈ bootShell.vfs.kids 0 ∧ 3 ∉ r.2.vfs.kids 0 ∧ (bootShell.vfs.node 3).type = .dir := by
    rw [bootShell_spelled]
    decide +kernel
  obtain ⟨⟨rc, σ'⟩, hrun, hin, hno, hdir⟩ := exists_of_any h
  have K := H bootShell σ' ["rm".toList, "-f".toList, "/home".toList] rc bootShell_running
    (by decide) hrun
  have hfile := (K.named 0 3 hin hno).1
  rw [hdir] at hfile
  cases hfile

end BojanOS
