import BojanOS.Cmds.Requests
import BojanOS.Cmds.Table

/-!
# What each command may do

`Env.effects`: a command that is not one of `changers` asks the heap for memory at most, and the
others call operations of `vfs.c`, on nodes that there are and with texts that fit.
-/

namespace BojanOS

open Prog Vfs

namespace Prog

variable {α : Type} {Q : Vfs → Vfs → Prop} {R : α → Prop}

theorem Gives.ite {c : Prop} [Decidable c] {p q : Prog α} (hp : p.Gives Q R)
    (hq : q.Gives Q R) : (if c then p else q).Gives Q R := by
  split
  · exact hp
  · exact hq

theorem Only.shPutc (c : Char) : (shPutc c).Only Q := Only.puts [c]

theorem Only.putf (format : List Char) (args : List PrintfArg) : (putf format args).Only Q := by
  rw [Prog.putf]
  split
  · exact .fault
  · exact Only.puts _

theorem Only.newline (a : α) : (Prog.shPutc '\n' >>= fun _ => (Pure.pure a : Prog α)).Only Q :=
  Only.bind (.shPutc '\n') fun _ => Only.pure a

theorem Only.putLine (line : List Char) : (putLine line).Only Q :=
  Only.bind (.puts _) fun _ => Only.shPutc _

end Prog

section

variable {Q : Vfs → Vfs → Prop} {fuel : Nat}

/-! ## Commands that only write -/

theorem cmdText_only (lines : List String) (argv : List (List Char)) :
    (cmdText lines argv).Only Q :=
  Only.bind (.forM fun line => Only.puts line.toList) fun _ => Only.pure 0

theorem cmdHalt_only (message : String) (argv : List (List Char)) :
    (cmdHalt message argv).Only Q :=
  Only.bind (.puts _) fun _ => .fault

theorem cmdAbout_only (cpuVendor : List Char) (totalMemKb : BitVec 32) (argv : List (List Char)) :
    (cmdAbout cpuVendor totalMemKb argv).Only Q :=
  Only.bind (cmdText_only _ argv) fun _ =>
    Only.bind (.putf _ _) fun _ => Only.say _ trivial

theorem echoLoop_only (first : Bool) (words : List (List Char)) :
    (echoLoop first words).Only Q := by
  induction words generalizing first with
  | nil => exact Only.pure ()
  | cons word words ih =>
    have hword := Only.bind (Only.puts word) fun _ => ih false
    rw [echoLoop]
    exact .ite hword (Only.bind (.shPutc ' ') fun _ => hword)

theorem cmdEcho_only (argv : List (List Char)) : (cmdEcho argv).Only Q :=
  Only.bind (echoLoop_only true _) fun _ =>
    .ite (Only.pure 0) (Only.bind (.shPutc '\n') fun _ => Only.pure 0)

theorem printfLoop_only (s : List Char) : (printfLoop s).Only Q := by
  induction s using printfLoop.induct with
  | case1 => exact Only.pure ()
  | case2 c => exact Only.shPutc c
  | case3 d s ih =>
    rw [printfLoop, if_pos rfl]
    exact Only.bind (.shPutc _) fun _ => ih
  | case4 c d s hc ih =>
    rw [printfLoop, if_neg hc]
    exact Only.bind (.shPutc c) fun _ => ih

theorem cmdPrintf_only (argv : List (List Char)) : (cmdPrintf argv).Only Q :=
  Only.bind (.forM printfLoop_only) fun _ => Only.pure 0

theorem cmdBasename_only (argv : List (List Char)) : (cmdBasename argv).Only Q :=
  Gives.ite (Only.pure 1) (Only.bind (.puts _) fun _ => Only.newline 0)

theorem cmdDirname_only (argv : List (List Char)) : (cmdDirname argv).Only Q := by
  refine Gives.ite (Only.pure 1) ?_
  dsimp only
  split
  · exact Only.say _ trivial
  · exact Gives.ite (Only.say _ trivial)
      (Only.bind (.puts _) fun _ => Only.newline 0)

theorem cmdUname_only (argv : List (List Char)) : (cmdUname argv).Only Q := Only.say _ trivial

theorem cmdHostname_only (hostname : List Char) (argv : List (List Char)) :
    (cmdHostname hostname argv).Only Q :=
  Gives.ite (Only.pure 0) (Only.bind (.puts _) fun _ => Only.newline 0)

theorem cmdUptime_only (uptimeMs : BitVec 64) (argv : List (List Char)) :
    (cmdUptime uptimeMs argv).Only Q :=
  Only.bind (.putf _ _) fun _ => Only.pure 0

theorem cmdLscpu_only (cpuVendor : List Char) (argv : List (List Char)) :
    (cmdLscpu cpuVendor argv).Only Q :=
  Only.bind (.puts _) fun _ => Only.bind (.puts _) fun _ =>
    Only.bind (.putf _ _) fun _ => Only.say _ trivial

theorem historyLoop_only (i : Nat) (history : List (Option (List Char))) :
    (historyLoop i history).Only Q := by
  induction history generalizing i with
  | nil => exact Only.pure ()
  | cons text history ih => exact Only.bind (.putf _ _) fun _ => ih (i + 1)

theorem cmdHistory_only (history : List (Option (List Char))) (argv : List (List Char)) :
    (cmdHistory history argv).Only Q :=
  Only.bind (historyLoop_only 0 history) fun _ => Only.pure 0

theorem seqLoop_only (step last : Int) (k : Nat) (v : Int) : (seqLoop step last k v).Only Q := by
  induction k generalizing v with
  | zero => exact .fault
  | succ k ih => exact Gives.ite (Only.bind (.puts _) fun _ => ih (v + step)) (Only.pure ())

theorem cmdSeq_only (argv : List (List Char)) : (cmdSeq argv).Only Q := by
  rw [cmdSeq]
  dsimp only
  split
  · exact .fault
  · exact Gives.ite (Only.pure 1) (Only.bind (seqLoop_only _ _ _ _) fun _ => Only.pure 0)

theorem factorDivide_only (d : Int) (k : Nat) (n : Int) : (factorDivide d k n).Only Q := by
  induction k generalizing n with
  | zero => exact .fault
  | succ k ih => exact Gives.ite (Only.bind (.puts _) fun _ => ih _) (Only.pure n)

theorem factorLoop_only (k : Nat) (d n : Int) : (factorLoop k d n).Only Q := by
  induction k generalizing d n with
  | zero => exact .fault
  | succ k ih =>
    rw [factorLoop]
    split
    · exact .fault
    · exact Gives.ite (Only.bind (factorDivide_only d _ n) fun m => ih (d + 1) m) (Only.pure n)

theorem cmdFactor_only (argv : List (List Char)) : (cmdFactor argv).Only Q := by
  rw [cmdFactor]
  refine Gives.ite (Only.say _ trivial) ?_
  split
  · exact .fault
  · exact Only.bind (.puts _) fun _ => Gives.ite (Only.newline 0)
      (Only.bind (factorLoop_only _ _ _) fun _ =>
        .ite (Only.bind (.puts _) fun _ => Only.newline 0) (Only.newline 0))

theorem calBlanks_only (k : Nat) : (calBlanks k).Only Q := by
  induction k with
  | zero => exact Only.pure ()
  | succ k ih => exact Only.bind (.puts _) fun _ => ih

theorem calDays_only (first : Int) (k : Nat) (d : Int) : (calDays first k d).Only Q := by
  induction k generalizing d with
  | zero => exact Only.pure ()
  | succ k ih =>
    exact Only.bind (.putf _ _) fun _ =>
      .ite (Only.bind (.shPutc '\n') fun _ => ih (d + 1)) (ih (d + 1))

theorem cmdCal_only (now : RtcTime) (argv : List (List Char)) : (cmdCal now argv).Only Q := by
  rw [cmdCal]
  split
  · exact .fault
  split
  · exact Only.bind (.putf _ _) fun _ => Only.bind (.puts _) fun _ =>
      Only.bind (Only.bind (calBlanks_only _) fun _ => Only.bind (calDays_only _ _ _) fun _ =>
        Gives.ite (Only.shPutc _) (Only.pure ())) fun _ => Only.pure 0
  · exact .fault

theorem cmdDate_only (t : RtcTime) : (cmdDate t).Only Q := by
  rw [cmdDate]
  split
  · exact Only.bind (.putf _ _) fun _ => Only.pure 0
  · exact .fault

theorem Env.sleep_only (e : Env) (argv : List (List Char)) : (e.sleep argv).Only Q := by
  rw [Env.sleep]
  split
  · exact .fault
  · exact Only.pure _

/-! ## Commands that look at the tree -/

theorem cmdPwd_only (argv : List (List Char)) : (cmdPwd argv).Only Q :=
  Only.vfs fun v => Only.bind (.puts v.pwd) fun _ => Only.newline 0

theorem cmdStat_only (argv : List (List Char)) : (cmdStat argv).Only Q := by
  refine Gives.ite (Only.fail _) (Only.vfs fun _ => ?_)
  split
  · exact Only.say _ trivial
  · exact Only.bind (.putf _ _) fun _ => Only.vfs fun _ => Only.bind (.putf _ _) fun _ =>
      Only.bind (.putf _ _) fun _ => Only.pure 0

theorem cmdDf_only (argv : List (List Char)) : (cmdDf argv).Only Q :=
  Only.bind (.puts _) fun _ => Only.vfs fun _ => Only.bind (.putf _ _) fun _ => Only.pure 0

theorem cmdFree_only (totalMemKb : BitVec 32) (argv : List (List Char)) :
    (cmdFree totalMemKb argv).Only Q :=
  Only.bind (.puts _) fun _ => Only.vfs fun _ =>
    Only.bind (.putf _ _) fun _ => Only.say _ trivial

theorem testOperands_only (words : List (List Char)) : (testOperands words).Only Q := by
  rw [testOperands.eq_def]
  split
  · exact Only.pure _
  · exact Only.vfs fun _ => Only.pure _
  · split
    · exact .fault
    · exact Only.pure _
  · exact Only.pure 1

theorem cmdTest_only (argv : List (List Char)) : (cmdTest argv).Only Q := by
  rw [cmdTest]
  exact .ite (.ite (Only.say _ trivial) (testOperands_only _)) (testOperands_only _)

theorem printEntry_only (n : Nat) (longfmt : Bool) : (printEntry n longfmt).Only Q := by
  rw [printEntry]
  refine .ite (Only.vfs fun _ => Only.bind (.puts _) fun _ => Only.vfs fun _ =>
    Only.bind (.putf _ _) fun _ => ?_) ?_
  all_goals
    exact Only.vfs fun _ => Only.bind (.puts _) fun _ =>
      .ite (Only.bind (.shPutc _) fun _ => Only.shPutc _) (Only.shPutc _)

theorem lsDir_only (dir : Nat) (longfmt all : Bool) : (lsDir dir longfmt all).Only Q :=
  Only.vfs fun _ => Only.bind
    (.forM fun c => Gives.ite (Only.pure ()) (printEntry_only c longfmt)) fun _ => Only.pure 0

theorem lsOperands_only (longfmt all first : Bool) (ps : List (List Char)) (rc : Int) :
    (lsOperands longfmt all first ps rc).Only Q := by
  induction ps generalizing first rc with
  | nil => exact Only.pure rc
  | cons p ps ih =>
    refine Only.vfs fun _ => ?_
    split
    · exact Only.bind (.puts _) fun _ => ih false 1
    · rename_i n _
      have hdir := Only.bind (lsDir_only n longfmt all) fun _ => ih false rc
      exact .ite (.ite hdir (Only.bind (.puts _) fun _ => hdir))
        (Only.bind (printEntry_only n longfmt) fun _ => ih false rc)

theorem cmdLs_only (argv : List (List Char)) : (cmdLs argv).Only Q :=
  Gives.ite (Only.vfs fun _ => lsDir_only _ _ _) (lsOperands_only _ _ _ _ _)

theorem Env.ll_only (e : Env) (argv : List (List Char)) : (e.ll argv).Only Q := by
  rw [Env.ll]
  split
  · exact .fault
  rw [llCall]
  split
  · exact .fault
  · exact cmdLs_only _

theorem findRec_only (pat : Option (List Char)) (k dir : Nat) (pre : List Char) :
    (findRec pat k dir pre).Only Q := by
  induction k generalizing dir pre with
  | zero => exact .fault
  | succ k ih =>
    refine Only.vfs fun _ => Only.forM fun _ => ?_
    refine Only.bind (.ite (Only.puts _) (Only.pure ())) fun _ => .ite ?_ (Only.pure ())
    split
    · exact .fault
    · exact ih _ _

theorem cmdFind_only (argv : List (List Char)) : (cmdFind argv).Only Q := by
  rw [cmdFind]
  refine Only.vfs fun v => ?_
  split
  · exact Only.say _ trivial
  · exact .ite (Only.say _ trivial)
      (Only.bind (.puts _) fun _ => Only.bind (findRec_only _ _ _ _) fun _ => Only.pure 0)

theorem treeRec_only (k dir depth : Nat) : (treeRec k dir depth).Only Q := by
  induction k generalizing dir depth with
  | zero => exact .fault
  | succ k ih =>
    exact Only.vfs fun _ => Only.forM fun c => Only.bind (.puts _) fun _ =>
      .ite (ih c (depth + 1)) (Only.pure ())

theorem cmdTree_only (argv : List (List Char)) : (cmdTree argv).Only Q := by
  refine Only.vfs fun v => ?_
  split
  · exact Only.fail _
  · exact Only.bind (.puts _) fun _ => Only.bind (treeRec_only _ _ _) fun _ => Only.pure 0

theorem cmdDu_only (argv : List (List Char)) : (cmdDu argv).Only Q := by
  refine Only.vfs fun v => ?_
  split
  · exact Only.fail _
  split
  · exact .fault
  · exact Only.bind (.putf _ _) fun _ => Only.pure 0

/-! ## Commands that read text -/

theorem cmdRev_only (argv : List (List Char)) : (cmdRev fuel argv).Only Allocates :=
  Only.onLines fun _ => Only.bind (.forM fun _ => Only.bind (.puts _) fun _ => Only.shPutc _)
    fun _ => Only.pure 0

theorem nlLoop_only (i : Nat) (lines : List (List Char)) : (nlLoop i lines).Only Q := by
  induction lines generalizing i with
  | nil => exact Only.pure ()
  | cons line lines ih => exact Only.bind (.putf _ _) fun _ => ih (i + 1)

theorem cmdNl_only (argv : List (List Char)) : (cmdNl fuel argv).Only Allocates :=
  Only.onLines fun lines => Only.bind (nlLoop_only 0 lines) fun _ => Only.pure 0

theorem grepLoop_only (ci inv : Bool) (pat : List Char) (found : Bool) (lines : List (List Char)) :
    (grepLoop ci inv pat found lines).Only Q := by
  induction lines generalizing found with
  | nil => exact Only.pure found
  | cons line lines ih =>
    exact Gives.ite (Only.bind (.putLine line) fun _ => ih true) (ih found)

theorem cmdGrep_only (argv : List (List Char)) : (cmdGrep fuel argv).Only Allocates := by
  rw [cmdGrep]
  dsimp only
  split
  · exact Only.say _ trivial
  · exact Only.onLines fun lines =>
      Only.bind (grepLoop_only _ _ _ _ _) fun found => Only.pure _

theorem sortPrint_only (uniq : Bool) (prev : Option (List Char)) (lines : List (List Char)) :
    (sortPrint uniq prev lines).Only Q := by
  induction lines generalizing prev with
  | nil => exact Only.pure ()
  | cons line lines ih =>
    exact Gives.ite (ih prev) (Only.bind (.putLine line) fun _ => ih (some line))

theorem cmdSort_only (argv : List (List Char)) : (cmdSort fuel argv).Only Allocates := by
  refine Only.onLines fun lines => ?_
  split
  · exact .fault
  · exact Only.bind (sortPrint_only _ _ _) fun _ => Only.pure 0

theorem uniqLoop_only (count : Bool) (run : Nat) (lines : List (List Char)) :
    (uniqLoop count run lines).Only Q := by
  induction lines generalizing run with
  | nil => exact Only.pure ()
  | cons line lines ih =>
    have hline := Only.bind (Only.putLine line) fun _ => ih 0
    exact Gives.ite (ih (run + 1)) (.ite (Only.bind (.puts _) fun _ => hline) hline)

theorem cmdUniq_only (argv : List (List Char)) : (cmdUniq fuel argv).Only Allocates :=
  Only.onLines fun _ => Only.bind (uniqLoop_only _ _ _) fun _ => Only.pure 0

theorem walkLoop_only (la lb : List (List Char)) (d : Nat → Nat) (k i j : Nat) :
    (walkLoop la lb d k i j).Only Q := by
  induction k generalizing i j with
  | zero => exact .fault
  | succ k ih =>
    have hput : ∀ mark line, (putDiff mark line).Only Q := fun _ _ => Only.puts _
    rw [walkLoop]
    refine .ite (.ite (ih _ _) (.ite ?_ (.ite ?_ (.ite ?_ (.ite ?_ ?_))))) (Only.pure ())
    · exact Only.bind (hput _ _) fun _ => ih _ _
    · exact Only.bind (hput _ _) fun _ => ih _ _
    · exact Only.bind (hput _ _) fun _ => Only.bind (hput _ _) fun _ => ih _ _
    · exact Only.bind (hput _ _) fun _ => ih _ _
    · exact Only.bind (hput _ _) fun _ => ih _ _

theorem cmdDiff_only (argv : List (List Char)) : (cmdDiff argv).Only Allocates := by
  refine Gives.ite (Only.say _ trivial) (Only.bind (diffStart_only _ _) fun start => ?_)
  rcases start with _ | ⟨la, lb, _ | block⟩
  · exact Only.pure 2
  · exact Only.fail _
  · exact Gives.ite (Only.say _ trivial)
      (Only.bind (walkLoop_only _ _ _ _ _ _) fun _ => Only.pure 1)

namespace InFile

variable {f : InFile}

/-- The reads of an open file change nothing. -/
def ReadOnly (f : InFile) : Prop := ∀ Q i, (f.read i).Only Q

theorem ofNode_readOnly (v : Vnode) : (ofNode v).ReadOnly := by
  intro Q i
  rw [ofNode]
  dsimp only
  split
  · exact .fault
  · exact Only.vfs fun v => Only.pure _

theorem ofText_readOnly (text : List Char) : (ofText text).ReadOnly := by
  intro Q i
  rw [ofText]
  dsimp only
  split
  · exact .fault
  · exact Only.pure _

theorem openInput_readOnly (path : Option (List Char)) :
    (openInput byPointer fuel path).Gives Allocates fun f => ∀ f', f = some f' → f'.ReadOnly := by
  cases path with
  | none =>
    refine Gives.bind readStdin_init fun b _ => Gives.pure fun f hf => ?_
    split at hf
    · exact Option.some.inj hf ▸ ofText_readOnly _
    · cases hf
  | some path =>
    refine Only.vfs fun v => ?_
    split
    · exact Only.say _ fun f hf => by cases hf
    · exact .pure fun f hf => Option.some.inj hf ▸ ofNode_readOnly _

theorem copy_only (hf : f.ReadOnly) (k i : Nat) : (f.copy k i).Only Q := by
  induction k generalizing i with
  | zero => exact Only.pure ()
  | succ k ih => exact Only.bind (hf Q i) fun c => Only.bind (.shPutc c) fun _ => ih (i + 1)

theorem catFiles_only (paths : List (List Char)) (rc : Int) :
    (catFiles byPointer fuel paths rc).Only Allocates := by
  induction paths generalizing rc with
  | nil => exact Only.pure rc
  | cons path paths ih =>
    refine Gives.bind (openInput_readOnly _) fun f hf => ?_
    cases f with
    | none => exact ih 1
    | some f =>
      exact Only.bind (.ite (copy_only (hf f rfl) _ _) (Only.pure ())) fun _ => ih rc

theorem cmdCat_only (argv : List (List Char)) : (cmdCat byPointer fuel argv).Only Allocates :=
  Gives.ite (Gives.bind readStdin_init fun _ _ =>
    .ite (Only.bind (.puts _) fun _ => Only.pure 0) (Only.pure 0)) (catFiles_only _ _)

theorem headLoop_only (hf : f.ReadOnly) (n k i lines : Nat) : (f.headLoop n k i lines).Only Q := by
  induction k generalizing i lines with
  | zero => exact Only.pure ()
  | succ k ih =>
    exact Gives.ite (Only.bind (hf Q i) fun c => Only.bind (.shPutc c) fun _ =>
      Only.bind (hf Q i) fun c => ih _ _) (Only.pure ())

theorem cmdHead_only (argv : List (List Char)) : (cmdHead byPointer fuel argv).Only Allocates := by
  refine Gives.bind (openInput_readOnly _) fun f hf => ?_
  cases f with
  | none => exact Only.pure 1
  | some f => exact Only.bind (headLoop_only (hf f rfl) _ _ _ _) fun _ => Only.pure 0

theorem tailLoop_only (hf : f.ReadOnly) (n : Int) (i : Nat) (lines : Int) :
    (f.tailLoop n i lines).Only Q := by
  induction i generalizing lines with
  | zero => exact Only.pure 0
  | succ i ih => exact Only.bind (hf Q i) fun c => .ite (.ite (Only.pure _) (ih _)) (ih _)

theorem cmdTail_only (argv : List (List Char)) : (cmdTail byPointer fuel argv).Only Allocates := by
  refine Gives.bind (openInput_readOnly _) fun f hf => ?_
  cases f with
  | none => exact Only.pure 1
  | some f =>
    exact Only.bind (Only.bind (tailLoop_only (hf f rfl) _ _ _) fun start =>
      copy_only (hf f rfl) _ _) fun _ => Only.pure 0

theorem wcLoop_only (hf : f.ReadOnly) (k i : Nat) (w : Counts) : (f.wcLoop k i w).Only Q := by
  induction k generalizing i w with
  | zero => exact Only.pure w
  | succ k ih => exact Only.bind (hf Q i) fun c => ih _ _

theorem putCount_only (n : Nat) : (putCount n).Only Q := Only.putf _ _

theorem wcReport_only (letters : List Char) (path : Option (List Char)) (w : Counts)
    (bytes : Nat) : (wcReport letters path w bytes).Only Q := by
  rw [wcReport]
  refine .ite (Only.bind (putCount_only _) fun _ => ?_) ?_ <;>
  refine .ite (Only.bind (putCount_only _) fun _ => ?_) ?_ <;>
  refine .ite (Only.bind (putCount_only _) fun _ => ?_) ?_ <;>
  exact Only.bind (.puts _) fun _ => Only.newline 0

theorem cmdWc_only (argv : List (List Char)) : (cmdWc byPointer fuel argv).Only Allocates := by
  refine Gives.bind (openInput_readOnly _) fun f hf => ?_
  cases f with
  | none => exact Only.pure 1
  | some f =>
    exact Only.bind (wcLoop_only (hf f rfl) _ _ _) fun _ => wcReport_only _ _ _ _

end InFile

/-! ## Commands that change the tree -/

theorem cmdCd_only (argv : List (List Char)) : (cmdCd argv).Only FsCalls := by
  refine Gives.vfs fun v S => ?_
  split
  · exact Only.say _ trivial v S
  · rename_i n hn
    split
    · exact Only.say _ trivial v S
    · rename_i hd
      have hlt := S.wf.vfsResolve_lt hn
      refine Wp.bind S (Wp.fs fun _ v' h => ⟨?_, fun _ => trivial⟩) fun _ _ _ _ => trivial
      obtain ⟨v₁, henter, he⟩ := Option.map_eq_some_iff.mp h
      obtain ⟨-, rfl⟩ := Prod.mk.inj he
      exact .single (.enter hlt (not_not.mp hd) henter)

/-- One operation of `vfs.c`, whatever its answer. -/
theorem Only.step (op : FsOp) {f : Vfs → Option (Bool × Vfs)} (h : ∀ v, f v = op.step v) :
    (fs f).Only FsCalls :=
  .fs fun v _ _ _ hf => fsCalls_of_step op (h v ▸ hf)

theorem mkdirOperand_only (p : List Char) : (mkdirOperand p).Only FsCalls :=
  Only.bind (Only.step (.mkdir p) fun _ => rfl) fun _ =>
    .ite (Only.pure true) (Only.complain _)

theorem cmdMkdir_only (argv : List (List Char)) : (cmdMkdir argv).Only FsCalls :=
  Gives.ite (Only.fail _) (Only.eachOperand mkdirOperand_only _ _)

theorem touchOperand_only (p : List Char) : (touchOperand p).Only FsCalls := by
  refine Only.vfs fun v => ?_
  split
  · exact Only.bind (Only.step (.mkfile p) fun _ => rfl) fun _ =>
      .ite (Only.pure true) (Only.complain _)
  · exact .ite (Only.complain _) (Only.pure true)

theorem cmdTouch_only (argv : List (List Char)) : (cmdTouch argv).Only FsCalls :=
  Gives.ite (Only.fail _) (Only.eachOperand touchOperand_only _ _)

theorem rmOperand_only (rf : Bool) (p : List Char) : (rmOperand rf p).Only FsCalls := by
  have hstep : (fs fun v => if rf then v.vfsRmRecursive p else some (v.vfsRm p)).Only FsCalls := by
    cases rf with
    | false => exact Only.step (.rm p) fun _ => rfl
    | true => exact Only.step (.rmRecursive p) fun _ => rfl
  refine Only.vfs fun v => ?_
  split
  · exact Only.complain _
  · exact .ite (Only.complain _)
      (Only.bind hstep fun _ => .ite (Only.pure true) (Only.complain _))

theorem cmdRm_only (argv : List (List Char)) : (cmdRm argv).Only FsCalls :=
  Gives.ite (Only.fail _) (Only.eachOperand (rmOperand_only _) _ _)

theorem rmdirOperand_only (p : List Char) : (rmdirOperand p).Only FsCalls := by
  refine Only.vfs fun v => ?_
  split
  · exact Only.complain _
  · exact .ite (Only.complain _) (Only.bind (Only.step (.rm p) fun _ => rfl) fun _ =>
      .ite (Only.pure true) (Only.complain _))

theorem cmdRmdir_only (argv : List (List Char)) : (cmdRmdir argv).Only FsCalls :=
  Gives.ite (Only.fail _) (Only.eachOperand rmdirOperand_only _ _)

section

variable {s s' : Vfs} {a d path : List Char} {o : Option Nat} {src dst : Nat}

theorem createAt_calls (S : s.Sane) (h : s.createAt path = some (o, s')) :
    FsCalls s s' ∧ ∀ n, o = some n → n < s'.next := by
  obtain ⟨⟨b, s₁⟩, hmk, he⟩ := Option.map_eq_some_iff.mp h
  obtain ⟨rfl, rfl⟩ := Prod.mk.inj he
  have hstep : FsCalls s s₁ := fsCalls_of_step (.mkfile path) hmk
  exact ⟨hstep, fun n => (fsCalls_preserving S hstep).1.wf.vfsResolve_lt⟩

theorem copyDst_calls (S : s.Sane) (h : s.copyDst a d = some (o, s')) :
    FsCalls s s' ∧ ∀ n, o = some n → n < s'.next := by
  have hstay : ∀ {path n}, s.vfsResolve path = some n → some (some n, s) = some (o, s') →
      FsCalls s s' ∧ ∀ n, o = some n → n < s'.next := by
    intro path n hn he
    obtain ⟨rfl, rfl⟩ := Prod.mk.inj (Option.some.inj he)
    exact ⟨.refl, fun m hm => Option.some.inj hm ▸ S.wf.vfsResolve_lt hn⟩
  rw [Vfs.copyDst] at h
  split at h
  · exact createAt_calls S h
  · rename_i hd
    split at h
    · split at h
      · cases h
      · split at h
        · exact createAt_calls S h
        · rename_i hm
          exact hstay hm h
    · exact hstay hd h

/-- The bytes are those of the source, where they are. -/
theorem copyFile_calls (S : s.Sane) (hdst : dst < s.next) (hsrc : src < s.next) :
    FsCalls s (s.copyFile dst src).2 := by
  refine fsCalls_of_step (.writeFile dst (.file src (s.node src).size))
    (b := (s.copyFile dst src).1) ?_
  rw [FsOp.step, if_pos hdst, Bytes.arg, if_pos ⟨hsrc, Nat.le_refl _⟩, Vfs.copyFile]
  cases hdata : (s.node src).data with
  | none =>
    dsimp only
    rw [(S.heap.noData hdata).1]
    rfl
  | some p => rfl

end

theorem cmdCp_only (argv : List (List Char)) : (cmdCp argv).Only FsCalls := by
  refine Gives.ite (Only.fail _) (Gives.vfs fun v S => ?_)
  split
  · exact Only.say _ trivial v S
  rename_i src hsrc
  split
  · exact Only.say _ trivial v S
  have hlt := S.wf.vfsResolve_lt hsrc
  refine Wp.bind S (R := fun dst v => src < v.next ∧ ∀ n, dst = some n → n < v.next)
    (Wp.fs fun dst v' h => ?_) fun dst v' S' hdst => ?_
  · obtain ⟨hcalls, hn⟩ := copyDst_calls S h
    have hnext := (fsCalls_preserving S hcalls).2.next
    exact ⟨hcalls, fun _ => ⟨Nat.lt_of_lt_of_le hlt hnext, hn⟩⟩
  refine Wp.vfs ?_
  split
  · exact Only.say _ trivial v' S'
  · rename_i n hn
    have hd := hdst.2 n (Option.filter_eq_some_iff.mp hn).1
    refine Wp.bind S' (Wp.fs fun _ v₁ h => ⟨?_, fun _ => trivial⟩) fun _ _ _ _ => trivial
    obtain ⟨-, rfl⟩ := Prod.mk.inj (Option.some.inj h)
    exact copyFile_calls S' hd hdst.1

theorem cmdMv_only (argv : List (List Char)) : (cmdMv argv).Only FsCalls :=
  Gives.ite (Only.fail _) (Only.bind (cmdCp_only argv) fun rc => .ite (Only.pure rc)
    (Only.bind (Only.step (.rm (argv.getD 1 [])) fun _ => rfl) fun _ =>
      .ite (Only.pure 0) (Only.say _ trivial)))

/-! ## `tee` -/

theorem teeFile_calls {s s' : Vfs} {path : List Char} {o : Option Nat} (S : s.Sane)
    (h : s.teeFile path = some (o, s')) : FsCalls s s' ∧ ∀ n, o = some n → n < s'.next := by
  rw [Vfs.teeFile] at h
  split at h
  · rename_i n hn
    obtain ⟨rfl, rfl⟩ := Prod.mk.inj (Option.some.inj h)
    exact ⟨.refl, fun m hm => Option.some.inj hm ▸ S.wf.vfsResolve_lt hn⟩
  · exact createAt_calls S h

theorem truncate_calls {s : Vfs} {n : Nat} (hn : n < s.next) : FsCalls s (s.vfsTruncate n) :=
  fsCalls_of_step (.truncate n) (b := true) (by rw [FsOp.step, if_pos hn])

theorem appendBytes_calls {s : Vfs} {n : Nat} {bytes : List Char} (hn : n < s.next)
    (hlen : bytes.length ≤ HEAP_MAX - HEAP_START) :
    FsCalls s (s.vfsAppendFile n (.ext bytes) bytes.length).2 := by
  have hmax : HEAP_MAX - HEAP_START ≤ ADDRESS_SPACE := by decide
  refine fsCalls_of_step (.appendFile n (.ext bytes (hlen.trans hmax)))
    (b := (s.vfsAppendFile n (.ext bytes) bytes.length).1) ?_
  rw [FsOp.step, if_pos hn]
  rfl

/-- Behind the input and the output the file is a node still. -/
theorem cmdTee_only (argv : List (List Char)) : (cmdTee fuel argv).Only FsCalls := by
  refine Gives.ite (Only.fail _) fun v S => ?_
  refine Wp.bind S (R := fun o v => ∀ n, o = some n → n < v.next) (Wp.fs fun o v' h => ?_)
    fun o v S hlt => ?_
  · obtain ⟨hcalls, hn⟩ := teeFile_calls S h
    exact ⟨hcalls, fun _ => hn⟩
  refine Wp.vfs ?_
  split
  · trivial
  rename_i n hn
  have hn := hlt n (Option.filter_eq_some_iff.mp hn).1
  have hinput : ∀ v : Vfs, v.Sane → n < v.next → Wp FsCalls (fun _ _ => True)
      (readStdin fuel .init >>= fun b => if b.data ≠ none ∧ b.bytes ≠ [] then
        puts b.bytes >>= fun _ =>
          (fs fun v => some (v.vfsAppendFile n (.ext b.bytes) b.bytes.length)) >>= fun _ => pure 0
        else (pure 0 : Prog Int)) v := by
    intro v S hn
    refine Wp.bind S ((readStdin_init.fsCalls v S).later fsCalls_preserving S) fun b v₁ S₁ hb => ?_
    split
    · refine Wp.bind S₁ ((Only.puts b.bytes v₁ S₁).later fsCalls_preserving S₁) fun _ v₂ S₂ h₂ => ?_
      have hn₂ := Nat.lt_of_lt_of_le hn (hb.2.next.trans h₂.2.next)
      refine Wp.bind S₂ (Wp.fs fun _ v₃ h => ⟨?_, fun _ => trivial⟩) fun _ _ _ _ => trivial
      obtain ⟨-, rfl⟩ := Prod.mk.inj (Option.some.inj h)
      exact appendBytes_calls hn₂ (hb.1.len.trans hb.1.cap)
    · trivial
  split
  · exact hinput v S hn
  · refine Wp.bind S (R := fun _ v => n < v.next) (Wp.fs fun _ v' h => ?_) fun _ v S hn =>
      hinput v S hn
    obtain ⟨-, rfl⟩ := Prod.mk.inj (Option.some.inj h)
    have hcalls := truncate_calls hn
    exact ⟨hcalls, fun _ => Nat.lt_of_lt_of_le hn (fsCalls_preserving S hcalls).2.next⟩

/-! ## The table -/

/-- What the command may do to the filesystem. -/
def Effect (name : String) : Vfs → Vfs → Prop := if name ∈ changers then FsCalls else Allocates

/-- Each command of the table keeps to its effect, whatever its arguments. -/
theorem Env.effects (e : Env) :
    ∀ entry ∈ e.commands, ∀ argv, (entry.2 argv).Only (Effect entry.1) := by
  have hchange : ∀ {name : String} {f : List (List Char) → Prog Int}, name ∈ changers →
      (∀ argv, (f argv).Only FsCalls) → ∀ argv, (f argv).Only (Effect name) := by
    intro name f hname hf argv
    rw [Effect, if_pos hname]
    exact hf argv
  have hkeep : ∀ {name : String} {f : List (List Char) → Prog Int}, name ∉ changers →
      (∀ argv, (f argv).Only Allocates) → ∀ argv, (f argv).Only (Effect name) := by
    intro name f hname hf argv
    rw [Effect, if_neg hname]
    exact hf argv
  simp only [commands, List.forall_mem_cons, List.not_mem_nil]
  exact ⟨hkeep (by decide) (cmdText_only _),
    hkeep (by decide) (cmdAbout_only _ _),
    hkeep (by decide) cmdEcho_only,
    hkeep (by decide) cmdPrintf_only,
    hkeep (by decide) (cmdText_only _),
    hkeep (by decide) (cmdText_only _),
    hkeep (by decide) cmdPwd_only,
    hchange (by decide) cmdCd_only,
    hkeep (by decide) cmdLs_only,
    hkeep (by decide) e.ll_only,
    hkeep (by decide) cmdLs_only,
    hchange (by decide) cmdMkdir_only,
    hchange (by decide) cmdRmdir_only,
    hchange (by decide) cmdRm_only,
    hchange (by decide) cmdTouch_only,
    hkeep (by decide) InFile.cmdCat_only,
    hkeep (by decide) InFile.cmdHead_only,
    hkeep (by decide) InFile.cmdTail_only,
    hkeep (by decide) InFile.cmdWc_only,
    hkeep (by decide) cmdGrep_only,
    hkeep (by decide) cmdSort_only,
    hkeep (by decide) cmdUniq_only,
    hkeep (by decide) cmdDiff_only,
    hchange (by decide) cmdCp_only,
    hchange (by decide) cmdMv_only,
    hkeep (by decide) cmdFind_only,
    hkeep (by decide) cmdTree_only,
    hkeep (by decide) cmdStat_only,
    hkeep (by decide) cmdBasename_only,
    hkeep (by decide) cmdDirname_only,
    hkeep (by decide) cmdRev_only,
    hkeep (by decide) cmdNl_only,
    hchange (by decide) cmdTee_only,
    hkeep (by decide) cmdDf_only,
    hkeep (by decide) cmdDu_only,
    hkeep (by decide) (cmdFree_only _),
    hkeep (by decide) cmdUname_only,
    hkeep (by decide) (cmdHostname_only _),
    hkeep (by decide) (cmdText_only _),
    hkeep (by decide) (cmdText_only _),
    hkeep (by decide) (fun _ => cmdDate_only _),
    hkeep (by decide) (cmdCal_only _),
    hkeep (by decide) (cmdUptime_only _),
    hkeep (by decide) e.sleep_only,
    hkeep (by decide) cmdSeq_only,
    hkeep (by decide) cmdFactor_only,
    hkeep (by decide) (cmdHistory_only _),
    hkeep (by decide) (cmdLscpu_only _),
    hkeep (by decide) (fun _ => Only.pure 0),
    hkeep (by decide) (fun _ => Only.pure 1),
    hkeep (by decide) cmdTest_only,
    hkeep (by decide) cmdTest_only,
    hkeep (by decide) (cmdHalt_only _),
    hkeep (by decide) (cmdHalt_only _),
    hkeep (by decide) (cmdHalt_only _),
    hkeep (by decide) (cmdHalt_only _),
    hkeep (by decide) (cmdHalt_only _),
    hkeep (by decide) (cmdHalt_only _),
    fun _ h => h.elim⟩

end

open Shell in
/-- A command that is not one of the changers leaves the tree and the files as they are, also while
its output is redirected: then that file gets longer, and keeps what it had. -/
theorem reader_frame (e : Env) {name : String} {fn : List (List Char) → Prog Int}
    (hmem : (name, fn) ∈ e.commands) (hname : name ∉ changers) {argv : List (List Char)} {rc : Int}
    {σ σ' : Shell} (S : σ.Sound) (h : (fn argv).run σ = some (rc, σ')) : Frame σ σ' := by
  have honly : (fn argv).Only (Effect name) := e.effects _ hmem argv
  rw [Effect, if_neg hname] at honly
  exact (honly.served allocates_preserving S h).1.frame S

/-- An environment at the first tick. -/
def bootEnv : Env where
  now := ⟨2025, 1, 1, 0, 0, 0⟩
  uptimeMs _ := 0
  cpuVendor := "GenuineIntel".toList
  totalMemKb := 65536
  hostname := "bojanos".toList
  history := []
  fuel := 100
  stack := ⟨0, fun _ => none⟩

/-- What `>> path` sets up. -/
def Shell.appendingTo (σ : Shell) (path : List Char) : Shell :=
  { σ with outFile := σ.vfs.vfsResolve path }

theorem Shell.Sound.appendingTo {σ : Shell} {path : List Char} (S : σ.Sound)
    (hf : ∀ f, σ.vfs.vfsResolve path = some f → (σ.vfs.node f).type = .file) :
    (σ.appendingTo path).Sound where
  sane := S.sane
  out f h := ⟨S.sane.wf.vfsResolve_lt h, hf f h⟩
  input := S.input
  pipes := S.pipes

def toMotd : Shell := bootShell.appendingTo "/etc/motd".toList

theorem bootShell_sound : bootShell.Sound := by
  have hsane : bootVfs.Sane :=
    ⟨bootVfs_booted.wf, bootVfs_booted.heapOk, bootVfs_booted.total_le⟩
  refine ⟨bootShell_vfs ▸ hsane, fun f hf => ?_, fun f hf => ?_, fun i => Nat.zero_le _⟩
  · rw [bootShell_idle.outFile] at hf
    cases hf
  · rw [bootShell_idle.inFile] at hf
    cases hf

theorem toMotd_sound : toMotd.Sound := by
  refine bootShell_sound.appendingTo fun f hf => ?_
  have hfile : (bootShell.vfs.vfsResolve "/etc/motd".toList).all fun f =>
      (bootShell.vfs.node f).type = .file := by
    rw [bootShell_spelled]
    decide +kernel
  rw [hf, Option.all_some] at hfile
  exact of_decide_eq_true hfile

open Shell in
/-- `cat /etc/hostname >> /etc/motd` -/
theorem reader_frame_cat : ∃ σ' f,
    (InFile.cmdCat InFile.byPointer 0 ["cat".toList, "/etc/hostname".toList]).run toMotd =
        some (0, σ') ∧
      toMotd.outFile = some f ∧ "bojanos\n".toList <:+ σ'.vfs.contents f ∧ Frame toMotd σ' := by
  have hrun : ((InFile.cmdCat InFile.byPointer 0 ["cat".toList, "/etc/hostname".toList]).run
      toMotd).any fun r => r.1 = 0 ∧ toMotd.outFile = some 9 ∧
        "bojanos\n".toList <:+ r.2.vfs.contents 9 := by
    rw [toMotd, bootShell_spelled]
    decide +kernel
  obtain ⟨⟨rc, σ'⟩, h, rfl, hout, hsuffix⟩ := exists_of_any hrun
  have hmem : ("cat", InFile.cmdCat InFile.byPointer 0) ∈ { bootEnv with fuel := 0 }.commands := by
    simp [Env.commands]
  exact ⟨σ', 9, h, hout, hsuffix, reader_frame _ hmem (by decide) toMotd_sound h⟩

end BojanOS
