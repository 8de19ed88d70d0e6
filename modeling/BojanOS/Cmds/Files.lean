import BojanOS.Shell.State

/-!
# The commands that change the tree (`cmds.c`)

`cd`, `mkdir`, `touch`, `rm`, `rmdir`, `cp` and `mv`. Their messages go to the standard output, and
so into a file when it is redirected: the filesystem may change between two operands.
-/

namespace BojanOS

namespace Prog

/-- The state of the filesystem. -/
def vfs : Prog Vfs := getVfs ret

@[simp] theorem run_vfs (σ : Shell) : vfs.run σ = some (σ.vfs, σ) := rfl

/-- `sh_printf(..); return 1;` -/
def fail (m : String) : Prog Int := do
  puts m.toList
  pure 1

/-- `sh_printf(..); rc = 1;` -/
def complain (m : List Char) : Prog Bool := do
  puts m
  pure false

/-- The loop over the operands, with `rc` as it is so far. -/
def eachOperand (f : List Char → Prog Bool) : List (List Char) → Int → Prog Int
  | [], rc => pure rc
  | p :: ps, rc => do
    let ok ← f p
    eachOperand f ps (if ok then rc else 1)

end Prog

open Prog

/-! ## `cd` -/

/-- `const char* target` of `cmd_cd`. -/
def cdTarget (argv : List (List Char)) : List Char :=
  let target := if 2 ≤ argv.length then argv.getD 1 [] else "/root".toList
  if 2 ≤ argv.length ∧ target = ['~'] then "/root".toList else target

/-- `vfs_cwd = n; vfs_update_pwd();` -/
def Vfs.enter (s : Vfs) (n : Nat) : Option Vfs := { s with cwd := n }.vfsUpdatePwd

def cmdCd (argv : List (List Char)) : Prog Int := do
  let target := cdTarget argv
  let v ← vfs
  match v.vfsResolve target with
  | none => do
    puts ("cd: ".toList ++ target ++ ": no such directory\n".toList)
    pure 1
  | some n =>
    if (v.node n).type ≠ .dir then do
      puts ("cd: ".toList ++ target ++ ": no such directory\n".toList)
      pure 1
    else do
      fs fun v => (v.enter n).map fun v => ((), v)
      pure 0

/-! ## `mkdir` and `touch` -/

def mkdirOperand (p : List Char) : Prog Bool := do
  let ok ← fs fun v => v.vfsMkdir p
  if ok then pure true
  else complain ("mkdir: cannot create directory '".toList ++ p ++ "'\n".toList)

def cmdMkdir (argv : List (List Char)) : Prog Int :=
  if argv.length < 2 then fail "mkdir: missing operand\n"
  else eachOperand mkdirOperand (argv.drop 1) 0

def touchOperand (p : List Char) : Prog Bool := do
  let v ← vfs
  match v.vfsResolve p with
  | none => do
    let ok ← fs fun v => v.vfsMkfile p
    if ok then pure true else complain ("touch: ".toList ++ p ++ ": failed\n".toList)
  | some n =>
    if (v.node n).type ≠ .file then
      complain ("touch: ".toList ++ p ++ ": is a directory\n".toList)
    else pure true

def cmdTouch (argv : List (List Char)) : Prog Int :=
  if argv.length < 2 then fail "touch: missing operand\n"
  else eachOperand touchOperand (argv.drop 1) 0

/-! ## `rm` and `rmdir` -/

/-- The loop over the options, with the operands that are left. -/
def rmFlags : List (List Char) → Bool × List (List Char)
  | [] => (false, [])
  | w :: ws =>
    if w.head? = some '-' ∧ 2 ≤ w.length then
      let (rf, operands) := rmFlags ws
      ((w.drop 1).any (fun c => c = 'r' ∨ c = 'R' ∨ c = 'f') || rf, operands)
    else (false, w :: ws)

def rmOperand (rf : Bool) (p : List Char) : Prog Bool := do
  let v ← vfs
  match v.vfsResolve p with
  | none => complain ("rm: ".toList ++ p ++ ": no such file or directory\n".toList)
  | some n =>
    if (v.node n).type = .dir ∧ rf = false then
      complain ("rm: ".toList ++ p ++ ": is a directory (use -r)\n".toList)
    else do
      let ok ← fs fun v => if rf then v.vfsRmRecursive p else some (v.vfsRm p)
      if ok then pure true else complain ("rm: cannot remove ".toList ++ p ++ "\n".toList)

def cmdRm (argv : List (List Char)) : Prog Int :=
  let (rf, operands) := rmFlags (argv.drop 1)
  if operands = [] then fail "rm: missing operand\n"
  else eachOperand (rmOperand rf) operands 0

def rmdirOperand (p : List Char) : Prog Bool := do
  let v ← vfs
  match v.vfsResolve p with
  | none => complain ("rmdir: ".toList ++ p ++ ": no such directory\n".toList)
  | some n =>
    if (v.node n).type ≠ .dir then
      complain ("rmdir: ".toList ++ p ++ ": no such directory\n".toList)
    else do
      let ok ← fs fun v => some (v.vfsRm p)
      if ok then pure true
      else complain ("rmdir: ".toList ++ p ++ ": directory not empty\n".toList)

def cmdRmdir (argv : List (List Char)) : Prog Int :=
  if argv.length < 2 then fail "rmdir: missing operand\n"
  else eachOperand rmdirOperand (argv.drop 1) 0

/-! ## `cp` and `mv` -/

/-- `char full[512]` of `cmd_cp`. -/
def FULL_MAX : Nat := 512

/-- `full`, for a destination `d` that is a directory. `none` where `name` or `full` overflows, and
for the empty `d`, where `full[l - 1]` is in front of the array. -/
def copyPath (a d : List Char) : Option (List Char) :=
  let name := vfsBasename a
  let full := d ++ (if d.getLast? = some '/' then [] else ['/']) ++ name
  if d = [] ∨ VFS_NAME_MAX ≤ name.length ∨ FULL_MAX ≤ full.length then none else some full

namespace Vfs

/-- `vfs_mkfile(path); dst = vfs_resolve(path);` -/
def createAt (s : Vfs) (path : List Char) : Option (Option Nat × Vfs) :=
  (s.vfsMkfile path).map fun (_, s) => (s.vfsResolve path, s)

/-- `dst` of `cmd_cp`. -/
def copyDst (s : Vfs) (a d : List Char) : Option (Option Nat × Vfs) :=
  match s.vfsResolve d with
  | none => s.createAt d
  | some n =>
    if (s.node n).type = .dir then
      match copyPath a d with
      | none => none
      | some full =>
        match s.vfsResolve full with
        | none => s.createAt full
        | some m => some (some m, s)
    else some (some n, s)

/-- `vfs_write_file(dst, src->data ? src->data : "", src->size)` -/
def copyFile (s : Vfs) (dst src : Nat) : Bool × Vfs :=
  let v := s.node src
  s.vfsWriteFile dst (match v.data with | none => .ext [] | some d => .heap d) v.size

end Vfs

def cmdCp (argv : List (List Char)) : Prog Int :=
  if argv.length < 3 then fail "cp: missing operand\n"
  else do
    let a := argv.getD 1 []
    let d := argv.getD 2 []
    let v ← vfs
    match v.vfsResolve a with
    | none => do
      puts ("cp: ".toList ++ a ++ ": no such file\n".toList)
      pure 1
    | some src =>
      if (v.node src).type ≠ .file then do
        puts ("cp: ".toList ++ a ++ ": no such file\n".toList)
        pure 1
      else do
        let dst ← fs fun v => v.copyDst a d
        let v ← vfs
        match dst.filter fun dst => (v.node dst).type = .file with
        | none => do
          puts ("cp: ".toList ++ d ++ ": cannot write\n".toList)
          pure 1
        | some dst => do
          -- the answer is not looked at
          let _ ← fs fun v => some (v.copyFile dst src)
          pure 0

def cmdMv (argv : List (List Char)) : Prog Int :=
  if argv.length < 3 then fail "mv: missing operand\n"
  else do
    let rc ← cmdCp argv
    if rc ≠ 0 then pure rc
    else do
      let a := argv.getD 1 []
      let ok ← fs fun v => some (v.vfsRm a)
      if ok then pure 0
      else do
        puts ("mv: cannot remove ".toList ++ a ++ "\n".toList)
        pure 1

/-! ## Invariants of the filesystem along a program -/

namespace Shell

variable {σ σ' : Shell}

/-- Output leaves the tree alone, also where it goes into a file. -/
theorem outRaw_sameTree {c : Char} (h : σ.outRaw c = some σ') : σ.vfs.SameTree σ'.vfs := by
  rw [outRaw] at h
  split at h
  · obtain rfl := Option.some.inj h
    exact Vfs.vfsAppendFile_sameTree ..
  split at h
  · rw [pipeWriterAdd] at h
    split at h
    · obtain rfl := Option.some.inj h
      exact .rfl'
    simp only at h
    split at h
    · obtain rfl := Option.some.inj h
      exact .rfl'
    split at h
    · obtain rfl := Option.some.inj h
      exact .rfl'
    · cases h
  · obtain rfl := Option.some.inj h
    exact .rfl'

theorem shPuts_sameTree {s : List Char} (h : σ.shPuts s = some σ') : σ.vfs.SameTree σ'.vfs := by
  induction s generalizing σ with
  | nil =>
    obtain rfl := Option.some.inj h
    exact .rfl'
  | cons c s ih =>
    rw [shPuts, List.foldlM_cons] at h
    obtain ⟨σ₁, h₁, h⟩ := Option.bind_eq_some_iff.mp h
    exact (outRaw_sameTree h₁).trans (ih h)

end Shell

namespace Prog

variable {α β : Type} {I : Vfs → Prop} {σ : Shell}

theorem of_run_bind {p : Prog α} {f : α → Prog β} {b : β} {σ' : Shell}
    (h : (p >>= f).run σ = some (b, σ')) :
    ∃ a σ₁, p.run σ = some (a, σ₁) ∧ (f a).run σ₁ = some (b, σ') := by
  rw [run_bind] at h
  obtain ⟨⟨a, σ₁⟩, h₁, h⟩ := Option.bind_eq_some_iff.mp h
  exact ⟨a, σ₁, h₁, h⟩

theorem of_run_fs {f : Vfs → Option (α × Vfs)} {a : α} {σ' : Shell}
    (h : (fs f).run σ = some (a, σ')) :
    ∃ v, f σ.vfs = some (a, v) ∧ σ' = { σ with vfs := v } := by
  rw [run_fs] at h
  obtain ⟨⟨b, v⟩, hv, h⟩ := Option.map_eq_some_iff.mp h
  obtain ⟨rfl, rfl⟩ := Prod.mk.inj h
  exact ⟨v, hv, rfl⟩

/-- If the program ends, `I` holds of the filesystem it leaves. -/
def Keeps (I : Vfs → Prop) (σ : Shell) (p : Prog α) : Prop :=
  ∀ a σ', p.run σ = some (a, σ') → I σ'.vfs

theorem Keeps.pure {a : α} (h : I σ.vfs) : Keeps I σ (pure a : Prog α) := by
  intro b σ' hr
  obtain ⟨-, rfl⟩ := Prod.mk.inj (Option.some.inj hr)
  exact h

theorem Keeps.bind {p : Prog α} {f : α → Prog β}
    (h : ∀ a σ', p.run σ = some (a, σ') → Keeps I σ' (f a)) : Keeps I σ (p >>= f) := by
  intro b σ' hr
  obtain ⟨a, σ₁, h₁, hr⟩ := of_run_bind hr
  exact h a σ₁ h₁ b σ' hr

theorem Keeps.vfs {f : Vfs → Prog β} (h : Keeps I σ (f σ.vfs)) : Keeps I σ (vfs >>= f) := by
  refine .bind fun v σ' hr => ?_
  obtain ⟨rfl, rfl⟩ := Prod.mk.inj (Option.some.inj hr)
  exact h

theorem Keeps.fs {f : Vfs → Option (α × Vfs)} {g : α → Prog β}
    (h : ∀ a v, f σ.vfs = some (a, v) → Keeps I { σ with vfs := v } (g a)) :
    Keeps I σ (fs f >>= g) := by
  refine .bind fun a σ' hr => ?_
  obtain ⟨v, hv, rfl⟩ := of_run_fs hr
  exact h a v hv

theorem run_say (m : List Char) (a : α) (σ : Shell) :
    (puts m >>= fun _ => (Pure.pure a : Prog α)).run σ = (σ.shPuts m).map fun σ => (a, σ) := by
  rw [run_bind, run_puts]
  cases σ.shPuts m <;> rfl

theorem of_run_say {m : List Char} {a b : α} {σ σ' : Shell}
    (h : (puts m >>= fun _ => (Pure.pure a : Prog α)).run σ = some (b, σ')) :
    b = a ∧ σ.shPuts m = some σ' := by
  rw [run_say] at h
  obtain ⟨υ, hυ, he⟩ := Option.map_eq_some_iff.mp h
  obtain ⟨rfl, rfl⟩ := Prod.mk.inj he
  exact ⟨rfl, hυ⟩

/-- A message, and then an answer. -/
theorem Keeps.say (hI : ∀ {s s'}, Vfs.SameTree s s' → I s → I s') {m : List Char} {a : α}
    (h : I σ.vfs) : Keeps I σ (puts m >>= fun _ => (Pure.pure a : Prog α)) :=
  fun _ _ hr => hI (Shell.shPuts_sameTree (of_run_say hr).2) h

/-- The condition `Q` on the filesystem in front of each operand that is come to. -/
def eachMeets (Q : Vfs → List Char → Bool) (f : List Char → Prog Bool) :
    List (List Char) → Shell → Bool
  | [], _ => true
  | p :: ps, σ => Q σ.vfs p &&
    match (f p).run σ with
    | none => true
    | some (_, σ) => eachMeets Q f ps σ

/-- The rule for the loop. -/
theorem Keeps.eachOperand {Q : Vfs → List Char → Bool} {f : List Char → Prog Bool}
    (hf : ∀ {σ : Shell} {p}, I σ.vfs → Q σ.vfs p = true → Keeps I σ (f p))
    {ps : List (List Char)} {rc : Int} (h : I σ.vfs) (hQ : eachMeets Q f ps σ = true) :
    Keeps I σ (eachOperand f ps rc) := by
  induction ps generalizing σ rc with
  | nil => exact .pure h
  | cons p ps ih =>
    rw [eachMeets, Bool.and_eq_true] at hQ
    refine .bind fun ok σ' hr => ih (hf h hQ.1 ok σ' hr) ?_
    rw [hr] at hQ
    exact hQ.2

/-- The loop without a condition. -/
theorem Keeps.eachOperand' {f : List Char → Prog Bool}
    (hf : ∀ {σ : Shell} {p}, I σ.vfs → Keeps I σ (f p)) {ps : List (List Char)} {rc : Int}
    (h : I σ.vfs) : Keeps I σ (Prog.eachOperand f ps rc) := by
  refine .eachOperand (Q := fun _ _ => true) (fun h _ => hf h) h ?_
  induction ps generalizing σ with
  | nil => rfl
  | cons p ps ih =>
    rw [eachMeets, Bool.true_and]
    split
    · rfl
    · rename_i hr
      exact ih (hf h _ _ hr)

end Prog

/-! ## What `cp` and `mv` can do -/

/-- Nothing but a message, or a copy to `dst`, or a message in front of which `dst` may have been
made. -/
theorem cmdCp_cases {argv : List (List Char)} {σ σ' : Shell} {rc : Int}
    (h : (cmdCp argv).run σ = some (rc, σ')) :
    (rc = 1 ∧ ∃ m, σ.shPuts m = some σ') ∨
    ∃ src dst v, 3 ≤ argv.length ∧ σ.vfs.vfsResolve (argv.getD 1 []) = some src ∧
      (σ.vfs.node src).type = .file ∧
      σ.vfs.copyDst (argv.getD 1 []) (argv.getD 2 []) = some (dst, v) ∧
      ((rc = 1 ∧ (∀ n, dst = some n → (v.node n).type ≠ .file) ∧
          ({ σ with vfs := v } : Shell).shPuts
            ("cp: ".toList ++ argv.getD 2 [] ++ ": cannot write\n".toList) = some σ') ∨
        (rc = 0 ∧ ∃ n, dst = some n ∧ (v.node n).type = .file ∧
          σ' = { σ with vfs := (v.copyFile n src).2 })) := by
  rw [cmdCp] at h
  split at h
  · obtain ⟨rfl, hm⟩ := of_run_say h
    exact .inl ⟨rfl, _, hm⟩
  rename_i hargc
  rw [run_bind, run_vfs, Option.bind_some] at h
  split at h
  · obtain ⟨rfl, hm⟩ := of_run_say h
    exact .inl ⟨rfl, _, hm⟩
  rename_i src hsrc
  split at h
  · obtain ⟨rfl, hm⟩ := of_run_say h
    exact .inl ⟨rfl, _, hm⟩
  rename_i hfile
  obtain ⟨dst', σ₁, h₁, h⟩ := of_run_bind h
  obtain ⟨v, hv, rfl⟩ := of_run_fs h₁
  refine .inr ⟨src, dst', v, by omega, hsrc, by simpa using hfile, hv, ?_⟩
  rw [run_bind, run_vfs, Option.bind_some] at h
  split at h
  · rename_i hdst
    obtain ⟨rfl, hm⟩ := of_run_say h
    refine .inl ⟨rfl, fun n hn => ?_, hm⟩
    subst hn
    simpa using hdst
  · rename_i n hdst
    obtain ⟨hn, ht⟩ := Option.filter_eq_some_iff.mp hdst
    rw [run_bind, run_fs] at h
    obtain ⟨rfl, rfl⟩ := Prod.mk.inj (Option.some.inj h)
    exact .inr ⟨rfl, n, hn, of_decide_eq_true ht, rfl⟩

/-- `mv` is `cp`, and then `vfs_rm`. -/
theorem cmdMv_cases {argv : List (List Char)} {σ σ' : Shell} {rc : Int}
    (h : (cmdMv argv).run σ = some (rc, σ')) :
    (rc = 1 ∧ ∃ m, σ.shPuts m = some σ') ∨ (rc ≠ 0 ∧ (cmdCp argv).run σ = some (rc, σ')) ∨
    ∃ σ₁ b v, 3 ≤ argv.length ∧ (cmdCp argv).run σ = some (0, σ₁) ∧
      σ₁.vfs.vfsRm (argv.getD 1 []) = (b, v) ∧
      ((b = true ∧ rc = 0 ∧ σ' = { σ₁ with vfs := v }) ∨
        (b = false ∧ rc = 1 ∧ ({ σ₁ with vfs := v } : Shell).shPuts
          ("mv: cannot remove ".toList ++ argv.getD 1 [] ++ "\n".toList) = some σ')) := by
  rw [cmdMv] at h
  split at h
  · obtain ⟨rfl, hm⟩ := of_run_say h
    exact .inl ⟨rfl, _, hm⟩
  rename_i hargc
  obtain ⟨rc₁, σ₁, h₁, h⟩ := of_run_bind h
  split at h
  · rename_i hrc
    obtain ⟨rfl, rfl⟩ := Prod.mk.inj (Option.some.inj h)
    exact .inr (.inl ⟨hrc, h₁⟩)
  rename_i hrc
  obtain rfl : rc₁ = 0 := by simpa using hrc
  rw [run_bind, run_fs] at h
  refine .inr (.inr ⟨σ₁, _, _, by omega, h₁, rfl, ?_⟩)
  rw [Option.map_some, Option.bind_some] at h
  split at h
  · rename_i hb
    obtain ⟨rfl, rfl⟩ := Prod.mk.inj (Option.some.inj h)
    exact .inl ⟨hb, rfl, rfl⟩
  · rename_i hb
    obtain ⟨rfl, hm⟩ := of_run_say h
    exact .inr ⟨(Bool.not_eq_true _).mp hb, rfl, hm⟩

end BojanOS
