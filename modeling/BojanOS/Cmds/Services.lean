import BojanOS.Cmds.Files
import BojanOS.Vfs.Appends
import BojanOS.Vfs.HeapEnd
import BojanOS.Vfs.Named

/-!
# What a command does to the system (`Prog.Wp`)

A command reaches the rest of the system through its output, its input and the functions of `vfs.c`.
`Wp` is its weakest precondition on the filesystem: whatever it does there is a step of a relation
`Q`, and behind an output the tree is the same while the contents may be others. Of a run that meets
it the steps are `Served` one by one, so what each of them keeps, the run keeps.
-/

namespace BojanOS

namespace Vfs

variable {s s' s₁ : Vfs} {n : Nat} {b : Bool}

/-- The tree and the buffers are in order, and the heap is in its region. -/
structure Sane (s : Vfs) : Prop where
  wf : s.Wf
  heap : s.HeapOk
  region : s.ram.heap.total ≤ HEAP_MAX - HEAP_START

/-- The nodes of `s` are nodes of `s'`, of the same types. -/
structure Later (s s' : Vfs) : Prop where
  next : s.next ≤ s'.next
  type : ∀ n < s.next, (s'.node n).type = (s.node n).type

theorem Later.refl (s : Vfs) : Later s s := ⟨Nat.le_refl _, fun _ _ => rfl⟩

theorem Later.trans (L : Later s s₁) (L' : Later s₁ s') : Later s s' where
  next := L.next.trans L'.next
  type n hn := (L'.type n (Nat.lt_of_lt_of_le hn L.next)).trans (L.type n hn)

theorem Extends.later (E : Extends s s') : Later s s' := ⟨E.next, E.type⟩

theorem SameTree.later (S : SameTree s s') : Later s s' := S.extends.later

theorem Pruned.later (P : Pruned s s' n) : Later s s' := ⟨P.next.ge, fun m _ => P.type m⟩

theorem later_of_step (W : s.Wf) {op : FsOp} (h : op.step s = some (b, s')) : s.Later s' := by
  cases op with
  | mkfile path => exact (W.mknode_extends h).later
  | mkdir path => exact (W.mknode_extends h).later
  | rm path =>
    have hs : (s.vfsRm path).2 = s' := congrArg Prod.snd (Option.some.inj h)
    cases hn : s.vfsResolve path with
    | none =>
      rw [vfsRm, hn] at hs
      exact hs ▸ .refl s
    | some n => exact hs ▸ (vfsRm_pruned hn).later
  | rmRecursive path =>
    cases hn : s.vfsResolve path with
    | none =>
      rw [FsOp.step, vfsRmRecursive, hn] at h
      obtain rfl : s = s' := congrArg Prod.snd (Option.some.inj h)
      exact .refl s
    | some n => exact (vfsRmRecursive_pruned W hn h).later
  | writeFile n data => exact (FsOp.step_sameTree h trivial).later
  | appendFile n data => exact (FsOp.step_sameTree h trivial).later
  | truncate n => exact (FsOp.step_sameTree h trivial).later
  | chdir path =>
    have hs : (FsOp.vfsChdir s path).2 = s' := congrArg Prod.snd (Option.some.inj h)
    rw [← hs, FsOp.vfsChdir]
    cases s.vfsResolve path with
    | none => exact .refl s
    | some n =>
      simp only
      split
      · exact ⟨Nat.le_refl _, fun _ _ => rfl⟩
      · exact .refl s

/-! ## Calls of `vfs.c` -/

/-- The heap has served requests, and nothing else has happened. -/
def Allocates (s s' : Vfs) : Prop :=
  ∃ ram, s.ram.Grew ram ∧ s' = { s with ram }

/-- An operation, a change of the working directory, or a request. -/
inductive FsCall (s : Vfs) : Vfs → Prop
  | op (op : FsOp) {b : Bool} {s' : Vfs} (h : op.step s = some (b, s')) : FsCall s s'
  | enter {n : Nat} {s' : Vfs} (hn : n < s.next) (hd : (s.node n).type = .dir)
    (h : s.enter n = some s') : FsCall s s'
  | alloc {s' : Vfs} (h : s.Allocates s') : FsCall s s'

/-- A relation whose steps keep the filesystem in order. -/
def Preserving (Q : Vfs → Vfs → Prop) : Prop := ∀ ⦃s s'⦄, s.Sane → Q s s' → s'.Sane ∧ s.Later s'

theorem allocates_preserving : Preserving Allocates := by
  rintro s s' S ⟨ram, hram, rfl⟩
  have U := S.heap.toBuffers.untouched_ram hram.ok hram.used hram.mem
  exact ⟨⟨S.wf.ram ram, U.heapOk S.heap, hram.total.trans_le S.region⟩, (SameTree.ram ram).later⟩

theorem enter_keeps (S : s.Sane) (hn : n < s.next) (hd : (s.node n).type = .dir)
    (h : s.enter n = some s') : s'.Sane ∧ s.Later s' := by
  have W := S.wf.chdir hn hd
  have H := S.heap
  have B := H.toBuffers
  have hpwd : ∀ pwd, Sane { s with cwd := n, pwd } := fun pwd =>
    ⟨{ W with }, ⟨⟨B.ram, B.arena, B.room, B.noData, B.fresh, B.dirs, B.childCap⟩, H.terminated⟩,
      S.region⟩
  rw [enter, vfsUpdatePwd] at h
  split at h
  · obtain rfl := Option.some.inj h
    exact ⟨hpwd _, Nat.le_refl _, fun _ _ => rfl⟩
  · simp only at h
    split at h
    · cases h
    · obtain rfl := Option.some.inj h
      exact ⟨hpwd _, Nat.le_refl _, fun _ _ => rfl⟩

theorem fsCall_preserving : Preserving FsCall := by
  intro s s' S h
  cases h with
  | op op h =>
    have H := (FsOp.step_contents S.wf S.heap h).1
    have htotal := FsOp.step_total S.wf h
    exact ⟨⟨FsOp.step_wf S.wf h, H, htotal ▸ S.region⟩, later_of_step S.wf h⟩
  | enter hn hd h => exact enter_keeps S hn hd h
  | alloc h => exact allocates_preserving S h

/-- A command may call nothing, or several functions in a row. -/
def FsCalls : Vfs → Vfs → Prop := Relation.ReflTransGen FsCall

theorem Preserving.star {Q : Vfs → Vfs → Prop} (hQ : Preserving Q) :
    Preserving (Relation.ReflTransGen Q) := by
  intro s s' S h
  induction h with
  | refl => exact ⟨S, .refl s⟩
  | tail _ h ih =>
    obtain ⟨S', L⟩ := hQ ih.1 h
    exact ⟨S', ih.2.trans L⟩

theorem fsCalls_preserving : Preserving FsCalls := fsCall_preserving.star

theorem Sane.allocates (S : s.Sane) : s.Allocates s := ⟨s.ram, .refl S.heap.ram, rfl⟩

theorem Allocates.fsCalls (h : s.Allocates s') : FsCalls s s' := .single (.alloc h)

theorem fsCalls_of_step (op : FsOp) (h : op.step s = some (b, s')) : FsCalls s s' :=
  .single (.op op h)

end Vfs

/-! ## The weakest precondition -/

namespace Prog

open Vfs

variable {α β : Type} {Q Q' : Vfs → Vfs → Prop} {P : α → Vfs → Prop} {v : Vfs}

/-- In the filesystem the command takes steps of `Q` only, and it ends with `P`. -/
def Wp (Q : Vfs → Vfs → Prop) (P : α → Vfs → Prop) : Prog α → Vfs → Prop
  | ret a, v => P a v
  | putc _ k, v => ∀ v', v.SameTree v' → v'.Sane → k.Wp Q P v'
  | getc k, v => ∀ c, (k c).Wp Q P v
  | getVfs k, v => (k v).Wp Q P v
  | setVfs v' k, v => Q v v' ∧ (v'.Sane → k.Wp Q P v')
  | fault, _ => True

theorem Wp.mono {P' : α → Vfs → Prop} (hQ : ∀ v v', Q v v' → Q' v v')
    (hP : ∀ a v, P a v → P' a v) {p : Prog α} (h : p.Wp Q P v) : p.Wp Q' P' v := by
  induction p generalizing v with
  | ret a => exact hP a v h
  | putc c k ih => exact fun v' S H => ih (h v' S H)
  | getc k ih => exact fun c => ih c (h c)
  | getVfs k ih => exact ih v h
  | setVfs v' k ih => exact ⟨hQ _ _ h.1, fun S => ih (h.2 S)⟩
  | fault => trivial

theorem Wp.bind {R : β → Vfs → Prop} {p : Prog β} {f : β → Prog α} (S : v.Sane)
    (hp : p.Wp Q R v) (hf : ∀ b v, v.Sane → R b v → (f b).Wp Q P v) : (p >>= f).Wp Q P v := by
  change (p.bind f).Wp Q P v
  induction p generalizing v with
  | ret b => exact hf b v S hp
  | putc c k ih => exact fun v' T S' => ih S' (hp v' T S')
  | getc k ih => exact fun c => ih c S (hp c)
  | getVfs k ih => exact ih v S hp
  | setVfs v' k ih => exact ⟨hp.1, fun S' => ih S' (hp.2 S')⟩
  | fault => trivial

/-- The nodes of the beginning are there at the end. -/
theorem Wp.later (hQ : Preserving Q) (S : v.Sane) {p : Prog α} (h : p.Wp Q P v) :
    p.Wp Q (fun a v' => P a v' ∧ v.Later v') v := by
  have hthen : ∀ {v v₁ : Vfs} {k : Prog α}, v.Later v₁ →
      k.Wp Q (fun a v' => P a v' ∧ v₁.Later v') v₁ → k.Wp Q (fun a v' => P a v' ∧ v.Later v') v₁ :=
    fun L => Wp.mono (fun _ _ h => h) fun _ _ h => ⟨h.1, L.trans h.2⟩
  induction p generalizing v with
  | ret a => exact ⟨h, .refl v⟩
  | putc c k ih => exact fun v' T S' => hthen T.later (ih S' (h v' T S'))
  | getc k ih => exact fun c => ih c S (h c)
  | getVfs k ih => exact ih v S h
  | setVfs v' k ih => exact ⟨h.1, fun S' => hthen (hQ S h.1).2 (ih S' (h.2 S'))⟩
  | fault => trivial

theorem Wp.puts (S : v.Sane) (m : List Char) :
    (puts m).Wp Q (fun _ v' => v.SameTree v' ∧ v'.Sane) v := by
  suffices ∀ v', v.SameTree v' → v'.Sane →
      (Prog.puts m).Wp Q (fun _ v' => v.SameTree v' ∧ v'.Sane) v' from this v .rfl' S
  induction m with
  | nil => exact fun v' T S' => ⟨T, S'⟩
  | cons c m ih => exact fun v' T S' v'' T' S'' => ih v'' (T.trans T') S''

theorem Wp.fs {f : Vfs → Option (α × Vfs)}
    (h : ∀ a v', f v = some (a, v') → Q v v' ∧ (v'.Sane → P a v')) : (fs f).Wp Q P v := by
  simp only [Prog.fs, Wp]
  split
  · trivial
  · rename_i a v' hf
    exact h a v' hf

/-- Reading the file system is not a step. -/
theorem Wp.vfs {f : Vfs → Prog α} (h : (f v).Wp Q P v) : (vfs >>= f).Wp Q P v := h

/-! ## Commands without an eye on the state -/

/-- Wherever it begins, the command takes steps of `Q`, and its answer has `R`. -/
def Gives (Q : Vfs → Vfs → Prop) (R : α → Prop) (p : Prog α) : Prop :=
  ∀ v, v.Sane → p.Wp Q (fun a _ => R a) v

/-- The same for any answer. -/
abbrev Only (Q : Vfs → Vfs → Prop) (p : Prog α) : Prop := p.Gives Q fun _ => True

variable {R : α → Prop} {T : β → Prop}

theorem Gives.pure {a : α} (h : R a) : (Pure.pure a : Prog α).Gives Q R := fun _ _ => h

theorem Only.pure (a : α) : (Pure.pure a : Prog α).Only Q := fun _ _ => trivial

theorem Gives.fault : (Prog.fault : Prog α).Gives Q R := fun _ _ => trivial

theorem Gives.bind {p : Prog β} {f : β → Prog α} (hp : p.Gives Q T)
    (hf : ∀ b, T b → (f b).Gives Q R) : (p >>= f).Gives Q R :=
  fun v S => (hp v S).bind S fun b v' S' hb => hf b hb v' S'

/-- The same without a look at the answer in between. -/
theorem Only.bind {p : Prog β} {f : β → Prog α} (hp : p.Only Q) (hf : ∀ b, (f b).Gives Q R) :
    (p >>= f).Gives Q R := Gives.bind hp fun b _ => hf b

theorem Only.puts (m : List Char) : (puts m).Only Q := fun _ S =>
  (Wp.puts S m).mono (fun _ _ h => h) fun _ _ _ => trivial

theorem Only.say (m : List Char) {a : α} (h : R a) :
    (Prog.puts m >>= fun _ => (Pure.pure a : Prog α)).Gives Q R :=
  Only.bind (.puts m) fun _ => .pure h

theorem Only.fail (m : String) : (fail m).Only Q := Only.say _ trivial

theorem Only.complain (m : List Char) : (complain m).Only Q := Only.say _ trivial

theorem Only.getc {k : Int → Prog α} (h : ∀ c, (k c).Gives Q R) : (getc k).Gives Q R :=
  fun v S c => h c v S

theorem Gives.vfs {f : Vfs → Prog α} (h : ∀ v, v.Sane → (f v).Wp Q (fun a _ => R a) v) :
    (vfs >>= f).Gives Q R := h

theorem Only.vfs {f : Vfs → Prog α} (h : ∀ v, (f v).Gives Q R) : (vfs >>= f).Gives Q R :=
  fun v S => h v v S

theorem Gives.fs {f : Vfs → Option (α × Vfs)}
    (h : ∀ v a v', v.Sane → f v = some (a, v') → Q v v' ∧ R a) : (fs f).Gives Q R :=
  fun v S => Wp.fs fun a v' hf => ⟨(h v a v' S hf).1, fun _ => (h v a v' S hf).2⟩

theorem Only.fs {f : Vfs → Option (α × Vfs)}
    (h : ∀ v a v', v.Sane → f v = some (a, v') → Q v v') : (fs f).Only Q :=
  Gives.fs fun v a v' S hf => ⟨h v a v' S hf, trivial⟩

theorem Only.forM {ι : Type} {f : ι → Prog Unit} {xs : List ι} (h : ∀ x, (f x).Only Q) :
    (xs.forM f).Only Q := by
  induction xs with
  | nil => exact .pure ()
  | cons x xs ih => exact Only.bind (h x) fun _ => ih

theorem Only.eachOperand {f : List Char → Prog Bool} (h : ∀ p, (f p).Only Q)
    (ps : List (List Char)) (rc : Int) : (eachOperand f ps rc).Only Q := by
  induction ps generalizing rc with
  | nil => exact .pure rc
  | cons p ps ih => exact Only.bind (h p) fun ok => ih _

theorem Gives.mono {Q' : Vfs → Vfs → Prop} (hQ : ∀ v v', Q v v' → Q' v v') {p : Prog α}
    (h : p.Gives Q R) : p.Gives Q' R := fun v S => (h v S).mono hQ fun _ _ h => h

/-- Commands that only allocate may be used where more is allowed. -/
theorem Gives.fsCalls {p : Prog α} (h : p.Gives Allocates R) : p.Gives FsCalls R :=
  h.mono fun _ _ h => h.fsCalls

end Prog

/-! ## Runs -/

namespace Shell

open Vfs

variable {σ σ' τ : Shell} {Q : Vfs → Vfs → Prop} {c : Char}

/-- The filesystem is in order, the redirections are to files of it, and no pipe is overrun. -/
structure Sound (σ : Shell) : Prop where
  sane : σ.vfs.Sane
  out : ∀ f, σ.outFile = some f → f < σ.vfs.next ∧ (σ.vfs.node f).type = .file
  input : ∀ f, σ.inFile = some f → f < σ.vfs.next ∧ (σ.vfs.node f).type = .file
  pipes : ∀ i, (σ.pipes i).bytes.length ≤ PIPE_MAX

theorem Sound.setVfs (S : σ.Sound) {v : Vfs} (h : v.Sane) (L : σ.vfs.Later v) :
    Sound { σ with vfs := v } where
  sane := h
  out f hf := by
    obtain ⟨hlt, ht⟩ := S.out f hf
    exact ⟨Nat.lt_of_lt_of_le hlt L.next, (L.type f hlt).trans ht⟩
  input f hf := by
    obtain ⟨hlt, ht⟩ := S.input f hf
    exact ⟨Nat.lt_of_lt_of_le hlt L.next, (L.type f hlt).trans ht⟩
  pipes := S.pipes

/-- What a byte of output can do. -/
theorem outRaw_cases (S : σ.Sound) (h : σ.outRaw c = some σ') :
    (∃ f v, ∃ b : Bool, σ.outFile = some f ∧ σ' = { σ with vfs := v } ∧ v.Sane ∧
      σ.vfs.SameTree v ∧ v.contents = Function.update σ.vfs.contents f
        (σ.vfs.contents f ++ if b then [c] else [])) ∨
    (∃ pipes console, σ' = { σ with pipes, console } ∧ ∀ i, (pipes i).bytes.length ≤ PIPE_MAX) := by
  rw [outRaw] at h
  split at h
  · rename_i f hout
    obtain rfl := Option.some.inj h
    obtain ⟨hlt, ht⟩ := S.out f hout
    obtain ⟨b, v, hv, H, T, hc, -⟩ := S.sane.heap.appendByte hlt ht c 0
    have htotal := σ.vfs.vfsAppendFile_total f (.ext [c]) 1
    rw [hv] at htotal ⊢
    exact .inl ⟨f, v, b, hout, rfl, ⟨T.wf S.sane.wf, H, htotal ▸ S.sane.region⟩, T, hc⟩
  refine .inr ?_
  split at h
  · rw [pipeWriterAdd] at h
    split at h
    · exact ⟨_, _, (Option.some.inj h).symm, S.pipes⟩
    simp only at h
    split at h
    · exact ⟨_, _, (Option.some.inj h).symm, S.pipes⟩
    rename_i w hw hfull
    split at h
    · refine ⟨_, σ.console, (Option.some.inj h).symm, fun i => ?_⟩
      rcases eq_or_ne i w with rfl | hne
      · rw [Function.update_self, List.length_append]
        exact Nat.not_le.mp hfull
      · rw [Function.update_of_ne hne]
        exact S.pipes i
    · cases h
  · exact ⟨σ.pipes, _, (Option.some.inj h).symm, S.pipes⟩

theorem outRaw_sound (S : σ.Sound) (h : σ.outRaw c = some σ') : σ'.Sound := by
  rcases outRaw_cases S h with ⟨f, v, b, -, rfl, hv, T, -⟩ | ⟨pipes, console, rfl, hp⟩
  · exact S.setVfs hv T.later
  · exact { S with pipes := hp }

theorem shPuts_sound (S : σ.Sound) {m : List Char} (h : σ.shPuts m = some σ') : σ'.Sound := by
  induction m generalizing σ with
  | nil =>
    obtain rfl := Option.some.inj h
    exact S
  | cons c m ih =>
    rw [shPuts, List.foldlM_cons] at h
    obtain ⟨σ₁, h₁, h⟩ := Option.bind_eq_some_iff.mp h
    exact ih (outRaw_sound S h₁) h

/-- Input moves an offset, or takes a key. -/
theorem shGetc_cases {k : Int} (h : σ.shGetc = some (k, σ')) :
    ∃ inOff pipeInOff keys, σ' = { σ with inOff, pipeInOff, keys } := by
  rw [shGetc] at h
  split at h
  · split at h
    · exact ⟨_, _, _, (Prod.mk.inj (Option.some.inj h)).2.symm⟩
    · obtain ⟨d, -, he⟩ := Option.map_eq_some_iff.mp h
      exact ⟨_, _, _, (Prod.mk.inj he).2.symm⟩
  split at h
  · split at h
    · exact ⟨_, _, _, (Prod.mk.inj (Option.some.inj h)).2.symm⟩
    · exact ⟨_, _, _, (Prod.mk.inj (Option.some.inj h)).2.symm⟩
  · exact ⟨_, _, _, (Prod.mk.inj (Option.some.inj h)).2.symm⟩

/-- One service of the system. -/
inductive Serve (Q : Vfs → Vfs → Prop) (σ : Shell) : Shell → Prop
  | out {c : Char} {σ' : Shell} (h : σ.outRaw c = some σ') : Serve Q σ σ'
  | read {k : Int} {σ' : Shell} (h : σ.shGetc = some (k, σ')) : Serve Q σ σ'
  | files {v : Vfs} (h : Q σ.vfs v) : Serve Q σ { σ with vfs := v }

abbrev Served (Q : Vfs → Vfs → Prop) : Shell → Shell → Prop := Relation.ReflTransGen (Serve Q)

theorem Serve.sound (hQ : Preserving Q) (S : σ.Sound) (h : Serve Q σ σ') : σ'.Sound := by
  cases h with
  | out h => exact outRaw_sound S h
  | read h =>
    obtain ⟨_, _, _, rfl⟩ := shGetc_cases h
    exact { S with }
  | files h =>
    obtain ⟨hv, L⟩ := hQ S.sane h
    exact S.setVfs hv L

theorem Served.sound (hQ : Preserving Q) (S : σ.Sound) (h : Served Q σ σ') : σ'.Sound := by
  induction h with
  | refl => exact S
  | tail _ h ih => exact h.sound hQ ih

/-- Services with no other calls of `vfs.c` than requests of memory: the tree stays as it is, and of
the files only the one that the output goes to gets longer. -/
structure Frame (σ σ' : Shell) : Prop where
  tree : σ.vfs.SameTree σ'.vfs
  outFile : σ'.outFile = σ.outFile
  others : ∀ n, σ.outFile ≠ some n → σ'.vfs.contents n = σ.vfs.contents n
  grown : ∀ n, σ.vfs.contents n <+: σ'.vfs.contents n

theorem Frame.refl (σ : Shell) : Frame σ σ :=
  ⟨.rfl', rfl, fun _ _ => rfl, fun _ => List.prefix_rfl⟩

theorem Frame.trans (F : Frame σ σ') (F' : Frame σ' τ) : Frame σ τ where
  tree := F.tree.trans F'.tree
  outFile := F'.outFile.trans F.outFile
  others n hn := (F'.others n (F.outFile ▸ hn)).trans (F.others n hn)
  grown n := (F.grown n).trans (F'.grown n)

theorem Frame.of_vfs (hv : σ'.vfs = σ.vfs) (hout : σ'.outFile = σ.outFile) : Frame σ σ' where
  tree := hv ▸ .rfl'
  outFile := hout
  others n _ := by rw [hv]
  grown n := by rw [hv]

theorem Serve.frame (S : σ.Sound) (h : Serve Allocates σ σ') : Frame σ σ' := by
  cases h with
  | out h =>
    rcases outRaw_cases S h with ⟨f, v, b, hout, rfl, -, T, hc⟩ | ⟨pipes, console, rfl, -⟩
    · refine ⟨T, rfl, fun n hn => ?_, fun n => ?_⟩
      · have hne : n ≠ f := fun he => hn (he ▸ hout)
        exact (congrFun hc n).trans (Function.update_of_ne hne _ _)
      · rw [hc]
        rcases eq_or_ne n f with rfl | hne
        · rw [Function.update_self]
          exact List.prefix_append _ _
        · rw [Function.update_of_ne hne]
    · exact .of_vfs rfl rfl
  | read h =>
    obtain ⟨_, _, _, rfl⟩ := shGetc_cases h
    exact .of_vfs rfl rfl
  | files h =>
    obtain ⟨ram, hram, -, rfl⟩ := h
    have U := S.sane.heap.toBuffers.untouched_ram hram.ok hram.used hram.mem
    have hc := U.contents S.sane.heap.toBuffers
    exact ⟨.ram ram, rfl, fun n _ => congrFun hc n, fun n => (congrFun hc n) ▸ List.prefix_rfl⟩

theorem Served.frame (S : σ.Sound) (h : Served Allocates σ σ') : Frame σ σ' := by
  suffices σ'.Sound ∧ Frame σ σ' from this.2
  induction h with
  | refl => exact ⟨S, .refl σ⟩
  | tail _ h ih => exact ⟨h.sound allocates_preserving ih.1, ih.2.trans (h.frame ih.1)⟩

end Shell

namespace Prog

open Shell Vfs

variable {α : Type} {Q : Vfs → Vfs → Prop} {P : α → Vfs → Prop} {R : α → Prop} {σ σ' : Shell}

/-- A run is made of services, and it ends with the postcondition. -/
theorem Wp.served (hQ : Preserving Q) {p : Prog α} {a : α} (S : σ.Sound) (h : p.Wp Q P σ.vfs)
    (hr : p.run σ = some (a, σ')) : Served Q σ σ' ∧ P a σ'.vfs := by
  induction p generalizing σ with
  | ret b =>
    obtain ⟨rfl, rfl⟩ := Prod.mk.inj (Option.some.inj hr)
    exact ⟨.refl, h⟩
  | putc c k ih =>
    obtain ⟨σ₁, h₁, hr⟩ := Option.bind_eq_some_iff.mp hr
    have S₁ := outRaw_sound S h₁
    obtain ⟨hs, hP⟩ := ih S₁ (h σ₁.vfs (outRaw_sameTree h₁) S₁.sane) hr
    exact ⟨.head (.out h₁) hs, hP⟩
  | getc k ih =>
    obtain ⟨⟨c, σ₁⟩, h₁, hr⟩ := Option.bind_eq_some_iff.mp hr
    have hread : Serve Q σ σ₁ := .read h₁
    have hv : σ₁.vfs = σ.vfs := by
      obtain ⟨_, _, _, rfl⟩ := shGetc_cases h₁
      rfl
    obtain ⟨hs, hP⟩ := ih c (hread.sound hQ S) (hv ▸ h c) hr
    exact ⟨.head hread hs, hP⟩
  | getVfs k ih => exact ih σ.vfs S h hr
  | setVfs v k ih =>
    have hcall : Serve Q σ { σ with vfs := v } := .files h.1
    have S₁ := hcall.sound hQ S
    obtain ⟨hs, hP⟩ := ih S₁ (h.2 S₁.sane) hr
    exact ⟨.head hcall hs, hP⟩
  | fault => cases hr

theorem Gives.served (hQ : Preserving Q) {p : Prog α} {a : α} (h : p.Gives Q R) (S : σ.Sound)
    (hr : p.run σ = some (a, σ')) : Served Q σ σ' ∧ R a := (h σ.vfs S.sane).served hQ S hr

end Prog

end BojanOS
