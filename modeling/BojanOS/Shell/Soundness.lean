import BojanOS.Cmds.Effects
import BojanOS.Shell.CtrlC
import BojanOS.Shell.Quoting

/-!
# Sessions with the commands of the system

A line is a run of services of the system and of assignments of the shell to its own variables. What
the services may do to the filesystem is a parameter, with the commands that are called: any of
them, and the filesystem is in order behind the line; none of `changers` in a line without a `>`, and
no file is another one.
-/

namespace BojanOS

open Trace

/-! ## Moves of the shell -/

namespace Shell

open Vfs

variable {σ σ' τ : Shell} {Q : Vfs → Vfs → Prop} {W : Prop}

/-- A service, or an assignment that leaves the filesystem alone; `W` says whether it may open an
output file. -/
inductive Move (Q : Vfs → Vfs → Prop) (W : Prop) (σ : Shell) : Shell → Prop
  | serve {σ' : Shell} (h : Serve Q σ σ') : Move Q W σ σ'
  | assign {σ' : Shell} (vfs : σ'.vfs = σ.vfs)
    (out : ∀ f, σ'.outFile = some f →
      σ.outFile = some f ∨ W ∧ f < σ.vfs.next ∧ (σ.vfs.node f).type = .file)
    (input : ∀ f, σ'.inFile = some f →
      σ.inFile = some f ∨ f < σ.vfs.next ∧ (σ.vfs.node f).type = .file)
    (pipes : ∀ i, (σ'.pipes i).bytes.length ≤ (σ.pipes i).bytes.length) : Move Q W σ σ'

abbrev Moved (Q : Vfs → Vfs → Prop) (W : Prop) : Shell → Shell → Prop :=
  Relation.ReflTransGen (Move Q W)

theorem Move.sound (hQ : Preserving Q) (S : σ.Sound) (h : Move Q W σ σ') : σ'.Sound := by
  cases h with
  | serve h => exact h.sound hQ S
  | assign hv hout hin hp =>
    refine ⟨hv ▸ S.sane, fun f hf => ?_, fun f hf => ?_, fun i => (hp i).trans (S.pipes i)⟩
    · rw [hv]
      exact (hout f hf).elim (S.out f) And.right
    · rw [hv]
      exact (hin f hf).elim (S.input f) id

theorem Moved.sound (hQ : Preserving Q) (S : σ.Sound) (h : Moved Q W σ σ') : σ'.Sound := by
  induction h with
  | refl => exact S
  | tail _ h ih => exact h.sound hQ ih

/-- With no output file, and none opened, the files stay as they are. -/
theorem Moved.frame (S : σ.Sound) (hout : σ.outFile = none) (h : Moved Allocates False σ σ') :
    σ'.outFile = none ∧ Frame σ σ' := by
  induction h with
  | refl => exact ⟨hout, .refl σ⟩
  | @tail τ τ' hm h ih =>
    have Sτ := Moved.sound allocates_preserving S hm
    cases h with
    | serve h =>
      have F := h.frame Sτ
      exact ⟨F.outFile.trans ih.1, ih.2.trans F⟩
    | assign hv ho _ _ =>
      have hnone : τ'.outFile = none := by
        cases hτ : τ'.outFile with
        | none => rfl
        | some f =>
          rcases ho f hτ with h | h
          · rw [ih.1] at h
            cases h
          · exact h.1.elim
      exact ⟨hnone, ih.2.trans (.of_vfs hv (hnone.trans ih.1.symm))⟩

theorem Served.moved (h : Served Q σ σ') : Moved Q W σ σ' :=
  Relation.ReflTransGen.mono (fun _ _ h => Move.serve h) _ _ h

theorem shPuts_served {m : List Char} (h : σ.shPuts m = some σ') : Served Q σ σ' := by
  induction m generalizing σ with
  | nil =>
    obtain rfl := Option.some.inj h
    exact .refl
  | cons c m ih =>
    rw [shPuts, List.foldlM_cons] at h
    obtain ⟨σ₁, h₁, h⟩ := Option.bind_eq_some_iff.mp h
    exact .head (.out h₁) (ih h)

/-- A step in the filesystem. -/
theorem moved_vfs {v : Vfs} (h : Q σ.vfs v) : Moved Q W σ { σ with vfs := v } :=
  .single (.serve (.files h))

/-- An assignment to other variables than the redirections and the filesystem. -/
theorem moved_assign (hv : σ'.vfs = σ.vfs) (hout : σ'.outFile = σ.outFile)
    (hin : σ'.inFile = σ.inFile)
    (hp : ∀ i, (σ'.pipes i).bytes.length ≤ (σ.pipes i).bytes.length) : Moved Q W σ σ' :=
  .single (.assign hv (fun _ h => .inl (hout ▸ h)) (fun _ h => .inl (hin ▸ h)) hp)

/-- The steps that a line may take: requests of memory, and any call if its output may be
redirected. -/
structure Terms (Q : Vfs → Vfs → Prop) (W : Prop) : Prop where
  preserving : Preserving Q
  alloc : ∀ s s', Allocates s s' → Q s s'
  calls : W → ∀ s s', FsCall s s' → Q s s'

theorem terms_any : Terms FsCalls True :=
  ⟨fsCalls_preserving, fun _ _ h => h.fsCalls, fun _ _ _ h => .single h⟩

theorem terms_frame : Terms Allocates False :=
  ⟨allocates_preserving, fun _ _ h => h, fun h => h.elim⟩

/-! ## Redirections -/

variable {cl : Cmdline (List Char)} {ok : Bool} {v : Vfs}

theorem refuse_moved {m : List Char} (h : σ.refuse m = some (ok, σ')) : Moved Q W σ σ' :=
  (shPuts_served (refuse_eq h).2).moved

theorem openOut_calls {name : List Char} (S : σ.Sound) (T : Terms Q W) (hW : W)
    (h : σ.openOut name = some (ok, v)) : Q σ.vfs v := by
  rcases openOut_cases h with ⟨-, -, -, rfl⟩ | ⟨-, hmk⟩
  · exact T.alloc _ _ S.sane.allocates
  · exact T.calls hW _ _ (.op (.mkfile name) hmk)

theorem redirOut_moved (T : Terms Q W) (S : σ.Sound) (hgt : cl.hasOut = true → W)
    (h : redirOut cl σ = some (ok, σ')) : Moved Q W σ σ' := by
  rw [redirOut] at h
  split at h
  · obtain ⟨-, rfl⟩ := Prod.mk.inj (Option.some.inj h)
    exact .refl
  rename_i ho
  have hW := hgt (not_not.mp ho)
  split at h
  · cases h
  split at h
  · cases h
  · rename_i v hopen
    exact (moved_vfs (openOut_calls S T hW hopen)).trans (refuse_moved h)
  rename_i v hopen
  have hv : Moved Q W σ { σ with vfs := v } := moved_vfs (openOut_calls S T hW hopen)
  have Sv := hv.sound T.preserving S
  simp only at h
  split at h
  · exact hv.trans (refuse_moved h)
  rename_i f hf
  split at h
  · exact hv.trans (refuse_moved h)
  rename_i hty
  obtain ⟨-, rfl⟩ := Prod.mk.inj (Option.some.inj h)
  have hlt : f < v.next := Sv.sane.wf.vfsResolve_lt hf
  have hassign : Moved Q W { σ with vfs := v } { σ with vfs := v, outFile := some f } := by
    refine .single (.assign rfl (fun g hg => .inr ?_) (fun _ h => .inl h) fun _ => le_rfl)
    obtain rfl := Option.some.inj hg
    exact ⟨hW, hlt, not_not.mp hty⟩
  refine (hv.trans hassign).trans ?_
  split
  · exact .refl
  · have htrunc : FsOp.step (.truncate f) v = some (true, v.vfsTruncate f) := by
      rw [FsOp.step, if_pos hlt]
    exact moved_vfs (T.calls hW _ _ (.op _ htrunc))

theorem redirIn_moved (S : σ.Sound) (h : redirIn cl σ = some (ok, σ')) : Moved Q W σ σ' := by
  rw [redirIn] at h
  split at h
  · obtain ⟨-, rfl⟩ := Prod.mk.inj (Option.some.inj h)
    exact .refl
  split at h
  · cases h
  simp only at h
  split at h
  · exact refuse_moved h
  rename_i f hf
  split at h
  · exact refuse_moved h
  rename_i hty
  obtain ⟨-, rfl⟩ := Prod.mk.inj (Option.some.inj h)
  refine .single (.assign rfl (fun _ h => .inl h) (fun g hg => .inr ?_) fun _ => le_rfl)
  obtain rfl := Option.some.inj hg
  exact ⟨S.sane.wf.vfsResolve_lt hf, not_not.mp hty⟩

theorem applyRedirs_moved (T : Terms Q W) (S : σ.Sound) (hgt : cl.hasOut = true → W)
    (h : applyRedirs cl σ = some (ok, σ')) : Moved Q W σ σ' := by
  have hnone : Moved Q W σ { σ with outFile := none, inFile := none, inOff := 0 } :=
    .single (.assign rfl (fun _ h => by cases h) (fun _ h => by cases h) fun _ => le_rfl)
  have S₀ := hnone.sound T.preserving S
  rw [applyRedirs] at h
  split at h
  · cases h
  · rename_i τ hτ
    obtain ⟨-, rfl⟩ := Prod.mk.inj (Option.some.inj h)
    exact hnone.trans (redirOut_moved T S₀ hgt hτ)
  · rename_i τ hτ
    have hout : Moved Q W σ τ := hnone.trans (redirOut_moved T S₀ hgt hτ)
    exact hout.trans (redirIn_moved (hout.sound T.preserving S) h)

/-! ## Stages -/

theorem clearPipe_bytes (σ : Shell) (j i : Bool) :
    ((σ.clearPipe j).pipes i).bytes.length ≤ (σ.pipes i).bytes.length := by
  rcases eq_or_ne i j with rfl | hne
  · simp [clearPipe]
  · simp [clearPipe, hne]

theorem clearPipe_moved (σ : Shell) (i : Bool) : Moved Q W σ (σ.clearPipe i) :=
  moved_assign rfl rfl rfl (σ.clearPipe_bytes i)

theorem beforeRedirs_moved (σ : Shell) (doPipe : Bool) : Moved Q W σ (σ.beforeRedirs doPipe) := by
  have hwriting : Moved Q W σ { σ with pipeWriting := doPipe } :=
    moved_assign rfl rfl rfl fun _ => le_rfl
  rw [beforeRedirs]
  split
  · rw [clearWriter]
    split
    · exact hwriting
    · exact hwriting.trans (clearPipe_moved _ _)
  · exact hwriting

theorem restoreRedirs_moved (σ : Shell) : Moved Q W σ σ.restoreRedirs :=
  .single (.assign rfl (fun _ h => by cases h) (fun _ h => by cases h) fun _ => le_rfl)

theorem beforeRedirs_calls (σ : Shell) (doPipe : Bool) : (σ.beforeRedirs doPipe).calls = σ.calls := by
  rw [beforeRedirs]
  split
  · rw [clearWriter]
    split
    · rfl
    · rfl
  · rfl

/-- What `record` adds. -/
def call (σ : Shell) (cl : Cmdline (List Char)) : Call where
  argv := cl.items
  outFile := σ.outFile
  inFile := σ.inFile
  ownOut := if cl.hasOut then σ.vfs.vfsResolve cl.outFile else none
  ownIn := if cl.hasIn then σ.vfs.vfsResolve cl.inFile else none
  pipeWriting := σ.pipeWriting
  pipeReader := σ.pipeReader

theorem record_calls (σ : Shell) (cl : Cmdline (List Char)) :
    (σ.record cl).calls = σ.calls ++ [σ.call cl] := rfl

variable {commands : Commands} {N : Call → Prop} {rc : Int} {doPipe : Bool}

/-- A command takes steps of `Q` only, when it is called as `N` says. -/
def Obeys (commands : Commands) (N : Call → Prop) (Q : Vfs → Vfs → Prop) : Prop :=
  ∀ (c : Call) fn, N c → commands (c.argv.headD []) = some fn → (fn c.argv).Only Q

theorem shellRunBuiltin_only {c : Call} (hcmd : Obeys commands N Q) (hN : N c) :
    (shellRunBuiltin commands c.argv).Only Q := by
  rw [shellRunBuiltin]
  split
  · exact Prog.Only.say _ trivial
  · rename_i fn hfn
    exact hcmd c fn hN hfn

theorem runCmdline_moved (T : Terms Q W) (hcmd : Obeys commands N Q) (S : σ.Sound)
    (hgt : cl.hasOut = true → W) (L : Logs N σ σ')
    (h : runCmdline commands cl doPipe σ = some (rc, σ')) : Moved Q W σ σ' := by
  by_cases hne : cl.items = []
  · rw [runCmdline, if_pos hne] at h
    obtain ⟨-, rfl⟩ := Prod.mk.inj (Option.some.inj h)
    exact .refl
  have hbefore : Moved Q W σ (σ.beforeRedirs doPipe) := beforeRedirs_moved σ doPipe
  rw [runCmdline_redirs hne] at h
  obtain ⟨⟨ok, τ⟩, hτ, h⟩ := Option.bind_eq_some_iff.mp h
  have hredirs : Moved Q W σ τ :=
    hbefore.trans (applyRedirs_moved T (hbefore.sound T.preserving S) hgt hτ)
  have Sτ := hredirs.sound T.preserving S
  cases ok with
  | false =>
    obtain ⟨-, rfl⟩ := Prod.mk.inj (Option.some.inj h)
    exact hredirs.trans (restoreRedirs_moved τ)
  | true =>
    rw [if_pos rfl] at h
    split at h
    · cases h
    obtain ⟨⟨r, υ⟩, hr, he⟩ := Option.map_eq_some_iff.mp h
    obtain ⟨-, rfl⟩ := Prod.mk.inj he
    -- the call is the only one that is new
    have hcalls : υ.calls = σ.calls ++ [τ.call cl] := by
      rw [(Prog.run_routing hr).calls, record_calls, (applyRedirs_spec hτ).1.calls,
        beforeRedirs_calls]
    obtain ⟨new, hnew, hN⟩ := L
    obtain rfl : [τ.call cl] = new := List.append_cancel_left (hcalls.symm.trans hnew)
    have hrecord : Moved Q W τ (τ.record cl) := moved_assign rfl rfl rfl fun _ => le_rfl
    have hrun := (shellRunBuiltin_only hcmd (hN _ List.mem_cons_self)).served T.preserving
      (hrecord.sound T.preserving Sτ) hr
    exact ((hredirs.trans hrecord).trans hrun.1.moved).trans (restoreRedirs_moved υ)

/-! ## The text of a stage -/

theorem pieces_suffix (q : Nat) (s : List Char) : (pieces q s).2 <:+ s := by
  induction hn : s.length using Nat.strongRecOn generalizing q s with
  | _ n ih =>
    cases h : nextPiece q s with
    | none => rw [pieces_of_none h]
    | some r =>
      obtain ⟨pc, q', s'⟩ := r
      rw [pieces_of_some h]
      have hs' : s' <:+ s := ⟨_, (nextPiece_split h).1.symm⟩
      exact (ih s'.length (hn ▸ nextPiece_length h) q' s' rfl).trans hs'

theorem head_suffix {st : Parse.St} {hd : Tokenize.Head} {rest : List Char}
    (h : Parse.head st = (hd, rest)) : rest <:+ st.rest ∧ (hd = .redir true → '>' ∈ rest) := by
  have hsuffix := List.dropWhile_suffix isBlank (l := st.rest)
  rw [Parse.head] at h
  split at h
  · obtain ⟨rfl, rfl⟩ := Prod.mk.inj h
    exact ⟨List.suffix_rfl, fun h => by cases h⟩
  split at h
  · obtain ⟨rfl, rfl⟩ := Prod.mk.inj h
    exact ⟨List.nil_suffix, fun h => by cases h⟩
  rename_i c s hd'
  rw [hd'] at hsuffix
  split_ifs at h with hout hin
  · obtain ⟨-, rfl⟩ := Prod.mk.inj h
    exact ⟨hsuffix, fun _ => hout ▸ List.mem_cons_self⟩
  · obtain ⟨rfl, rfl⟩ := Prod.mk.inj h
    exact ⟨hsuffix, fun h => by cases h⟩
  · obtain ⟨rfl, rfl⟩ := Prod.mk.inj h
    exact ⟨hsuffix, fun h => by cases h⟩

/-- The loop of the tokenizer redirects the output of a text with a `>` only. -/
structure ParseInv (W : Prop) (st : Parse.St) : Prop where
  rest : '>' ∈ st.rest → W
  hasOut : st.cl.hasOut = true → W

theorem parse_step_inv {code : Fin 256} {W : Prop} {st st' : Parse.St} (I : ParseInv W st)
    (h : Parse.step code st = some (.inl st')) : ParseInv W st' := by
  rw [Parse.step] at h
  rcases hh : Parse.head st with ⟨hd, rest⟩
  rw [hh] at h
  obtain ⟨hsuffix, hgt⟩ := head_suffix hh
  have hrest : '>' ∈ rest → W := fun hm => I.rest (hsuffix.subset hm)
  cases hd with
  | stop => cases h
  | redir isOut =>
    obtain rfl : Parse.redir { st with rest } isOut = st' := Sum.inl.inj (Option.some.inj h)
    refine ⟨fun hm => hrest ?_, fun ho => ?_⟩
    · have htail := List.mem_of_mem_tail hm
      have hdrop := (List.dropWhile_suffix _).subset (List.mem_of_mem_drop htail)
      split at hdrop
      · exact List.mem_of_mem_tail (List.mem_of_mem_tail hdrop)
      · exact List.mem_of_mem_tail hdrop
    · cases isOut with
      | true => exact hrest (hgt rfl)
      | false => exact I.hasOut ho
  | word =>
    obtain rfl : Parse.item code { st with rest } = st' := Sum.inl.inj (Option.some.inj h)
    refine ⟨fun hm => ?_, I.hasOut⟩
    exact hrest ((pieces_suffix 0 rest).subset (List.mem_of_mem_tail hm))

theorem parse_inv {code : Fin 256} {text : List Char} {ram ram' : Ram} {W : Prop}
    {cl : Cmdline (List Char)} (hgt : '>' ∈ text → W)
    (h : parseInPlace code text ram = some (cl, ram')) :
    cl.hasOut = true → W := by
  obtain ⟨st, hst, he⟩ := Option.map_eq_some_iff.mp (parseInPlace_eq_some.mp h).1
  obtain ⟨rfl, rfl⟩ := Prod.mk.inj he
  obtain ⟨t, ht, hdone⟩ := Loop.exec_sound hst
  have I := ht.inv (I := ParseInv W) (fun _ _ I h => parse_step_inv I h)
    ⟨hgt, fun h => by cases h⟩
  rw [Parse.step] at hdone
  rcases hh : Parse.head t with ⟨_ | _ | _, rest⟩
  · rw [hh] at hdone
    obtain rfl := Sum.inr.inj (Option.some.inj hdone)
    exact I.hasOut
  · rw [hh] at hdone
    cases hdone
  · rw [hh] at hdone
    cases hdone

/-- The tokenizer asks for memory, and that is all. -/
theorem parse_allocates {code : Fin 256} {text : List Char} {s : Vfs} {ram : Ram}
    {cl : Cmdline (List Char)} (S : s.Sane) (hnul : NUL ∉ text) (hlen : text.length < ADDRESS_SPACE)
    (h : parseInPlace code text s.ram = some (cl, ram)) : s.Allocates { s with ram } := by
  obtain ⟨A, cl', -, htok, -⟩ := tokenize_eq_some (T := []) hnul h
  refine ⟨ram, tokenize_ram S.heap.ram ?_ htok, rfl⟩
  rw [List.length_append]
  exact hlen

/-! ## Lines -/

/-- A text of the keyboard, with a `>` only if `W`. -/
structure Admits (W : Prop) (text : List Char) : Prop where
  nul : NUL ∉ text
  short : text.length < ADDRESS_SPACE
  gt : '>' ∈ text → W

theorem Admits.sublist {text t : List Char} (P : Admits W text) (h : t.Sublist text) : Admits W t :=
  ⟨fun hm => P.nul (h.subset hm), Nat.lt_of_le_of_lt h.length_le P.short,
    fun hm => P.gt (h.subset hm)⟩

/-- Of the calls in between, those of the two parts. -/
theorem Logs.split (L : Logs N σ τ) (H : Logs (fun _ => True) σ σ')
    (H' : Logs (fun _ => True) σ' τ) : Logs N σ σ' ∧ Logs N σ' τ := by
  obtain ⟨new, hnew, hN⟩ := L
  obtain ⟨a, ha, -⟩ := H
  obtain ⟨b, hb, -⟩ := H'
  have hcalls : σ.calls ++ new = σ.calls ++ (a ++ b) := by
    rw [← hnew, hb, ha, List.append_assoc]
  obtain rfl := List.append_cancel_left hcalls
  exact ⟨⟨a, ha, fun c hc => hN c (List.mem_append_left b hc)⟩,
    ⟨b, hb, fun c hc => hN c (List.mem_append_right a hc)⟩⟩

variable {text : List Char}

theorem runText_moved (T : Terms Q W) (hcmd : Obeys commands N Q) (S : σ.Sound) (P : Admits W text)
    (L : Logs N σ σ') (h : runText commands text doPipe σ = some (rc, σ')) : Moved Q W σ σ' := by
  rw [runText] at h
  split at h
  · cases h
  · rename_i cl ram hp
    have hram : Moved Q W σ { σ with vfs := { σ.vfs with ram } } :=
      moved_vfs (T.alloc _ _ (parse_allocates S.sane P.nul P.short hp))
    exact hram.trans (runCmdline_moved T hcmd (hram.sound T.preserving S)
      (parse_inv P.gt hp) L h)

theorem nextStage_moved (σ : Shell) (which : Bool) : Moved Q W σ (σ.nextStage which) := by
  have hreader : Moved Q W σ { σ with pipeReader := some which, pipeInOff := 0 } :=
    moved_assign rfl rfl rfl fun _ => le_rfl
  exact hreader.trans (clearPipe_moved _ _)

theorem runStages_moved (T : Terms Q W) (hcmd : Obeys commands N Q) (S : σ.Sound)
    {texts : List (List Char)} {which : Bool} (P : ∀ t ∈ texts, Admits W t) (L : Logs N σ σ')
    (h : runStages commands texts which σ = some (rc, σ')) : Moved Q W σ σ' := by
  have hwriter : ∀ (σ : Shell) w, Moved Q W σ { σ with pipeWriter := w } :=
    fun _ _ => moved_assign rfl rfl rfl fun _ => le_rfl
  induction texts generalizing σ which with
  | nil =>
    obtain ⟨-, rfl⟩ := Prod.mk.inj (Option.some.inj h)
    exact .refl
  | cons t ts ih =>
    have ht := P t List.mem_cons_self
    cases ts with
    | nil =>
      rw [runStages] at h
      have hσ := hwriter σ none
      exact hσ.trans (runText_moved T hcmd (hσ.sound T.preserving S) ht L h)
    | cons t' ts =>
      rw [runStages] at h
      · split at h
        · cases h
        · rename_i rc' υ hr
          have hσ := hwriter σ (some which)
          have hcalls : ∀ text, Calls (fun _ => True) text := fun _ _ _ _ _ _ => trivial
          have hfirst : Logs (fun _ => True) { σ with pipeWriter := some which } υ :=
            runText_logs (hcalls t) hr
          have hrest := runStages_logs (fun t _ => hcalls t) h
          have hlog : Logs N { σ with pipeWriter := some which } σ' := L
          have hfirst : Logs (fun _ => True) { σ with pipeWriter := some which }
              (υ.nextStage which) := hfirst
          obtain ⟨L₁, L₂⟩ := hlog.split hfirst hrest
          have hυ : Moved Q W σ υ :=
            hσ.trans (runText_moved T hcmd (hσ.sound T.preserving S) ht L₁ hr)
          have hnext : Moved Q W σ (υ.nextStage which) := hυ.trans (nextStage_moved υ which)
          exact hnext.trans (ih (hnext.sound T.preserving S)
            (fun t hm => P t (List.mem_cons_of_mem _ hm)) L₂ h)
      · simp

theorem allocPipe_moved (T : Terms Q W) (S : σ.Sound) (i : Bool) : Moved Q W σ (σ.allocPipe i) := by
  rw [allocPipe]
  split
  · exact .refl
  · have hreq := S.sane.kmalloc (n := PIPE_MAX) (by decide)
    refine (moved_vfs (T.alloc _ _ hreq)).trans (moved_assign rfl rfl rfl fun j => ?_)
    rcases eq_or_ne j i with rfl | hne
    · simp
    · simp [hne]

theorem pipesReady_moved (T : Terms Q W) (S : σ.Sound) : Moved Q W σ σ.pipesReady := by
  have h₀ := allocPipe_moved T S false
  have h₁ : Moved Q W σ ((σ.allocPipe false).allocPipe true) :=
    h₀.trans (allocPipe_moved T (Moved.sound T.preserving S h₀) true)
  exact ((h₁.trans (clearPipe_moved _ false)).trans (clearPipe_moved _ true)).trans
    (moved_assign rfl rfl rfl fun _ => le_rfl)

theorem pipesDone_moved (σ : Shell) : Moved Q W σ σ.pipesDone :=
  .single (.assign rfl (fun _ h => by cases h) (fun _ h => by cases h) fun _ => le_rfl)

theorem runPipeline_moved (T : Terms Q W) (hcmd : Obeys commands N Q) (S : σ.Sound)
    (P : Admits W text) (L : Logs N σ σ') (h : runPipeline commands text σ = some (rc, σ')) :
    Moved Q W σ σ' := by
  obtain ⟨⟨r, υ⟩, hr, he⟩ := Option.map_eq_some_iff.mp h
  obtain ⟨-, rfl⟩ := Prod.mk.inj he
  have hready := pipesReady_moved T S
  have L₁ : Logs N σ.pipesReady υ := by
    obtain ⟨new, hnew, hN⟩ := L
    exact ⟨new, by rw [pipesReady_calls]; exact hnew, hN⟩
  have hstages := runStages_moved T hcmd (Moved.sound T.preserving S hready)
    (fun t ht => P.sublist (stages_spec ht).1) L₁ hr
  exact (hready.trans hstages).trans (pipesDone_moved υ)

theorem shSetExit_moved (σ : Shell) (code : Int) : Moved Q W σ (σ.shSetExit code) :=
  moved_assign rfl rfl rfl fun _ => le_rfl

theorem runSegments_moved (T : Terms Q W) (hcmd : Obeys commands N Q) (S : σ.Sound)
    {segs : List Segment} {rc₀ : Int} {k : Nat} {ran : List Nat}
    (P : ∀ seg ∈ segs, Admits W seg.text) (L : Logs N σ σ')
    (h : runSegments commands segs rc₀ k σ = some (rc, ran, σ')) : Moved Q W σ σ' := by
  have hany : ∀ text, Calls (fun _ => True) text := fun _ _ _ _ _ _ => trivial
  induction segs generalizing σ rc₀ rc k ran with
  | nil =>
    obtain ⟨-, -, rfl⟩ : rc₀ = rc ∧ [] = ran ∧ σ = σ' := by simpa [runSegments] using h
    exact .refl
  | cons seg segs ih =>
    have hseg := P seg List.mem_cons_self
    have hsegs := fun s (hs : s ∈ segs) => P s (List.mem_cons_of_mem _ hs)
    rw [runSegments] at h
    split at h
    · exact ih S hsegs L h
    split at h
    · split at h
      · cases h
      rename_i rc₁ σ₁ h₁
      have hset : Moved Q W σ₁ (σ₁.shSetExit rc₁) := shSetExit_moved σ₁ rc₁
      have H₁ : Logs (fun _ => True) σ (σ₁.shSetExit rc₁) :=
        (runPipeline_spec (fun t _ => hany t) h₁).2
      split at h
      · obtain ⟨-, -, rfl⟩ : rc₁ = rc ∧ [k] = ran ∧ σ₁.shSetExit rc₁ = σ' := by simpa using h
        have L₁ : Logs N σ σ₁ := L
        exact (runPipeline_moved T hcmd S hseg L₁ h₁).trans hset
      · obtain ⟨⟨rc', ran', τ⟩, hrec, he⟩ := Option.map_eq_some_iff.mp h
        obtain ⟨-, -, rfl⟩ : rc' = rc ∧ k :: ran' = ran ∧ τ = σ' := by simpa using he
        have H₂ := (runSegments_spec (fun _ _ t _ => hany t) hrec).2
        obtain ⟨hL₁, L₂⟩ := L.split H₁ H₂
        have L₁ : Logs N σ σ₁ := hL₁
        have hfirst : Moved Q W σ (σ₁.shSetExit rc₁) :=
          (runPipeline_moved T hcmd S hseg L₁ h₁).trans hset
        exact hfirst.trans (ih (hfirst.sound T.preserving S) hsegs L₂ hrec)
    · have hset : Moved Q W σ (σ.shSetExit rc₀) := shSetExit_moved σ rc₀
      exact hset.trans (ih (hset.sound T.preserving S) hsegs L h)

theorem segmentsFrom_admits {s : List Char} (P : Admits W s) :
    ∀ seg ∈ segmentsFrom [] s, Admits W seg.text := by
  intro seg hseg
  have hcount := segmentsFrom_count hseg
  have hmem : ∀ x ∈ seg.text, x ∈ s := fun x hx =>
    List.count_pos_iff.mp (Nat.lt_of_lt_of_le (List.count_pos_iff.mpr hx) (hcount x))
  refine ⟨fun h => P.nul (hmem _ h), ?_, fun h => P.gt (hmem _ h)⟩
  have hperm : seg.text.Subperm s := List.subperm_ext_iff.mpr fun x _ => hcount x
  exact Nat.lt_of_le_of_lt hperm.length_le P.short

theorem shellExecLine_moved (T : Terms Q W) (hcmd : Obeys commands N Q) (S : σ.Sound)
    (P : Admits W text) (L : Logs N σ σ') {rest : List Char} {ran : List Nat}
    (h : shellExecLine commands (text ++ NUL :: rest) σ = some (rc, ran, σ')) :
    Moved Q W σ σ' := by
  rw [shellExecLine_text commands rest σ P.nul, runLine] at h
  split at h
  · obtain ⟨-, -, rfl⟩ : 0 = rc ∧ [] = ran ∧ σ = σ' := by simpa using h
    exact .refl
  · rename_i c s hd
    split at h
    · obtain ⟨-, -, rfl⟩ : 0 = rc ∧ [] = ran ∧ σ = σ' := by simpa using h
      exact .refl
    · have hs : (c :: s).Sublist text := hd ▸ (List.dropWhile_suffix isBlank).sublist
      exact runSegments_moved T hcmd S (segmentsFrom_admits (P.sublist hs)) L h

end Shell

/-! ## The commands of the system -/

/-- The call is of a command that leaves the files alone. -/
def Call.Reads (c : Call) : Prop := ∀ name ∈ changers, c.argv.headD [] ≠ name.toList

namespace Env

variable {e : Env} {σ σ' : Shell} {text : List Char} {rc : Int} {ran : List Nat}

theorem cmdLookup_mem {name : List Char} {fn : List (List Char) → Prog Int}
    (h : e.cmdLookup name = some fn) :
    ∃ entry ∈ e.commands, entry.1.toList = name ∧ entry.2 = fn := by
  obtain ⟨entry, hfind, rfl⟩ := Option.map_eq_some_iff.mp h
  have hname := List.find?_some hfind
  exact ⟨entry, List.mem_of_find?_eq_some hfind, of_decide_eq_true hname, rfl⟩

theorem obeys_any (e : Env) : Shell.Obeys e.cmdLookup (fun _ => True) Vfs.FsCalls := by
  intro c fn _ hfn
  obtain ⟨entry, hmem, -, rfl⟩ := cmdLookup_mem hfn
  have h := e.effects entry hmem c.argv
  rw [Effect] at h
  split at h
  · exact h
  · exact h.fsCalls

theorem obeys_reads (e : Env) : Shell.Obeys e.cmdLookup Call.Reads Vfs.Allocates := by
  intro c fn hc hfn
  obtain ⟨entry, hmem, hname, rfl⟩ := cmdLookup_mem hfn
  have h := e.effects entry hmem c.argv
  rwa [Effect, if_neg fun hm => hc _ hm hname.symm] at h

end Env

open Shell Vfs in
/-- A line without a `>` that calls none of the changers leaves the tree and every file as they
are, whatever else it calls, reads and pipes. -/
theorem line_frame (e : Env) {σ σ' : Shell} {text rest : List Char} {rc : Int} {ran : List Nat}
    (S : σ.Sound) (hidle : σ.Idle) (hnul : NUL ∉ text) (hlen : text.length < LINE_MAX)
    (hgt : '>' ∉ text) (h : shellExecLine e.cmdLookup (text ++ NUL :: rest) σ = some (rc, ran, σ'))
    (L : Logs Call.Reads σ σ') :
    σ.vfs.SameTree σ'.vfs ∧ σ'.vfs.contents = σ.vfs.contents := by
  have P : Admits False text := ⟨hnul, hlen.trans (by decide), fun hm => hgt hm⟩
  have F := (shellExecLine_moved terms_frame e.obeys_reads S P L h).frame S hidle.outFile
  refine ⟨F.2.tree, funext fun n => F.2.others n ?_⟩
  rw [hidle.outFile]
  exact fun h => by cases h

instance (c : Call) : Decidable c.Reads := inferInstanceAs (Decidable (∀ _ ∈ _, _))

def readingLine : List Char := "cat /etc/hostname | rev ; nosuch".toList

open Shell Vfs in
/-- A pipe, and a command that there is not. -/
theorem line_frame_pipe : ∃ rc ran σ',
    shellExecLine bootEnv.cmdLookup (readingLine ++ NUL :: []) bootShell = some (rc, ran, σ') ∧
      σ'.console = "sonajob\nnosuch: command not found\n".toList ∧
      bootShell.vfs.SameTree σ'.vfs ∧ σ'.vfs.contents = bootShell.vfs.contents := by
  have hret : (shellExecLine bootEnv.cmdLookup (readingLine ++ NUL :: []) bootShell).any fun r =>
      r.2.2.console = "sonajob\nnosuch: command not found\n".toList ∧
        ∀ c ∈ r.2.2.calls, c.Reads := by
    rw [bootShell_spelled]
    decide +kernel
  obtain ⟨⟨rc, ran, σ'⟩, h, hconsole, hcalls⟩ := exists_of_any hret
  have L : Logs Call.Reads bootShell σ' := ⟨σ'.calls, rfl, hcalls⟩
  exact ⟨rc, ran, σ', h, hconsole, line_frame bootEnv bootShell_sound bootShell_idle (by decide)
    (by decide) (by decide) h L⟩

/-! ## Sessions -/

namespace Session

variable {s t : Session} {c n : Int} {e : Env} {rest : List Char}

/-- The table as the next line finds it: the line is in the history already. -/
def table (e : Env) (s : Session) : Commands :=
  { e with history := addHistory s.history s.submit.1 }.cmdLookup

/-- One round with the commands of the system; the clock and the timer may be others each time. -/
def liveStep (a : Env × List Char) (s : Session) : Option (Unit × Session) :=
  step (s.table a.1) a.2 s

theorem table_obeys (s : Session) (e : Env) :
    Shell.Obeys (s.table e) (fun _ => True) Vfs.FsCalls := Env.obeys_any _

/-- Between two keys. -/
structure Live (s : Session) : Prop extends AtPrompt s where
  sound : s.sh.Sound
  lineLt : s.line.length < LINE_MAX
  historyLe : s.history.length ≤ HIST_MAX
  histPos : s.histPos ≤ s.history.length

theorem nil_lineLt : ([] : List Char).length < LINE_MAX := by decide

theorem Live.setShell (I : s.Live) {sh : Shell} (h : sh.Sound) (hidle : sh.Idle) :
    Live { s with sh } :=
  ⟨⟨hidle, I.line, I.history⟩, h, I.lineLt, I.historyLe, I.histPos⟩

theorem Live.puts (I : s.Live) {sh : Shell} {m : List Char} (h : s.sh.shPuts m = some sh) :
    Live { s with sh } :=
  I.setShell (Shell.shPuts_sound I.sound h) (I.idle.puts h)

theorem Live.erase (I : s.Live) (h : s.erase = some t) : t.Live ∧ t.history = s.history := by
  obtain ⟨sh, hsh, rfl⟩ := Option.map_eq_some_iff.mp h
  have I' := I.puts hsh
  exact ⟨⟨⟨I'.idle, List.not_mem_nil, I'.history⟩, I'.sound, nil_lineLt, I'.historyLe, I'.histPos⟩,
    rfl⟩

theorem Live.fetch (I : s.Live) {i : Nat} (h : s.fetch i = some t) : t.Live := by
  rw [Session.fetch] at h
  split at h
  · rename_i text hi
    obtain ⟨sh, hsh, rfl⟩ := Option.map_eq_some_iff.mp h
    have I' := I.puts hsh
    have hnul := I.history text (List.mem_of_getElem? hi)
    obtain ⟨hlt, -⟩ := List.getElem?_eq_some_iff.mp hi
    refine ⟨⟨I'.idle, fun hm => hnul (List.mem_of_mem_take hm), I'.history⟩, I'.sound, ?_,
      I'.historyLe, hlt.le⟩
    exact Nat.lt_of_le_of_lt (List.length_take_le _ _) (by decide)
  · cases h

/-- A letter is stored while there is room for it. -/
theorem letter_room {sh : Shell} {key : Char} (hc : 32 ≤ c ∧ c < 127)
    (h : readlineKey c s = some (.inl { s with sh, line := s.line ++ [key] })) :
    s.line.length < LINE_MAX - 1 := by
  have hneg : ¬ c < 0 := by omega
  have henter : ¬ isEnter c = true := by
    rw [isEnter, decide_eq_true_iff]
    exact fun h => by rcases h with rfl | rfl <;> exact absurd hc (by decide)
  have hrub : c ≠ '\x08'.toNat := fun h => absurd (h ▸ hc) (by decide)
  have hctrlD : c ≠ KB_CTRL_D := fun h => absurd (h ▸ hc) (by decide)
  have hctrlC : c ≠ KB_CTRL_C := fun h => absurd (h ▸ hc) (by decide)
  have hup : c ≠ KB_KEY_UP := fun h => absurd (h ▸ hc) (by decide)
  have hdown : c ≠ KB_KEY_DOWN := fun h => absurd (h ▸ hc) (by decide)
  rw [readlineKey, if_neg hneg, if_neg henter, if_neg hrub, if_neg hctrlD, if_neg hctrlC,
    if_neg hup, if_neg hdown, if_pos hc] at h
  split at h
  · assumption
  · have hline := congrArg Session.line (Sum.inl.inj (Option.some.inj h))
    exact absurd (congrArg List.length hline) (by simp)

theorem Live.readlineKey (I : s.Live) {r : Session ⊕ (Int × Session)}
    (h : Session.readlineKey c s = some r) : (r.elim id Prod.snd).Live := by
  cases readlineKey_keyed h with
  | ignored => exact I
  | ends _ => exact I
  | enter _ hsh => exact I.puts hsh
  | rubbed hsh =>
    have I' := I.puts hsh
    have hline : NUL ∉ s.line.dropLast := fun hm => I.line (List.mem_of_mem_dropLast hm)
    refine ⟨⟨I'.idle, hline, I'.history⟩, I'.sound, ?_, I'.historyLe, I'.histPos⟩
    exact Nat.lt_of_le_of_lt (by simp) I.lineLt
  | interrupted hsh =>
    have I' := I.puts hsh
    have J := I'.idle
    exact ⟨⟨⟨J.outFile, J.inFile, J.pipeReader, J.pipeWriter, J.pipeWriting⟩, List.not_mem_nil,
      I'.history⟩, { I'.sound with }, nil_lineLt, I'.historyLe, I'.histPos⟩
  | recalled ht =>
    obtain ⟨u, hu, ht⟩ := Option.bind_eq_some_iff.mp ht
    exact (I.erase hu).1.fetch ht
  | left ht =>
    have I' := (I.erase ht).1
    exact ⟨⟨I'.idle, I'.line, I'.history⟩, I'.sound, I'.lineLt, I'.historyLe, le_rfl⟩
  | letter hprint hsh =>
    have I' := I.puts hsh
    have hroom := letter_room hprint h
    refine ⟨⟨I'.idle, fun hm => ?_, I'.history⟩, I'.sound, ?_, I'.historyLe, I'.histPos⟩
    · rcases List.mem_append.mp hm with hm | hm
      · exact I.line hm
      · exact char_ne_nul hprint (List.mem_singleton.mp hm)
    · rw [Sum.elim_inl, id, List.length_append, List.length_singleton]
      omega

theorem addHistory_length (history : List (Option (List Char))) (copy : Option (List Char))
    (h : history.length ≤ HIST_MAX) : (addHistory history copy).length ≤ HIST_MAX := by
  rw [addHistory]
  split
  · rw [List.length_append]
    assumption
  · have hmax : 0 < HIST_MAX := by decide
    rw [List.length_append, List.length_drop, List.length_singleton]
    omega

theorem Live.submit (I : s.Live) : s.submit.2.Sound := by
  have hreq := I.sound.sane.kmalloc (n := s.line.length + 1)
    (Nat.le_trans (Nat.succ_le_of_lt I.lineLt) (by decide))
  have hram : s.submit.2.vfs.ram = (s.sh.vfs.ram.kmalloc (s.line.length + 1)).2 := by
    change (strdup s.line s.sh.vfs.ram).2 = _
    rw [strdup]
    split
    · rename_i hk
      rw [hk]
    · rename_i hk
      rw [hk]
  have hsane := (Vfs.allocates_preserving I.sound.sane hreq)
  have hvfs : s.submit.2 = { s.sh with vfs := { s.sh.vfs with ram :=
      (s.sh.vfs.ram.kmalloc (s.line.length + 1)).2 } } := by
    rw [← hram]
    rfl
  rw [hvfs]
  exact I.sound.setVfs hsane.1 hsane.2

theorem Live.returned (I : s.Live) {commands : Commands}
    (hcmd : Shell.Obeys commands (fun _ => True) Vfs.FsCalls)
    (h : Session.returned commands rest n s = some t) : t.Live := by
  have A := I.toAtPrompt.returned h
  rw [Session.returned] at h
  split at h
  · obtain ⟨sh, hsh, rfl⟩ := Option.map_eq_some_iff.mp h
    have I' := I.puts hsh
    exact ⟨A.1, I'.sound, I'.lineLt, I'.historyLe, I'.histPos⟩
  split at h
  · obtain rfl := Option.some.inj h
    exact ⟨A.1, I.sound, nil_lineLt, I.historyLe, le_rfl⟩
  split at h
  · cases h
  · rename_i rc ran sh hexec
    obtain rfl := Option.some.inj h
    have P : Shell.Admits True s.line :=
      ⟨I.line, I.lineLt.trans (by decide), fun _ => trivial⟩
    have hany : ∀ text, Shell.Calls (fun _ => True) text := fun _ _ _ _ _ _ => trivial
    have L := (Shell.shellExecLine_spec I.line (fun _ _ t _ => hany t) hexec).2
    have hmoved := Shell.shellExecLine_moved Shell.terms_any hcmd I.submit P L hexec
    exact ⟨A.1, hmoved.sound Vfs.fsCalls_preserving I.submit, nil_lineLt,
      addHistory_length _ _ I.historyLe, le_rfl⟩

theorem Live.step (I : s.Live) {commands : Commands}
    (hcmd : Shell.Obeys commands (fun _ => True) Vfs.FsCalls)
    (h : Session.step commands rest s = some ((), t)) : t.Live := by
  rw [Session.step] at h
  split at h
  · cases h
  split at h
  · cases h
  rename_i c sh hc
  have hread : Live { s with sh } := by
    have S := I.sound
    have J := I.idle.routing (Shell.shGetc_routing hc)
    obtain ⟨_, _, _, rfl⟩ := Shell.shGetc_cases hc
    exact I.setShell { S with } J
  split at h
  · cases h
  · rename_i u hu
    obtain ⟨-, rfl⟩ := Prod.mk.inj (Option.some.inj h)
    exact hread.readlineKey hu
  · rename_i n u hu
    obtain ⟨w, hw, he⟩ := Option.map_eq_some_iff.mp h
    obtain ⟨-, rfl⟩ := Prod.mk.inj he
    exact (hread.readlineKey hu).returned hcmd hw

theorem start_live {vfs : Vfs} (hb : Booted vfs) (keys : Nat → Int) : (start vfs keys).Live where
  toAtPrompt := start_atPrompt vfs keys
  sound := ⟨⟨hb.wf, hb.heapOk, hb.total_le⟩, fun _ h => (by cases h),
    fun _ h => (by cases h), fun _ => Nat.zero_le _⟩
  lineLt := nil_lineLt
  historyLe := Nat.zero_le _
  histPos := le_rfl

end Session

namespace Session

/-! ## The keys that do not return -/

/-- The key brings back an entry of the history whose copy was refused. -/
def RecallsNull (s : Session) : Prop :=
  ∃ i, s.recalled s.answer = some i ∧ s.history[i]? = some none

/-- The line that the key enters does not return. -/
def LineFaults (commands : Commands) (rest : List Char) (s : Session) : Prop :=
  ∃ t, s.entered = some t ∧ shellExecLine commands (t.line ++ NUL :: rest) t.submit.2 = none

variable {s : Session} {c n : Int} {rest : List Char} {commands : Commands} {i : Nat}

theorem AtPrompt.puts_some (P : s.AtPrompt) (m : List Char) : ∃ sh, s.sh.shPuts m = some sh :=
  ⟨_, shPuts_console P.idle.outFile P.idle.pipeWriting m⟩

theorem AtPrompt.key (P : s.AtPrompt) : AtPrompt { s with sh := s.sh.keyboardGet.2 } :=
  ⟨⟨P.idle.outFile, P.idle.inFile, P.idle.pipeReader, P.idle.pipeWriter, P.idle.pipeWriting⟩,
    P.line, P.history⟩

/-- The two keys that recall an entry, and the entries there are. -/
theorem recalled_lt (hpos : s.histPos ≤ s.history.length) (h : s.recalled c = some i) :
    (c = KB_KEY_UP ∨ c = KB_KEY_DOWN) ∧ i < s.history.length := by
  rw [recalled] at h
  split at h
  · rename_i hc
    split at h
    · rename_i hhist
      obtain rfl := Option.some.inj h
      exact ⟨.inl hc, by omega⟩
    · cases h
  split at h
  · rename_i hc
    split at h
    · rename_i hhist
      obtain rfl := Option.some.inj h
      exact ⟨.inr hc, hhist⟩
    · cases h
  · cases h

theorem readlineKey_recalled (hc : c = KB_KEY_UP ∨ c = KB_KEY_DOWN) (h : s.recalled c = some i) :
    readlineKey c s = (s.erase.bind fun s => s.fetch i).map .inl := by
  rcases hc with rfl | rfl
  · rw [readlineKey, if_neg (by decide), if_neg (by decide), if_neg (by decide), if_neg (by decide),
      if_neg (by decide), if_pos rfl, h]
  · rw [readlineKey, if_neg (by decide), if_neg (by decide), if_neg (by decide), if_neg (by decide),
      if_neg (by decide), if_neg (by decide), if_pos rfl, h]

theorem AtPrompt.eraseFetch_none (P : s.AtPrompt) (hi : i < s.history.length) :
    (s.erase.bind fun s => s.fetch i) = none ↔ s.history[i]? = some none := by
  obtain ⟨sh, hsh⟩ := P.puts_some (List.replicate s.line.length rubout).flatten
  have herase : s.erase = some { s with sh, line := [] } := by
    rw [Session.erase, hsh, Option.map_some]
  have hstays := P.erase herase
  rw [herase, Option.bind_some, Session.fetch]
  cases he : s.history[i]? with
  | none => exact absurd (List.getElem?_eq_none_iff.mp he) (Nat.not_le.mpr hi)
  | some entry =>
    cases entry with
    | none => exact iff_of_true rfl rfl
    | some text =>
      obtain ⟨sh', hsh'⟩ := hstays.puts_some (text.take (LINE_MAX - 1))
      refine iff_of_false ?_ (by simp)
      simp [hsh']

/-- A key that recalls nothing is taken. -/
theorem AtPrompt.readlineKey_isSome (P : s.AtPrompt) (h : s.recalled c = none) :
    (Session.readlineKey c s).isSome := by
  have hputs := shPuts_console P.idle.outFile P.idle.pipeWriting
  rw [Session.readlineKey, h, Session.erase]
  simp only [hputs]
  split_ifs <;> rfl

/-- `sh_readline` goes wrong for an entry that is null, and for nothing else. -/
theorem AtPrompt.readlineKey_none (P : s.AtPrompt) (hpos : s.histPos ≤ s.history.length) :
    Session.readlineKey c s = none ↔ ∃ i, s.recalled c = some i ∧ s.history[i]? = some none := by
  cases h : s.recalled c with
  | none =>
    have hsome := P.readlineKey_isSome h
    refine iff_of_false (fun hnone => ?_) ?_
    · rw [hnone] at hsome
      cases hsome
    · rintro ⟨i, hi, -⟩
      cases hi
  | some i =>
    obtain ⟨hc, hi⟩ := recalled_lt hpos h
    rw [readlineKey_recalled hc h, Option.map_eq_none_iff, P.eraseFetch_none hi]
    simp

theorem AtPrompt.returned_none (P : s.AtPrompt) :
    Session.returned commands rest n s = none ↔
      0 < n ∧ shellExecLine commands (s.line ++ NUL :: rest) s.submit.2 = none := by
  obtain ⟨sh, hsh⟩ := P.puts_some ['\n']
  have hnul : s.line.head? ≠ some NUL := fun h => P.line (List.mem_of_mem_head? h)
  rw [Session.returned]
  rcases lt_trichotomy n 0 with hn | rfl | hn
  · rw [if_pos hn, hsh]
    exact iff_of_false (by simp) fun h => absurd h.1 (not_lt.mpr hn.le)
  · rw [if_neg (by decide), if_pos (.inl rfl)]
    exact iff_of_false (by simp) fun h => absurd h.1 (lt_irrefl 0)
  · rw [if_neg (not_lt.mpr hn.le), if_neg (not_or.mpr ⟨hn.ne', hnul⟩), and_iff_right hn]
    cases shellExecLine commands (s.line ++ NUL :: rest) s.submit.2 with
    | none => exact iff_of_true rfl rfl
    | some r => exact iff_of_false (by simp) (by simp)

/-- The line is entered by Enter, when there is one. -/
theorem AtPrompt.entered_eq (P : s.AtPrompt) : s.entered =
    if isEnter s.answer ∧ s.line ≠ [] then
      (s.sh.keyboardGet.2.shPuts ['\n']).map fun sh => { s with sh }
    else none := by
  have hnul : s.line.head? ≠ some NUL := fun h => P.line (List.mem_of_mem_head? h)
  rw [entered, P.idle.getc]
  simp only [hnul, ne_eq, not_false_eq_true, and_true]
  rfl

theorem readlineKey_enter (h : isEnter c = true) : readlineKey c s =
    (s.sh.shPuts ['\n']).map fun sh => .inr (s.line.length, { s with sh }) := by
  have hneg : ¬ c < 0 := fun hc => by
    rcases of_decide_eq_true h with rfl | rfl
    · exact absurd hc (by decide)
    · exact absurd hc (by decide)
  rw [readlineKey, if_neg hneg, if_pos h]

/-- A key is a round of `sh_readline`, and the line behind it if that is how the round ends. -/
theorem step_round (h : ¬ s.ended = true) : Session.step commands rest s =
    s.round.bind (Sum.elim (fun t => some ((), t)) fun r =>
      (Session.returned commands rest r.1 r.2).map fun t => ((), t)) := by
  rw [Session.step, if_neg h, round]
  cases s.sh.shGetc with
  | none => rfl
  | some g =>
    rw [Option.bind_some]
    simp only
    cases Session.readlineKey g.1 { s with sh := g.2 } with
    | none => rfl
    | some r => cases r <;> rfl

/-- A key does not return if the session has ended, if it recalls a null pointer, or if it enters a
line that does not return. -/
theorem Live.step_none (I : s.Live) : Session.step commands rest s = none ↔
    s.ended = true ∨ s.RecallsNull ∨ s.LineFaults commands rest := by
  have P := I.toAtPrompt
  have hkey : Session.readlineKey s.answer { s with sh := s.sh.keyboardGet.2 } = none ↔
      s.RecallsNull := P.key.readlineKey_none I.histPos
  by_cases hended : s.ended = true
  · rw [Session.step, if_pos hended]
    exact iff_of_true rfl (.inl hended)
  have hround : s.round = Session.readlineKey s.answer { s with sh := s.sh.keyboardGet.2 } :=
    round_eq P
  rw [step_round hended, hround, or_iff_right hended, ← hkey]
  by_cases henter : isEnter s.answer = true
  · -- the line comes back from `sh_readline`
    obtain ⟨sh, hsh⟩ := P.key.puts_some ['\n']
    have hentered := P.entered_eq
    rw [readlineKey_enter henter, hsh, LineFaults, hentered, hsh]
    simp only [Option.map_some, Option.bind_some, Sum.elim_inr, reduceCtorEq, false_or,
      Option.map_eq_none_iff]
    rw [(P.key.puts hsh).returned_none]
    by_cases hline : s.line = []
    · rw [if_neg fun h => h.2 hline]
      refine iff_of_false (fun h => absurd h.1 ?_) fun h => ?_
      · simp [hline]
      · obtain ⟨t, ht, -⟩ := h
        cases ht
    · rw [if_pos ⟨henter, hline⟩]
      have hlen : (0 : Int) < s.line.length := by
        rw [Int.natCast_pos]
        exact List.length_pos_iff.mpr hline
      rw [and_iff_right hlen]
      simp
  · have hfaults : ¬ s.LineFaults commands rest := by
      rintro ⟨t, ht, -⟩
      rw [P.entered_eq, if_neg fun h => henter h.1] at ht
      cases ht
    rw [or_iff_left hfaults]
    cases hr : Session.readlineKey s.answer { s with sh := s.sh.keyboardGet.2 } with
    | none => exact iff_of_true rfl rfl
    | some r =>
      refine iff_of_false ?_ (by simp)
      cases r with
      | inl t => simp
      | inr r =>
        obtain ⟨n, t⟩ := r
        have Pt : t.AtPrompt := by
          rcases P.key.readlineKey hr with ⟨he, -⟩ | ⟨_, _, he, -, S⟩ | ⟨_, he, -⟩
          · obtain ⟨-, rfl⟩ := Prod.mk.inj (Sum.inr.inj he)
            exact P.key
          · obtain ⟨-, rfl⟩ := Prod.mk.inj (Sum.inr.inj he)
            exact S.toAtPrompt
          · cases he
        have hle : ¬ 0 < n := by
          rcases (readlineKey_inr hr).2 with h | h | ⟨h, -⟩
          · exact not_lt.mpr h.le
          · exact h ▸ lt_irrefl n
          · exact absurd h henter
        rw [Option.bind_some, Sum.elim_inr, Option.map_eq_none_iff, Pt.returned_none]
        exact fun h => hle h.1

end Session

open Session in
/-- From the boot on, as long as every key returned: between two keys the tree is a tree and the
buffers of its files are apart and terminated, nothing is redirected, and the arrays of the line and
of the history are not overrun. The next key returns unless the session has ended, it recalls a null
pointer, or it enters a line that does not return. -/
theorem session_live {vfs : Vfs} (hb : Booted vfs) {keys : Nat → Int}
    {tr : List ((Env × List Char) × Unit)} {s : Session}
    (H : Run liveStep (start vfs keys) tr s) :
    s.Live ∧ ∀ a, liveStep a s = none ↔
      s.ended = true ∨ s.RecallsNull ∨ s.LineFaults (s.table a.1) a.2 := by
  have I : s.Live := H.inv (fun a _ s _ I h => I.step (s.table_obeys a.1) h) (start_live hb keys)
  exact ⟨I, fun a => I.step_none⟩

/-- `rm /etc/motd` and Enter. -/
def removeMotd : Nat → Int := typedKeys ("rm /etc/motd\n".toList.map fun c => (c.toNat : Int))

open Session in
/-- The file is gone behind the line, and the next key, a Ctrl-D, returns whatever comes with it. -/
theorem session_live_rm : ∃ tr s, Run liveStep (start bootVfs removeMotd) tr s ∧
    s.history = [some "rm /etc/motd".toList] ∧
      s.sh.vfs.vfsResolve "/etc/motd".toList = none ∧ s.Live ∧ ∀ a, liveStep a s ≠ none := by
  have h : (Trace.exec liveStep (List.replicate 13 (bootEnv, [])) (start bootVfs removeMotd)).any
      fun r => r.2.history = [some "rm /etc/motd".toList] ∧
        r.2.sh.vfs.vfsResolve "/etc/motd".toList = none ∧ r.2.ended = false ∧ r.2.answer = -1 := by
    rw [bootVfs_spelled]
    decide +kernel
  obtain ⟨⟨tr, s⟩, hs, hhist, hgone, hended, hanswer⟩ := exists_of_any h
  have H := Run.of_exec _ hs
  obtain ⟨I, hnext⟩ := session_live bootVfs_booted H
  refine ⟨tr, s, H, hhist, hgone, I, fun a => ?_⟩
  rw [Ne, hnext, not_or, not_or]
  refine ⟨Bool.eq_false_iff.mp hended, ?_, ?_⟩
  · rintro ⟨i, hi, -⟩
    have hc := (recalled_lt I.histPos hi).1
    rw [hanswer] at hc
    exact absurd hc (by decide)
  · rintro ⟨t, ht, -⟩
    rw [I.toAtPrompt.entered_eq, hanswer, if_neg fun h => absurd h.1 (by decide)] at ht
    cases ht

end BojanOS
