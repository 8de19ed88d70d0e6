import BojanOS.Shell.Operators

/-!
# The calls of a line

Every command of a line starts with the redirections of its own stage (`Call.Own`), and no command
changes them. Behind the line nothing is redirected (`Idle`).
-/

namespace BojanOS

/-! ## Frames -/

namespace Shell

/-- What `apply_redirs` leaves alone. -/
structure SamePlumbing (σ σ' : Shell) : Prop where
  pipeWriting : σ'.pipeWriting = σ.pipeWriting
  pipeReader : σ'.pipeReader = σ.pipeReader
  pipeWriter : σ'.pipeWriter = σ.pipeWriter
  lastExit : σ'.lastExit = σ.lastExit
  calls : σ'.calls = σ.calls

/-- What a command leaves alone. -/
structure SameRouting (σ σ' : Shell) : Prop extends SamePlumbing σ σ' where
  outFile : σ'.outFile = σ.outFile
  inFile : σ'.inFile = σ.inFile

variable {σ σ' τ : Shell}

theorem SamePlumbing.refl : SamePlumbing σ σ := ⟨rfl, rfl, rfl, rfl, rfl⟩

theorem SamePlumbing.trans (H : SamePlumbing σ σ') (H' : SamePlumbing σ' τ) : SamePlumbing σ τ where
  pipeWriting := H'.pipeWriting.trans H.pipeWriting
  pipeReader := H'.pipeReader.trans H.pipeReader
  pipeWriter := H'.pipeWriter.trans H.pipeWriter
  lastExit := H'.lastExit.trans H.lastExit
  calls := H'.calls.trans H.calls

theorem SameRouting.refl : SameRouting σ σ := ⟨.refl, rfl, rfl⟩

theorem SameRouting.trans (H : SameRouting σ σ') (H' : SameRouting σ' τ) : SameRouting σ τ where
  toSamePlumbing := H.toSamePlumbing.trans H'.toSamePlumbing
  outFile := H'.outFile.trans H.outFile
  inFile := H'.inFile.trans H.inFile

theorem outRaw_routing {c : Char} (h : σ.outRaw c = some σ') : SameRouting σ σ' := by
  rw [outRaw] at h
  split at h
  · obtain rfl := Option.some.inj h
    exact ⟨⟨rfl, rfl, rfl, rfl, rfl⟩, rfl, rfl⟩
  split at h
  · rw [pipeWriterAdd] at h
    split at h
    · obtain rfl := Option.some.inj h
      exact .refl
    simp only at h
    split at h
    · obtain rfl := Option.some.inj h
      exact .refl
    split at h
    · obtain rfl := Option.some.inj h
      exact ⟨⟨rfl, rfl, rfl, rfl, rfl⟩, rfl, rfl⟩
    · cases h
  · obtain rfl := Option.some.inj h
    exact ⟨⟨rfl, rfl, rfl, rfl, rfl⟩, rfl, rfl⟩

theorem shGetc_routing {c : Int} (h : σ.shGetc = some (c, σ')) : SameRouting σ σ' := by
  rw [shGetc] at h
  split at h
  · split at h
    · obtain ⟨-, rfl⟩ := Prod.mk.inj (Option.some.inj h)
      exact .refl
    · obtain ⟨d, -, he⟩ := Option.map_eq_some_iff.mp h
      obtain ⟨-, rfl⟩ := Prod.mk.inj he
      exact ⟨⟨rfl, rfl, rfl, rfl, rfl⟩, rfl, rfl⟩
  split at h
  · split at h
    · obtain ⟨-, rfl⟩ := Prod.mk.inj (Option.some.inj h)
      exact .refl
    · obtain ⟨-, rfl⟩ := Prod.mk.inj (Option.some.inj h)
      exact ⟨⟨rfl, rfl, rfl, rfl, rfl⟩, rfl, rfl⟩
  · obtain ⟨-, rfl⟩ := Prod.mk.inj (Option.some.inj h)
    exact ⟨⟨rfl, rfl, rfl, rfl, rfl⟩, rfl, rfl⟩

theorem shPuts_routing {s : List Char} (h : σ.shPuts s = some σ') : SameRouting σ σ' := by
  induction s generalizing σ with
  | nil =>
    obtain rfl : σ = σ' := Option.some.inj h
    exact .refl
  | cons c s ih =>
    rw [shPuts, List.foldlM_cons] at h
    obtain ⟨σ₁, h₁, h⟩ := Option.bind_eq_some_iff.mp h
    exact (outRaw_routing h₁).trans (ih h)

end Shell

open Shell in
/-- A command does not change where it reads from and writes to. -/
theorem Prog.run_routing {α : Type} {p : Prog α} {σ σ' : Shell} {a : α}
    (h : p.run σ = some (a, σ')) : SameRouting σ σ' := by
  induction p generalizing σ with
  | ret b =>
    obtain ⟨-, rfl⟩ := Prod.mk.inj (Option.some.inj h)
    exact .refl
  | putc c k ih =>
    obtain ⟨σ₁, h₁, h⟩ := Option.bind_eq_some_iff.mp h
    exact (outRaw_routing h₁).trans (ih h)
  | getc k ih =>
    obtain ⟨⟨c, σ₁⟩, h₁, h⟩ := Option.bind_eq_some_iff.mp h
    exact (shGetc_routing h₁).trans (ih c h)
  | getVfs k ih => exact ih σ.vfs h
  | setVfs v k ih =>
    have hv : SameRouting σ { σ with vfs := v } := ⟨⟨rfl, rfl, rfl, rfl, rfl⟩, rfl, rfl⟩
    exact hv.trans (ih h)
  | fault => cases h

/-! ## Redirections -/

namespace Shell

variable {σ σ' : Shell} {cl : Cmdline (List Char)} {ok : Bool}

theorem refuse_spec {message : List Char} (h : σ.refuse message = some (ok, σ')) :
    ok = false ∧ SameRouting σ σ' := by
  obtain ⟨τ, hτ, he⟩ := Option.map_eq_some_iff.mp h
  obtain ⟨rfl, rfl⟩ := Prod.mk.inj he
  exact ⟨rfl, shPuts_routing hτ⟩

theorem redirOut_spec (h : redirOut cl σ = some (ok, σ')) :
    SamePlumbing σ σ' ∧ σ'.inFile = σ.inFile ∧ (ok = true →
      σ'.outFile = if cl.hasOut then σ'.vfs.vfsResolve cl.outFile else σ.outFile) := by
  rw [redirOut] at h
  split at h
  · rename_i ho
    obtain ⟨-, rfl⟩ := Prod.mk.inj (Option.some.inj h)
    exact ⟨.refl, rfl, fun _ => (if_neg ho).symm⟩
  rename_i ho
  split at h
  · cases h
  split at h
  · cases h
  · obtain ⟨rfl, H⟩ := refuse_spec h
    exact ⟨⟨H.pipeWriting, H.pipeReader, H.pipeWriter, H.lastExit, H.calls⟩, H.inFile,
      fun h => by cases h⟩
  · rename_i v hopen
    simp only at h
    split at h
    · obtain ⟨rfl, H⟩ := refuse_spec h
      exact ⟨⟨H.pipeWriting, H.pipeReader, H.pipeWriter, H.lastExit, H.calls⟩, H.inFile,
        fun h => by cases h⟩
    · rename_i f hf
      split at h
      · obtain ⟨rfl, H⟩ := refuse_spec h
        exact ⟨⟨H.pipeWriting, H.pipeReader, H.pipeWriter, H.lastExit, H.calls⟩, H.inFile,
          fun h => by cases h⟩
      · obtain ⟨rfl, rfl⟩ := Prod.mk.inj (Option.some.inj h)
        refine ⟨⟨rfl, rfl, rfl, rfl, rfl⟩, rfl, fun _ => ?_⟩
        rw [if_pos (not_not.mp ho)]
        -- truncating the file does not move it
        have hsame : (if cl.outAppend then v else v.vfsTruncate f).vfsResolve cl.outFile =
            v.vfsResolve cl.outFile := by
          split
          · rfl
          · exact (Vfs.vfsTruncate_sameTree v f).vfsResolve cl.outFile
        exact (hsame.trans hf).symm

theorem redirIn_spec (h : redirIn cl σ = some (ok, σ')) : SamePlumbing σ σ' ∧ (ok = true →
    σ'.vfs = σ.vfs ∧ σ'.outFile = σ.outFile ∧
      σ'.inFile = if cl.hasIn then σ'.vfs.vfsResolve cl.inFile else σ.inFile) := by
  rw [redirIn] at h
  split at h
  · rename_i hi
    obtain ⟨-, rfl⟩ := Prod.mk.inj (Option.some.inj h)
    exact ⟨.refl, fun _ => ⟨rfl, rfl, (if_neg hi).symm⟩⟩
  rename_i hi
  split at h
  · cases h
  simp only at h
  split at h
  · obtain ⟨rfl, H⟩ := refuse_spec h
    exact ⟨H.toSamePlumbing, fun h => by cases h⟩
  · rename_i f hf
    split at h
    · obtain ⟨rfl, H⟩ := refuse_spec h
      exact ⟨H.toSamePlumbing, fun h => by cases h⟩
    · obtain ⟨rfl, rfl⟩ := Prod.mk.inj (Option.some.inj h)
      refine ⟨⟨rfl, rfl, rfl, rfl, rfl⟩, fun _ => ⟨rfl, rfl, ?_⟩⟩
      rw [if_pos (not_not.mp hi)]
      exact hf.symm

theorem applyRedirs_spec (h : applyRedirs cl σ = some (ok, σ')) : SamePlumbing σ σ' ∧ (ok = true →
    (σ'.outFile = if cl.hasOut then σ'.vfs.vfsResolve cl.outFile else none) ∧
      σ'.inFile = if cl.hasIn then σ'.vfs.vfsResolve cl.inFile else none) := by
  rw [applyRedirs] at h
  have h0 : SamePlumbing σ { σ with outFile := none, inFile := none, inOff := 0 } :=
    ⟨rfl, rfl, rfl, rfl, rfl⟩
  split at h
  · cases h
  · rename_i τ hout
    obtain ⟨rfl, rfl⟩ := Prod.mk.inj (Option.some.inj h)
    exact ⟨h0.trans (redirOut_spec hout).1, fun h => by cases h⟩
  · rename_i τ hout
    obtain ⟨H, hin, ho⟩ := redirOut_spec hout
    obtain ⟨H', hi⟩ := redirIn_spec h
    refine ⟨(h0.trans H).trans H', fun hok => ?_⟩
    obtain ⟨hv, hout', hin'⟩ := hi hok
    refine ⟨?_, ?_⟩
    · rw [hout', hv]
      exact ho rfl
    · rw [hin', hin]

end Shell

/-! ## Stages -/

/-- The redirections in force are those of the stage. -/
def Call.Own (c : Call) : Prop := c.outFile = c.ownOut ∧ c.inFile = c.ownIn

/-- The calls that a stage can make. -/
structure Call.Of (code : Fin 256) (text : List Char) (ram : Ram) (doPipe : Bool) (c : Call) :
    Prop where
  own : c.Own
  argv : ∃ cl ram', parseInPlace code text ram = some (cl, ram') ∧ c.argv = cl.items
  pipeWriting : c.pipeWriting = doPipe

namespace Shell

/-- The calls between the two states, all of them with the property. -/
def Logs (P : Call → Prop) (σ σ' : Shell) : Prop :=
  ∃ new, σ'.calls = σ.calls ++ new ∧ ∀ c ∈ new, P c

variable {P : Call → Prop} {commands : Commands} {σ σ' τ : Shell} {text : List Char} {doPipe : Bool}
  {rc : Int}

theorem Logs.refl (h : σ'.calls = σ.calls) : Logs P σ σ' := ⟨[], by simp [h], by simp⟩

theorem Logs.trans (H : Logs P σ σ') (H' : Logs P σ' τ) : Logs P σ τ := by
  obtain ⟨new, he, hP⟩ := H
  obtain ⟨new', he', hP'⟩ := H'
  refine ⟨new ++ new', by rw [he', he, List.append_assoc], fun c hc => ?_⟩
  rcases List.mem_append.mp hc with hc | hc
  · exact hP c hc
  · exact hP' c hc

theorem runCmdline_spec {cl : Cmdline (List Char)}
    (h : σ.runCmdline commands cl doPipe = some (rc, σ')) :
    σ'.lastExit = σ.lastExit ∧ σ'.pipeReader = σ.pipeReader ∧
      (σ'.calls = σ.calls ∨ ∃ c, σ'.calls = σ.calls ++ [c] ∧ c.Own ∧ c.argv = cl.items ∧
        c.pipeWriting = doPipe) := by
  rw [runCmdline] at h
  split at h
  · obtain ⟨-, rfl⟩ := Prod.mk.inj (Option.some.inj h)
    exact ⟨rfl, rfl, .inl rfl⟩
  simp only at h
  -- the state that `apply_redirs` is called in
  obtain ⟨σ₀, hσ₀, h0⟩ : ∃ σ₀, (if doPipe = true then clearWriter { σ with pipeWriting := doPipe }
      else { σ with pipeWriting := doPipe }) = σ₀ ∧
        SamePlumbing { σ with pipeWriting := doPipe } σ₀ := by
    refine ⟨_, rfl, ?_⟩
    split
    · rw [clearWriter]
      split
      · exact .refl
      · exact ⟨rfl, rfl, rfl, rfl, rfl⟩
    · exact .refl
  rw [hσ₀] at h
  split at h
  · cases h
  · rename_i τ happ
    obtain ⟨-, rfl⟩ := Prod.mk.inj (Option.some.inj h)
    have H := h0.trans (applyRedirs_spec happ).1
    exact ⟨H.lastExit, H.pipeReader, .inl H.calls⟩
  · rename_i τ happ
    obtain ⟨H, hok⟩ := applyRedirs_spec happ
    obtain ⟨hout, hin⟩ := hok rfl
    have H := h0.trans H
    split at h
    · cases h
    · obtain ⟨⟨rc, υ⟩, hrun, he⟩ := Option.map_eq_some_iff.mp h
      obtain ⟨-, rfl⟩ := Prod.mk.inj he
      have R := Prog.run_routing hrun
      refine ⟨R.lastExit.trans H.lastExit, R.pipeReader.trans H.pipeReader, .inr ⟨_,
        R.calls.trans (congrArg (· ++ _) H.calls), ⟨hout, hin⟩, rfl, H.pipeWriting⟩⟩

theorem runText_spec (h : σ.runText commands text doPipe = some (rc, σ')) :
    σ'.lastExit = σ.lastExit ∧ σ'.pipeReader = σ.pipeReader ∧
      Logs (Call.Of σ.lastExit text σ.vfs.ram doPipe) σ σ' := by
  rw [runText] at h
  split at h
  · cases h
  · rename_i cl ram hp
    obtain ⟨hexit, hr, hcalls⟩ := runCmdline_spec h
    refine ⟨hexit, hr, ?_⟩
    rcases hcalls with hsame | ⟨c, hcalls, hown, hargv, hpipe⟩
    · exact .refl hsame
    · refine ⟨[c], hcalls, fun c' hc => ?_⟩
      obtain rfl := List.mem_singleton.mp hc
      exact ⟨hown, ⟨cl, ram, hp, hargv⟩, hpipe⟩

/-- All calls that the text of a stage can make have the property. -/
def Calls (P : Call → Prop) (text : List Char) : Prop :=
  ∀ code ram doPipe c, Call.Of code text ram doPipe c → P c

theorem runText_logs (hP : Calls P text) (h : σ.runText commands text doPipe = some (rc, σ')) :
    Logs P σ σ' := by
  obtain ⟨-, -, new, he, hc⟩ := runText_spec h
  exact ⟨new, he, fun c hm => hP _ _ _ c (hc c hm)⟩

theorem runStages_logs {texts : List (List Char)} {which : Bool} (hP : ∀ t ∈ texts, Calls P t)
    (h : σ.runStages commands texts which = some (rc, σ')) : Logs P σ σ' := by
  induction texts generalizing σ which with
  | nil =>
    obtain ⟨-, rfl⟩ := Prod.mk.inj (Option.some.inj h)
    exact .refl rfl
  | cons t ts ih =>
    have ht := hP t List.mem_cons_self
    cases ts with
    | nil =>
      rw [runStages] at h
      have h1 : Logs P { σ with pipeWriter := none } σ' := runText_logs ht h
      exact h1
    | cons t' ts =>
      rw [runStages] at h
      · split at h
        · cases h
        · rename_i rc' υ hr
          have h1 : Logs P { σ with pipeWriter := some which } υ := runText_logs ht hr
          have h2 : Logs P υ (υ.nextStage which) := .refl rfl
          have h3 := ih (fun t hm => hP t (List.mem_cons_of_mem _ hm)) h
          exact Logs.trans h1 (h2.trans h3)
      · simp

theorem pipesReady_calls (σ : Shell) : σ.pipesReady.calls = σ.calls := by
  have halloc : ∀ (σ : Shell) (i : Bool), (σ.allocPipe i).calls = σ.calls := by
    intro σ i
    unfold allocPipe
    split <;> rfl
  exact (halloc _ true).trans (halloc σ false)

/-- No redirection and no pipe is in force. -/
structure Idle (σ : Shell) : Prop where
  outFile : σ.outFile = none
  inFile : σ.inFile = none
  pipeReader : σ.pipeReader = none
  pipeWriter : σ.pipeWriter = none
  pipeWriting : σ.pipeWriting = false

theorem runPipeline_spec (hP : ∀ t ∈ stages text, Calls P t)
    (h : σ.runPipeline commands text = some (rc, σ')) : σ'.Idle ∧ Logs P σ σ' := by
  obtain ⟨⟨rc, τ⟩, hr, he⟩ := Option.map_eq_some_iff.mp h
  obtain ⟨-, rfl⟩ := Prod.mk.inj he
  have h0 : Logs P σ σ.pipesReady := .refl (pipesReady_calls σ)
  have h1 : Logs P τ τ.pipesDone := .refl rfl
  exact ⟨⟨rfl, rfl, rfl, rfl, rfl⟩, (h0.trans (runStages_logs hP hr)).trans h1⟩

/-! ## Lines -/

/-- From an idle state, a line ends in one. -/
theorem runSegments_spec {segs : List Segment} {ran : List Nat} {k : Nat} {rc₀ : Int}
    (hP : ∀ seg ∈ segs, ∀ t ∈ stages seg.text, Calls P t)
    (h : σ.runSegments commands segs rc₀ k = some (rc, ran, σ')) :
    (σ.Idle → σ'.Idle) ∧ Logs P σ σ' := by
  induction segs generalizing σ rc₀ rc k ran with
  | nil =>
    obtain ⟨-, -, rfl⟩ : rc₀ = rc ∧ [] = ran ∧ σ = σ' := by simpa [runSegments] using h
    exact ⟨id, .refl rfl⟩
  | cons seg segs ih =>
    have hseg := hP seg List.mem_cons_self
    have hrest : ∀ seg ∈ segs, ∀ t ∈ stages seg.text, Calls P t :=
      fun seg hm => hP seg (List.mem_cons_of_mem _ hm)
    have hidle : ∀ (σ : Shell) (rc : Int), σ.Idle → (σ.shSetExit rc).Idle :=
      fun σ rc h => ⟨h.outFile, h.inFile, h.pipeReader, h.pipeWriter, h.pipeWriting⟩
    have hset : ∀ (σ : Shell) (rc : Int), Logs P σ (σ.shSetExit rc) := fun σ rc => .refl rfl
    rw [runSegments] at h
    split at h
    · exact ih hrest h
    split at h
    · split at h
      · cases h
      · rename_i rc₁ σ₁ hr
        obtain ⟨h1, hl1⟩ := runPipeline_spec hseg hr
        have hl2 := hl1.trans (hset σ₁ rc₁)
        split at h
        · obtain ⟨-, -, rfl⟩ : rc₁ = rc ∧ [k] = ran ∧ σ₁.shSetExit rc₁ = σ' := by simpa using h
          exact ⟨fun _ => hidle σ₁ rc₁ h1, hl2⟩
        · obtain ⟨⟨rc', ran', τ⟩, hrec, he⟩ := Option.map_eq_some_iff.mp h
          obtain ⟨-, -, rfl⟩ : rc' = rc ∧ k :: ran' = ran ∧ τ = σ' := by simpa using he
          obtain ⟨h3, hl3⟩ := ih hrest hrec
          exact ⟨fun _ => h3 (hidle σ₁ rc₁ h1), hl2.trans hl3⟩
    · obtain ⟨h2, hl2⟩ := ih hrest h
      exact ⟨fun h0 => h2 (hidle σ rc₀ h0), (hset σ rc₀).trans hl2⟩

theorem shellExecLine_spec {T : List Char} {ran : List Nat} (hnul : NUL ∉ text)
    (hP : ∀ seg ∈ segmentsFrom [] (text.dropWhile isBlank), ∀ t ∈ stages seg.text, Calls P t)
    (h : shellExecLine commands (text ++ NUL :: T) σ = some (rc, ran, σ')) :
    (σ.Idle → σ'.Idle) ∧ Logs P σ σ' := by
  rw [shellExecLine_text commands T σ hnul, runLine] at h
  split at h
  · obtain ⟨-, -, rfl⟩ : 0 = rc ∧ [] = ran ∧ σ = σ' := by simpa using h
    exact ⟨id, .refl rfl⟩
  · rename_i c s hd
    rw [hd] at hP
    split at h
    · obtain ⟨-, -, rfl⟩ : 0 = rc ∧ [] = ran ∧ σ = σ' := by simpa using h
      exact ⟨id, .refl rfl⟩
    · exact runSegments_spec hP h

end Shell

open Shell in
/-- Behind a line nothing is redirected, each of its commands started with the redirections of its
own stage, and a command that runs does not change them. -/
theorem shellExecLine_idle {commands : Commands} {σ σ' : Shell} {text T : List Char} {rc : Int}
    {ran : List Nat} (h0 : σ.Idle) (hnul : NUL ∉ text)
    (h : shellExecLine commands (text ++ NUL :: T) σ = some (rc, ran, σ')) :
    σ'.Idle ∧ Logs Call.Own σ σ' ∧ ∀ (p : Prog Int) (τ τ' : Shell) (a : Int),
      p.run τ = some (a, τ') → τ'.outFile = τ.outFile ∧ τ'.inFile = τ.inFile := by
  have hP : ∀ text, Calls Call.Own text := fun _ _ _ _ _ hc => hc.own
  obtain ⟨hidle, hlogs⟩ := shellExecLine_spec hnul (fun _ _ t _ => hP t) h
  refine ⟨hidle h0, hlogs, fun p τ τ' a hr => ?_⟩
  exact ⟨(Prog.run_routing hr).outFile, (Prog.run_routing hr).inFile⟩

theorem bootShell_idle : bootShell.Idle := ⟨rfl, rfl, rfl, rfl, rfl⟩

def redirectedLine : List Char := "true > f | false < f ; nosuch < g".toList

open Shell in
/-- A line with redirections, a pipe, an input file that is missing and an unknown command. -/
theorem redirectedLine_idle : ∃ rc ran σ',
    shellExecLine exitCommands (redirectedLine ++ NUL :: []) bootShell = some (rc, ran, σ') ∧
      σ'.Idle ∧ Logs Call.Own bootShell σ' ∧ ∀ (p : Prog Int) (τ τ' : Shell) (a : Int),
        p.run τ = some (a, τ') → τ'.outFile = τ.outFile ∧ τ'.inFile = τ.inFile := by
  have hret : (shellExecLine exitCommands (redirectedLine ++ NUL :: []) bootShell).isSome := by
    rw [bootShell_spelled]
    decide +kernel
  obtain ⟨⟨rc, ran, σ'⟩, h⟩ := Option.isSome_iff_exists.mp hret
  have hnul : NUL ∉ redirectedLine := by decide
  exact ⟨rc, ran, σ', h, shellExecLine_idle bootShell_idle hnul h⟩

end BojanOS
