import BojanOS.Shell.Operators

/-!
# What a pipeline computes

A command is read as a function of its input: `denote` gives its status, what it emits and what it
leaves of the input. A pipeline is the composition of its commands (`pipeDenote`), each reading
what the one before it emitted, as far as it went through the pipe.
-/

namespace BojanOS

/-- Where `sh_getc` reads: the keyboard, or the bytes that are left in a pipe. -/
inductive Source where
  | keys (keys : Nat → Int)
  | bytes (rest : List Char)

/-- The answer of `sh_getc`. -/
def Source.next : Source → Int × Source
  | keys k => (if k 0 = KB_CTRL_D ∨ k 0 < 0 then -1 else if k 0 = KB_CTRL_C then -1 else k 0,
      keys fun i => k (i + 1))
  | bytes [] => (-1, bytes [])
  | bytes (c :: s) => (c.toNat, bytes s)

/-- The result of a command, what it emits, and the input and the filesystem it leaves. -/
def Prog.denote {α : Type} : Prog α → Source → Vfs → Option (α × List Char × Source × Vfs)
  | ret a, src, v => some (a, [], src, v)
  | putc c k, src, v => (k.denote src v).map fun (a, out, r) => (a, c :: out, r)
  | getc k, src, v => (k src.next.1).denote src.next.2 v
  | getVfs k, src, v => (k v).denote src v
  | setVfs v k, src, _ => k.denote src v
  | fault, _, _ => none

/-- The command of a stage; a 32nd word does not fit `argv`. -/
def stageDenote (commands : Commands) (code : Fin 256) (text : List Char) (src : Source) (v : Vfs) :
    Option (Int × List Char × Source × Vfs) :=
  match parseInPlace code text v.ram with
  | none => none
  | some (cl, ram) =>
    if cl.items = [] then some (0, [], src, { v with ram })
    else if ARGV_MAX ≤ cl.items.length then none
    else (shellRunBuiltin commands cl.items).denote src { v with ram }

/-- The stages one after the other, `pass` being what a pipe lets through. The result is the status
and the output of the last stage. -/
def pipeDenote (commands : Commands) (code : Fin 256) (pass : List Char → List Char) :
    List (List Char) → Source → Vfs → Option (Int × List Char × Vfs)
  | [], _, v => some (0, [], v)
  | [text], src, v => (stageDenote commands code text src v).map fun (rc, out, _, v) => (rc, out, v)
  | text :: rest, src, v =>
    match stageDenote commands code text src v with
    | none => none
    | some (_, out, _, v) => pipeDenote commands code pass rest (.bytes (pass out)) v

/-- A stage without redirections. -/
def NoRedirs (code : Fin 256) (text : List Char) : Prop :=
  ∀ ram cl ram', parseInPlace code text ram = some (cl, ram') → cl.hasOut = false ∧ cl.hasIn = false

namespace Shell

/-- What `sh_getc` reads when there is no `in_file`. -/
def source (σ : Shell) : Source :=
  match σ.pipeReader with
  | none => .keys σ.keys
  | some r => .bytes ((σ.pipes r).bytes.drop σ.pipeInOff)

/-- No redirections, and a pipe to write to if the stage is not the last one. -/
structure Open (σ : Shell) : Prop where
  outFile : σ.outFile = none
  inFile : σ.inFile = none
  writer : σ.pipeWriting = true → ∃ w, σ.pipeWriter = some w ∧ σ.pipeReader ≠ some w ∧
    (σ.pipes w).alloc = true ∧ (σ.pipes w).bytes.length ≤ PIPE_MAX

/-- What a command changes: it emits `out`. -/
structure After (σ σ' : Shell) (out : List Char) : Prop where
  outFile : σ'.outFile = σ.outFile
  inFile : σ'.inFile = σ.inFile
  pipeWriting : σ'.pipeWriting = σ.pipeWriting
  pipeWriter : σ'.pipeWriter = σ.pipeWriter
  pipeReader : σ'.pipeReader = σ.pipeReader
  lastExit : σ'.lastExit = σ.lastExit
  alloc : ∀ i, (σ'.pipes i).alloc = (σ.pipes i).alloc
  console : σ'.console = if σ.pipeWriting then σ.console else σ.console ++ out
  written : ∀ w, σ.pipeWriting = true → σ.pipeWriter = some w →
    (σ'.pipes w).bytes = ((σ.pipes w).bytes ++ out).take PIPE_MAX

variable {σ σ' τ : Shell} {out : List Char}

theorem source_none (h : σ.pipeReader = none) : σ.source = .keys σ.keys := by
  rw [source, h]

theorem source_some {r : Bool} (h : σ.pipeReader = some r) :
    σ.source = .bytes ((σ.pipes r).bytes.drop σ.pipeInOff) := by
  rw [source, h]

/-- The pipe that is written is not the one that is read. -/
theorem source_update {w : Bool} (x : PipeStorage) (h : σ.pipeReader ≠ some w) :
    source { σ with pipes := Function.update σ.pipes w x } = σ.source := by
  simp only [source]
  split
  · rfl
  · rename_i r hr
    have hne : r ≠ w := fun he => h (he ▸ hr)
    rw [Function.update_of_ne hne]

theorem Open.getc (h : σ.Open) : ∃ σ', σ.shGetc = some (σ.source.next.1, σ') ∧
    σ'.source = σ.source.next.2 ∧ σ'.vfs = σ.vfs ∧ σ'.Open ∧
    ∀ τ out, After σ' τ out → After σ τ out := by
  unfold shGetc
  split
  · rename_i hf
    rw [h.inFile] at hf
    cases hf
  split
  · rename_i r hr
    rw [source_some hr]
    split
    · rename_i hb
      have hdrop : (σ.pipes r).bytes.drop σ.pipeInOff = [] :=
        List.drop_eq_nil_of_le (List.getElem?_eq_none_iff.mp hb)
      rw [hdrop]
      exact ⟨σ, rfl, by rw [source_some hr, hdrop]; rfl, rfl, h, fun _ _ A => A⟩
    · rename_i c hb
      have hdrop := List.drop_eq_getElem?_toList_append (l := (σ.pipes r).bytes) (i := σ.pipeInOff)
      rw [hb] at hdrop
      rw [hdrop]
      exact ⟨{ σ with pipeInOff := σ.pipeInOff + 1 }, rfl, source_some hr, rfl,
        ⟨h.outFile, h.inFile, h.writer⟩,
        fun τ out A => ⟨A.outFile, A.inFile, A.pipeWriting, A.pipeWriter, A.pipeReader, A.lastExit,
          A.alloc, A.console, A.written⟩⟩
  · rename_i hr
    rw [source_none hr]
    exact ⟨{ σ with keys := fun i => σ.keys (i + 1) }, rfl, source_none hr, rfl,
      ⟨h.outFile, h.inFile, h.writer⟩,
      fun τ out A => ⟨A.outFile, A.inFile, A.pipeWriting, A.pipeWriter, A.pipeReader, A.lastExit,
        A.alloc, A.console, A.written⟩⟩

/-- A byte on the console. -/
theorem Open.putc_console (h : σ.Open) (hw : σ.pipeWriting = false) (c : Char) :
    ∃ σ', σ.outRaw c = some σ' ∧ σ'.source = σ.source ∧ σ'.vfs = σ.vfs ∧ σ'.Open ∧
      ∀ τ out, After σ' τ out → After σ τ (c :: out) := by
  have hraw : σ.outRaw c = some { σ with console := σ.console ++ [c] } := by
    unfold outRaw
    split
    · rename_i hf
      rw [h.outFile] at hf
      cases hf
    · rw [if_neg (by simp [hw])]
  refine ⟨_, hraw, rfl, rfl, ⟨h.outFile, h.inFile, h.writer⟩, fun τ out A => ?_⟩
  refine ⟨A.outFile, A.inFile, A.pipeWriting, A.pipeWriter, A.pipeReader, A.lastExit, A.alloc,
    ?_, fun w hp => ?_⟩
  · have := A.console
    simpa [hw] using this
  · rw [hw] at hp
    cases hp

/-- A byte into the pipe, or dropped when the pipe is full. -/
theorem Open.putc_pipe (h : σ.Open) (hw : σ.pipeWriting = true) (c : Char) :
    ∃ σ', σ.outRaw c = some σ' ∧ σ'.source = σ.source ∧ σ'.vfs = σ.vfs ∧ σ'.Open ∧
      ∀ τ out, After σ' τ out → After σ τ (c :: out) := by
  obtain ⟨w, hpw, hr, halloc, hlen⟩ := h.writer hw
  have hraw : σ.outRaw c = if PIPE_MAX ≤ (σ.pipes w).bytes.length then some σ
      else some { σ with
        pipes := Function.update σ.pipes w { σ.pipes w with bytes := (σ.pipes w).bytes ++ [c] } } := by
    unfold outRaw pipeWriterAdd
    split
    · rename_i hf
      rw [h.outFile] at hf
      cases hf
    · rw [if_pos hw]
      split
      · rename_i hnone
        rw [hpw] at hnone
        cases hnone
      · rename_i w' hw'
        obtain rfl : w = w' := by simpa [hpw] using hw'
        simp only [halloc, if_true]
  rw [hraw]
  split
  · rename_i hfull
    refine ⟨σ, rfl, rfl, rfl, h, fun τ out A => { A with console := ?_, written := ?_ }⟩
    · have := A.console
      simpa [hw] using this
    · intro w' _ hw'
      obtain rfl : w = w' := by simpa [hpw] using hw'
      rw [A.written w hw hpw, List.take_append_of_le_length hfull,
        List.take_append_of_le_length hfull]
  · rename_i hroom
    refine ⟨_, rfl, source_update _ hr, rfl, ⟨h.outFile, h.inFile, ?_⟩, fun τ out A => ?_⟩
    · intro _
      refine ⟨w, hpw, hr, ?_, ?_⟩
      · simp only [Function.update_self, halloc]
      · simp only [Function.update_self, List.length_append, List.length_singleton]
        omega
    · refine ⟨A.outFile, A.inFile, A.pipeWriting, A.pipeWriter, A.pipeReader, A.lastExit,
        fun i => (A.alloc i).trans ?_, ?_, fun w' _ hw' => ?_⟩
      · rcases eq_or_ne i w with rfl | hi
        · simp only [Function.update_self]
        · simp only [Function.update_of_ne hi]
      · have := A.console
        simpa [hw] using this
      · obtain rfl : w = w' := by simpa [hpw] using hw'
        have := A.written w hw hpw
        simpa [List.append_assoc] using this

theorem Open.putc (h : σ.Open) (c : Char) : ∃ σ', σ.outRaw c = some σ' ∧
    σ'.source = σ.source ∧ σ'.vfs = σ.vfs ∧ σ'.Open ∧
    ∀ τ out, After σ' τ out → After σ τ (c :: out) := by
  cases hw : σ.pipeWriting with
  | false => exact h.putc_console hw c
  | true => exact h.putc_pipe hw c

theorem After.refl (h : σ.Open) : After σ σ [] := by
  refine ⟨rfl, rfl, rfl, rfl, rfl, rfl, fun _ => rfl, by simp, fun w hw hpw => ?_⟩
  obtain ⟨w', hpw', -, -, hlen⟩ := h.writer hw
  obtain rfl : w = w' := by simpa [hpw] using hpw'
  rw [List.append_nil, List.take_of_length_le hlen]

theorem After.setVfs {v : Vfs} (h : After { σ with vfs := v } τ out) : After σ τ out :=
  ⟨h.outFile, h.inFile, h.pipeWriting, h.pipeWriter, h.pipeReader, h.lastExit, h.alloc, h.console,
    h.written⟩

end Shell

open Shell in
/-- A command without redirections is what `denote` says. -/
theorem Prog.run_open {α : Type} (p : Prog α) {σ : Shell} (h : σ.Open) :
    match p.denote σ.source σ.vfs with
    | none => p.run σ = none
    | some (a, out, src, v) => ∃ σ', p.run σ = some (a, σ') ∧ After σ σ' out ∧
        σ'.source = src ∧ σ'.vfs = v := by
  induction p generalizing σ with
  | ret a => exact ⟨σ, rfl, .refl h, rfl, rfl⟩
  | putc c k ih =>
    obtain ⟨σ₁, hs, hsrc, hv, h₁, hafter⟩ := h.putc c
    have := ih h₁
    rw [hsrc, hv] at this
    rw [denote, run, hs]
    cases hd : k.denote σ.source σ.vfs with
    | none =>
      rw [hd] at this
      exact this
    | some r =>
      obtain ⟨a, out, src, v⟩ := r
      rw [hd] at this
      obtain ⟨σ', hr, A, hsrc', hv'⟩ := this
      exact ⟨σ', hr, hafter _ _ A, hsrc', hv'⟩
  | getc k ih =>
    obtain ⟨σ₁, hs, hsrc, hv, h₁, hafter⟩ := h.getc
    have := ih σ.source.next.1 h₁
    rw [hsrc, hv] at this
    rw [denote, run, hs]
    cases hd : (k σ.source.next.1).denote σ.source.next.2 σ.vfs with
    | none =>
      rw [hd] at this
      exact this
    | some r =>
      rw [hd] at this
      obtain ⟨σ', hr, A, hsrc', hv'⟩ := this
      exact ⟨σ', hr, hafter _ _ A, hsrc', hv'⟩
  | getVfs k ih => exact ih σ.vfs h
  | setVfs v k ih =>
    have h' : Open { σ with vfs := v } := ⟨h.outFile, h.inFile, h.writer⟩
    have := ih h'
    rw [denote, run]
    have hsrc : source { σ with vfs := v } = σ.source := rfl
    rw [hsrc] at this
    cases hd : k.denote σ.source v with
    | none =>
      rw [hd] at this
      exact this
    | some r =>
      rw [hd] at this
      obtain ⟨σ', hr, A, hsrc', hv'⟩ := this
      exact ⟨σ', hr, A.setVfs, hsrc', hv'⟩
  | fault => rfl

namespace Shell

variable {commands : Commands} {σ : Shell} {text : List Char} {doPipe : Bool}

/-- The state in which the command of a stage runs. -/
def stageStart (σ : Shell) (doPipe : Bool) (cl : Cmdline (List Char)) : Shell :=
  let σ := { σ with pipeWriting := doPipe }
  record { (if doPipe then σ.clearWriter else σ) with
    outFile := none, inFile := none, inOff := 0 } cl

theorem applyRedirs_plain {cl : Cmdline (List Char)} (ho : cl.hasOut = false) (hi : cl.hasIn = false)
    (σ : Shell) :
    applyRedirs cl σ = some (true, { σ with outFile := none, inFile := none, inOff := 0 }) := by
  simp [applyRedirs, redirOut, redirIn, ho, hi]

theorem runCmdline_plain {cl : Cmdline (List Char)} (ho : cl.hasOut = false) (hi : cl.hasIn = false)
    (hne : cl.items ≠ []) :
    σ.runCmdline commands cl doPipe =
      if ARGV_MAX ≤ cl.items.length then none
      else ((shellRunBuiltin commands cl.items).run (σ.stageStart doPipe cl)).map
        fun (rc, σ) => (rc, σ.restoreRedirs) := by
  rw [runCmdline, if_neg hne]
  simp only [applyRedirs_plain ho hi]
  rfl

/-- An empty pipe to write to, if the stage is not the last one. -/
def Writable (σ : Shell) (doPipe : Bool) : Prop :=
  doPipe = true → ∃ w, σ.pipeWriter = some w ∧ σ.pipeReader ≠ some w ∧ σ.pipes w = ⟨true, []⟩

theorem stageStart_spec (h : σ.Writable doPipe) (cl : Cmdline (List Char)) :
    (σ.stageStart doPipe cl).Open ∧ (σ.stageStart doPipe cl).source = σ.source ∧
      (σ.stageStart doPipe cl).vfs = σ.vfs ∧
      ∀ τ out, After (σ.stageStart doPipe cl) τ out →
        τ.lastExit = σ.lastExit ∧ (∀ i, (τ.pipes i).alloc = (σ.pipes i).alloc) ∧
        τ.console = (if doPipe then σ.console else σ.console ++ out) ∧
        ∀ w, doPipe = true → σ.pipeWriter = some w → (τ.pipes w).bytes = out.take PIPE_MAX := by
  cases doPipe with
  | false =>
    refine ⟨⟨rfl, rfl, fun h => by cases h⟩, rfl, rfl, fun τ out A => ?_⟩
    exact ⟨A.lastExit, A.alloc, A.console, fun w h => by cases h⟩
  | true =>
    obtain ⟨w, hw, hr, hpipe⟩ := h rfl
    have hstart : σ.stageStart true cl = record { σ with
        pipeWriting := true, outFile := none, inFile := none, inOff := 0
        pipes := Function.update σ.pipes w { σ.pipes w with bytes := [] } } cl := by
      simp only [stageStart, if_true, clearWriter, hw, clearPipe]
    rw [hstart]
    refine ⟨⟨rfl, rfl, fun _ => ⟨w, hw, hr, ?_, ?_⟩⟩, source_update _ hr, rfl, fun τ out A => ?_⟩
    · simp [record, hpipe]
    · simp [record]
    · refine ⟨A.lastExit, fun i => (A.alloc i).trans ?_, A.console, fun w' _ hw' => ?_⟩
      · rcases eq_or_ne i w with rfl | hi
        · simp [record]
        · simp [record, Function.update_of_ne hi]
      · obtain rfl : w = w' := by simpa [hw] using hw'
        have := A.written w rfl hw
        simpa [record] using this

/-- A stage does what `stageDenote` says. -/
theorem runText_stage (commands : Commands) (hs : NoRedirs σ.lastExit text) (h : σ.Writable doPipe) :
    match stageDenote commands σ.lastExit text σ.source σ.vfs with
    | none => σ.runText commands text doPipe = none
    | some (rc, out, _, v) => ∃ σ', σ.runText commands text doPipe = some (rc, σ') ∧ σ'.vfs = v ∧
        σ'.lastExit = σ.lastExit ∧ (∀ i, (σ'.pipes i).alloc = (σ.pipes i).alloc) ∧
        σ'.console = (if doPipe then σ.console else σ.console ++ out) ∧
        ∀ w, doPipe = true → σ.pipeWriter = some w → (σ'.pipes w).bytes = out.take PIPE_MAX := by
  rw [stageDenote, runText]
  cases hp : parseInPlace σ.lastExit text σ.vfs.ram with
  | none => rfl
  | some r =>
    obtain ⟨cl, ram⟩ := r
    obtain ⟨ho, hi⟩ := hs _ _ _ hp
    simp only
    rcases eq_or_ne cl.items [] with hnil | hne
    · -- nothing is run, and the pipe stays empty
      rw [runCmdline, if_pos hnil, if_pos hnil]
      refine ⟨_, rfl, rfl, rfl, fun _ => rfl, by simp, fun w hd hw => ?_⟩
      obtain ⟨w', hw', -, hpipe⟩ := h hd
      obtain rfl : w' = w := by simpa [hw'] using hw
      simp [hpipe]
    rw [runCmdline_plain ho hi hne, if_neg hne]
    rcases le_or_gt ARGV_MAX cl.items.length with hlen | hlen
    · rw [if_pos hlen, if_pos hlen]
    · rw [if_neg (Nat.not_le.mpr hlen), if_neg (Nat.not_le.mpr hlen)]
      have h' : Writable { σ with vfs := { σ.vfs with ram } } doPipe := h
      obtain ⟨hopen, hsrc, hvfs, hafter⟩ := stageStart_spec h' cl
      have hrun := Prog.run_open (shellRunBuiltin commands cl.items) hopen
      have hsrc' : source { σ with vfs := { σ.vfs with ram } } = σ.source := rfl
      rw [hsrc, hvfs, hsrc'] at hrun
      cases hd : (shellRunBuiltin commands cl.items).denote σ.source { σ.vfs with ram } with
      | none =>
        rw [hd] at hrun
        exact congrArg (Option.map _) hrun
      | some r =>
        rw [hd] at hrun
        obtain ⟨σ', hr, A, -, hv⟩ := hrun
        obtain ⟨h1, h2, h3, h4⟩ := hafter _ _ A
        exact ⟨_, congrArg (Option.map _) hr, hv, h1, h2, h3, h4⟩

/-- The next stage reads what the pipe has, and the other pipe is empty. -/
theorem nextStage_spec (σ : Shell) (which : Bool) :
    (σ.nextStage which).source = .bytes (σ.pipes which).bytes ∧
      (∀ i, ((σ.nextStage which).pipes i).alloc = (σ.pipes i).alloc) ∧
      ((σ.nextStage which).pipes (!which)).bytes = [] ∧
      (σ.nextStage which).pipeReader ≠ some (!which) := by
  have hne : which ≠ !which := by cases which <;> decide
  refine ⟨?_, fun i => ?_, ?_, fun h => hne (Option.some.inj h)⟩
  · rw [source_some (r := which) rfl]
    simp [nextStage, clearPipe]
  · rcases eq_or_ne i (!which) with rfl | hi
    · simp [nextStage, clearPipe]
    · simp [nextStage, clearPipe, Function.update_of_ne hi]
  · simp [nextStage, clearPipe]

/-- What can be seen of a pipeline: the status, the console and the filesystem. -/
def observed (r : Int × Shell) : Int × List Char × Vfs := (r.1, r.2.console, r.2.vfs)

/-- The stages of a pipeline: the console has the output of the last one only, and each of them
reads what went through the pipe from the one before. -/
theorem runStages_denote (commands : Commands) {texts : List (List Char)} {which : Bool}
    (hne : texts ≠ [])
    (hs : ∀ t ∈ texts, NoRedirs σ.lastExit t) (halloc : ∀ i, (σ.pipes i).alloc = true)
    (hempty : (σ.pipes which).bytes = []) (hr : σ.pipeReader ≠ some which) :
    (σ.runStages commands texts which).map observed =
      (pipeDenote commands σ.lastExit (List.take PIPE_MAX) texts σ.source σ.vfs).map
        fun (rc, out, v) => (rc, σ.console ++ out, v) := by
  induction texts generalizing σ which with
  | nil => exact absurd rfl hne
  | cons t ts ih =>
    have ht := hs t List.mem_cons_self
    cases ts with
    | nil =>
      have h0 : Writable { σ with pipeWriter := none } false := fun h => by cases h
      have hrun := runText_stage (σ := { σ with pipeWriter := none }) commands ht h0
      have hsrc : source { σ with pipeWriter := none } = σ.source := rfl
      rw [hsrc] at hrun
      rw [runStages, pipeDenote]
      cases hd : stageDenote commands σ.lastExit t σ.source σ.vfs with
      | none =>
        rw [hd] at hrun
        exact congrArg (Option.map _) hrun
      | some r =>
        obtain ⟨rc, out, src, v⟩ := r
        rw [hd] at hrun
        obtain ⟨σ', hr, hv, -, -, hcon, -⟩ := hrun
        rw [hr]
        simp [observed, hcon, hv]
    | cons t' ts =>
      have hpipe : σ.pipes which = ⟨true, []⟩ := by
        rw [← halloc which, ← hempty]
      have h0 : Writable { σ with pipeWriter := some which } true :=
        fun _ => ⟨which, rfl, hr, hpipe⟩
      have hrun := runText_stage (σ := { σ with pipeWriter := some which }) commands ht h0
      have hsrc : source { σ with pipeWriter := some which } = σ.source := rfl
      rw [hsrc] at hrun
      rw [runStages, pipeDenote]
      · cases hd : stageDenote commands σ.lastExit t σ.source σ.vfs with
        | none =>
          rw [hd] at hrun
          have hnone : ({ σ with pipeWriter := some which } : Shell).runText commands t true =
            none := hrun
          rw [hnone]
          rfl
        | some r =>
          obtain ⟨rc, out, src, v⟩ := r
          rw [hd] at hrun
          obtain ⟨σ', hr', hv, hexit, halloc', hcon, hout⟩ := hrun
          rw [hr']
          obtain ⟨hsrc', halloc'', hempty', hreader⟩ := nextStage_spec σ' which
          have hexit' : (σ'.nextStage which).lastExit = σ.lastExit := hexit
          have hs' : ∀ t ∈ t' :: ts, NoRedirs (σ'.nextStage which).lastExit t := by
            intro t ht
            rw [hexit']
            exact hs t (List.mem_cons_of_mem _ ht)
          have hnext := ih (by simp) hs'
            (fun i => (halloc'' i).trans ((halloc' i).trans (halloc i))) hempty' hreader
          have hcon' : (σ'.nextStage which).console = σ.console := hcon
          have hv' : (σ'.nextStage which).vfs = v := hv
          rw [hsrc', hexit', hout which rfl rfl, hcon', hv'] at hnext
          exact hnext
      · simp
      · simp

/-- What `exec_pipeline` starts from, apart from the allocations. -/
theorem pipesReady_spec (σ : Shell) :
    σ.pipesReady.lastExit = σ.lastExit ∧ σ.pipesReady.console = σ.console ∧
      σ.pipesReady.source = .keys σ.keys ∧ (σ.pipesReady.pipes false).bytes = [] := by
  have halloc : ∀ (σ : Shell) (i : Bool), (σ.allocPipe i).lastExit = σ.lastExit ∧
      (σ.allocPipe i).console = σ.console ∧ (σ.allocPipe i).keys = σ.keys := by
    intro σ i
    unfold allocPipe
    split
    · exact ⟨rfl, rfl, rfl⟩
    · exact ⟨rfl, rfl, rfl⟩
  obtain ⟨he, hc, hk⟩ := halloc σ false
  obtain ⟨he', hc', hk'⟩ := halloc (σ.allocPipe false) true
  refine ⟨he'.trans he, hc'.trans hc, congrArg Source.keys (hk'.trans hk), ?_⟩
  simp [pipesReady, clearPipe]

theorem execPipeline_runPipeline (commands : Commands) (σ : Shell) {T : List Char}
    (h : NUL ∉ text) (c : Char) :
    ((execPipeline commands (text ++ c :: T) text.length σ).map fun r => observed (r.1, r.2.2)) =
      (σ.runPipeline commands text).map observed := by
  have := execPipeline_text commands σ (T := T) h c
  cases hr : σ.runPipeline commands text with
  | none =>
    rw [hr] at this
    exact congrArg (Option.map _) this
  | some r =>
    rw [hr] at this
    obtain ⟨A, -, he⟩ := this
    rw [he]
    rfl

/-- A pipeline without redirections, when both pipes could be allocated. -/
theorem runPipeline_denote (hs : ∀ t ∈ stages text, NoRedirs σ.lastExit t)
    (halloc : ∀ i, (σ.pipesReady.pipes i).alloc = true) :
    (σ.runPipeline commands text).map observed =
      (pipeDenote commands σ.lastExit (List.take PIPE_MAX) (stages text) (.keys σ.keys)
        σ.pipesReady.vfs).map fun (rc, out, v) => (rc, σ.console ++ out, v) := by
  obtain ⟨hexit, hcon, hsrc, hempty⟩ := pipesReady_spec σ
  have hs' : ∀ t ∈ stages text, NoRedirs σ.pipesReady.lastExit t := by
    rw [hexit]
    exact hs
  have := runStages_denote commands (stages_ne_nil text) hs' halloc hempty
    (fun h => by cases h)
  rw [hexit, hcon, hsrc] at this
  rw [← this, runPipeline, Option.map_map]
  rfl

end Shell

open Shell in
/-- `exec_pipeline` on stages without redirections, when both pipes could be allocated: it is the
composition of its commands, a pipe letting `PIPE_MAX` bytes through. -/
theorem execPipeline_denote {commands : Commands} {σ : Shell} {text T : List Char} {c : Char}
    (h : NUL ∉ text) (hs : ∀ t ∈ stages text, NoRedirs σ.lastExit t)
    (halloc : ∀ i, (σ.pipesReady.pipes i).alloc = true) :
    ((execPipeline commands (text ++ c :: T) text.length σ).map fun r => observed (r.1, r.2.2)) =
      (pipeDenote commands σ.lastExit (List.take PIPE_MAX) (stages text) (.keys σ.keys)
        σ.pipesReady.vfs).map fun (rc, out, v) => (rc, σ.console ++ out, v) := by
  rw [execPipeline_runPipeline commands σ h c, runPipeline_denote hs halloc]

/-! ## Two stages -/

/-- A text of one word is a stage with that command. -/
theorem noRedirs_of_word {code : Fin 256} {text : List Char}
    (h : ∀ ram, parseInPlace code text ram = some (⟨[text], [], false, [], false, false⟩, ram)) :
    NoRedirs code text := by
  intro ram cl ram' hp
  rw [h ram] at hp
  obtain ⟨rfl, -⟩ := Prod.mk.inj (Option.some.inj hp)
  exact ⟨rfl, rfl⟩

theorem stageDenote_word {commands : Commands} {code : Fin 256} {text : List Char} {src : Source}
    {v : Vfs}
    (h : ∀ ram, parseInPlace code text ram = some (⟨[text], [], false, [], false, false⟩, ram)) :
    stageDenote commands code text src v = (shellRunBuiltin commands [text]).denote src v := by
  rw [stageDenote, h]
  exact if_neg (List.cons_ne_nil _ _)

theorem bootShell_pipes : ∀ i, (bootShell.pipesReady.pipes i).alloc = true := by
  rw [bootShell_spelled]
  decide +kernel

namespace Prog

variable {α : Type}

theorem denote_puts (s : List Char) (k : Prog α) (src : Source) (v : Vfs) :
    (puts s >>= fun _ => k).denote src v =
      (k.denote src v).map fun (a, out, r) => (a, s ++ out, r) := by
  induction s with
  | nil =>
    cases h : k.denote src v with
    | none => exact h
    | some r => exact h
  | cons c s ih =>
    have hcons : (puts (c :: s) >>= fun _ => k) = putc c (puts s >>= fun _ => k) := rfl
    rw [hcons, denote, ih, Option.map_map]
    rfl

end Prog

/-- A command that prints two bytes, and one that prints each of two bytes that it reads twice; its
status is 7 if there are no more. -/
def sayCommands : Commands := fun name =>
  if name = "say".toList then some fun _ => do
    Prog.puts "ab".toList
    pure 3
  else if name = "twice".toList then some fun _ =>
    Prog.getc fun c => Prog.putc (Char.ofNat c.toNat) <| Prog.putc (Char.ofNat c.toNat) <|
    Prog.getc fun c => Prog.putc (Char.ofNat c.toNat) <| Prog.putc (Char.ofNat c.toNat) <|
    Prog.getc fun c => pure (if c = -1 then 7 else 0)
  else none

/-- `say|twice` -/
theorem sayTwice_denote :
    ((execPipeline sayCommands ("say|twice".toList ++ NUL :: []) "say|twice".toList.length
        bootShell).map fun r => Shell.observed (r.1, r.2.2)) =
      some (7, bootShell.console ++ "aabb".toList, bootShell.pipesReady.vfs) := by
  have hs : stages "say|twice".toList = ["say".toList, "twice".toList] := by decide
  have hsay : ∀ ram, parseInPlace 0 "say".toList ram =
    some (⟨["say".toList], [], false, [], false, false⟩, ram) := fun _ => rfl
  have htwice : ∀ ram, parseInPlace 0 "twice".toList ram =
    some (⟨["twice".toList], [], false, [], false, false⟩, ram) := fun _ => rfl
  have hredirs : ∀ t ∈ stages "say|twice".toList, NoRedirs bootShell.lastExit t := by
    intro t ht
    rw [hs] at ht
    rcases List.mem_pair.mp ht with rfl | rfl
    · exact noRedirs_of_word hsay
    · exact noRedirs_of_word htwice
  have hfirst : stageDenote sayCommands 0 "say".toList (.keys bootShell.keys)
      bootShell.pipesReady.vfs =
        some (3, "ab".toList ++ [], .keys bootShell.keys, bootShell.pipesReady.vfs) := by
    have hrun : shellRunBuiltin sayCommands ["say".toList] =
      (Prog.puts "ab".toList >>= fun _ => pure 3) := rfl
    rw [stageDenote_word hsay, hrun, Prog.denote_puts]
    rfl
  have hdenote : pipeDenote sayCommands bootShell.lastExit (List.take PIPE_MAX)
      (stages "say|twice".toList) (.keys bootShell.keys) bootShell.pipesReady.vfs =
        some (7, "aabb".toList, bootShell.pipesReady.vfs) := by
    have hexit : bootShell.lastExit = 0 := rfl
    have hfits : ("ab".toList ++ []).take PIPE_MAX = "ab".toList :=
      List.take_of_length_le (Nat.le_of_ble_eq_true rfl)
    rw [hexit, hs, pipeDenote, hfirst]
    · simp only
      rw [hfits, pipeDenote, stageDenote_word htwice]
      rfl
    · simp
  rw [execPipeline_denote (by decide) hredirs bootShell_pipes, hdenote]
  rfl

namespace Prog

variable {α : Type}

/-- Reading and ignoring `n` bytes. -/
def skip : Nat → Prog α → Prog α
  | 0, k => k
  | n + 1, k => getc fun _ => skip n k

theorem denote_skip (n : Nat) (k : Prog α) (s : List Char) (v : Vfs) :
    (skip n k).denote (.bytes s) v = k.denote (.bytes (s.drop n)) v := by
  induction n generalizing s with
  | zero => rfl
  | succ n ih =>
    cases s with
    | nil => rw [skip, denote, Source.next, ih, List.drop_nil, List.drop_nil]
    | cons c s => rw [skip, denote, Source.next, ih, List.drop_succ_cons]

end Prog

/-- `flood` emits one byte more than a pipe holds, `last` reads that byte: its status is 1 when
there is none. -/
def floodCommands : Commands := fun name =>
  if name = "flood".toList then some fun _ => do
    Prog.puts (List.replicate (PIPE_MAX + 1) 'x')
    pure 0
  else if name = "last".toList then
    some fun _ => Prog.skip PIPE_MAX (Prog.getc fun c => pure (if c = -1 then 1 else 0))
  else none

theorem flood_pipeDenote (pass : List Char → List Char) (v : Vfs) :
    (pipeDenote floodCommands 0 pass (stages "flood|last".toList) (.keys bootShell.keys) v).map
        (fun r => r.1) =
      some (if (Source.bytes ((pass (List.replicate (PIPE_MAX + 1) 'x')).drop PIPE_MAX)).next.1 = -1
        then 1 else 0) := by
  have hs : stages "flood|last".toList = ["flood".toList, "last".toList] := by decide
  have hflood : ∀ ram, parseInPlace 0 "flood".toList ram =
    some (⟨["flood".toList], [], false, [], false, false⟩, ram) := fun _ => rfl
  have hlast : ∀ ram, parseInPlace 0 "last".toList ram =
    some (⟨["last".toList], [], false, [], false, false⟩, ram) := fun _ => rfl
  have hrun : shellRunBuiltin floodCommands ["flood".toList] =
    (Prog.puts (List.replicate (PIPE_MAX + 1) 'x') >>= fun _ => pure 0) := rfl
  have hrun' : shellRunBuiltin floodCommands ["last".toList] =
    Prog.skip PIPE_MAX (Prog.getc fun c => pure (if c = -1 then 1 else 0)) := rfl
  have hd : stageDenote floodCommands 0 "flood".toList (.keys bootShell.keys) v =
      some (0, List.replicate (PIPE_MAX + 1) 'x' ++ [], .keys bootShell.keys, v) := by
    rw [stageDenote_word hflood, hrun, Prog.denote_puts]
    rfl
  rw [hs, pipeDenote, hd]
  · simp only
    rw [pipeDenote, stageDenote_word hlast, hrun', Prog.denote_skip, List.append_nil]
    rfl
  · simp

/-- A pipe is no place for more than `PIPE_MAX` bytes: with the whole output of `flood` in it, the
status of `last` would be 0. -/
theorem flood_not_denote :
    (execPipeline floodCommands ("flood|last".toList ++ [NUL]) "flood|last".toList.length
        bootShell).map (fun r => r.1) = some 1 ∧
      (pipeDenote floodCommands bootShell.lastExit id (stages "flood|last".toList)
        (.keys bootShell.keys) bootShell.pipesReady.vfs).map (fun r => r.1) = some 0 := by
  have hs : stages "flood|last".toList = ["flood".toList, "last".toList] := by decide
  have hredirs : ∀ t ∈ stages "flood|last".toList, NoRedirs bootShell.lastExit t := by
    intro t ht
    rw [hs] at ht
    rcases List.mem_pair.mp ht with rfl | rfl
    · exact noRedirs_of_word fun _ => rfl
    · exact noRedirs_of_word fun _ => rfl
  have hpass := flood_pipeDenote (List.take PIPE_MAX) bootShell.pipesReady.vfs
  have hall := flood_pipeDenote id bootShell.pipesReady.vfs
  rw [List.drop_take_self] at hpass
  refine ⟨?_, ?_⟩
  · have hnul : NUL ∉ "flood|last".toList := by decide
    have hexec := Shell.execPipeline_runPipeline floodCommands bootShell (T := []) hnul NUL
    rw [Shell.runPipeline_denote hredirs bootShell_pipes] at hexec
    have := congrArg (Option.map fun r => r.1) hexec
    rw [Option.map_map, Option.map_map] at this
    exact this.trans hpass
  · rw [id_eq, List.drop_replicate, Nat.add_sub_cancel_left] at hall
    exact hall

end BojanOS
