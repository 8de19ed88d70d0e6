import BojanOS.Shell.Redirs
import BojanOS.Cmds.Print
import BojanOS.Cmds.Text
import BojanOS.Vfs.FreshHeap

/-!
# A session at the keyboard (`shell_run`, `sh_readline`)

One step is one round of the loop of `sh_readline`: it takes a key, and Enter runs the line. Of the
array `line[1024]` the session keeps the bytes in front of the cursor. The prompt and the colours
are left out.

Five places in the sources use what `kmalloc` returns without a look at it, or in another function
than the one that looks. `Session.NullDeref` says that the next step goes through a null pointer.
-/

namespace BojanOS

def HIST_MAX : Nat := 32

/-- `char line[1024]` of `shell_run`. -/
def LINE_MAX : Nat := 1024

structure Session where
  sh : Shell
  /-- `history[0 .. hist_count)`; a refused `strdup` leaves a null pointer there. -/
  history : List (Option (List Char))
  histPos : Nat
  /-- `buf[0 .. pos)` of `sh_readline`. -/
  line : List Char
  /-- `shell_run` has returned. -/
  ended : Bool

def strdup (s : List Char) (r : Ram) : Option (List Char) × Ram :=
  match r.kmalloc (s.length + 1) with
  | (none, r) => (none, r)
  | (some _, r) => (some s, r)

namespace Session

def addHistory (history : List (Option (List Char))) (copy : Option (List Char)) :
    List (Option (List Char)) :=
  if history.length < HIST_MAX then history ++ [copy] else history.drop 1 ++ [copy]

/-! ## `sh_readline` -/

/-- `sh_putc('\b'); sh_putc(' '); sh_putc('\b');` -/
def rubout : List Char := ['\x08', ' ', '\x08']

/-- `while (pos > 0)` with one `rubout` a byte. -/
def erase (s : Session) : Option Session :=
  (s.sh.shPuts (List.replicate s.line.length rubout).flatten).map fun sh => { s with sh, line := [] }

/-- `strncpy(buf, history[i], max - 1)` and the echo; `none` when `history[i]` is null. -/
def fetch (s : Session) (i : Nat) : Option Session :=
  match s.history[i]? with
  | some (some text) =>
    let line := text.take (LINE_MAX - 1)
    (s.sh.shPuts line).map fun sh => { s with sh, line, histPos := i }
  | _ => none

/-- The entry that a key recalls. -/
def recalled (s : Session) (c : Int) : Option Nat :=
  if c = KB_KEY_UP then
    if s.history ≠ [] ∧ 0 < s.histPos then some (s.histPos - 1) else none
  else if c = KB_KEY_DOWN then
    if s.histPos + 1 < s.history.length then some (s.histPos + 1) else none
  else none

def isEnter (c : Int) : Bool := c = '\n'.toNat ∨ c = '\r'.toNat

/-- One round of the loop, with `c` the answer of `sh_getc`; the right side is a return. -/
def readlineKey (c : Int) (s : Session) : Option (Session ⊕ (Int × Session)) :=
  if c < 0 then some (.inr (-1, s))
  else if isEnter c then
    (s.sh.shPuts ['\n']).map fun sh => .inr (s.line.length, { s with sh })
  else if c = '\x08'.toNat then
    if s.line = [] then some (.inl s)
    else (s.sh.shPuts rubout).map fun sh => .inl { s with sh, line := s.line.dropLast }
  else if c = KB_CTRL_D then some (.inr (-1, s))
  else if c = KB_CTRL_C then
    (s.sh.shPuts "^C\n".toList).map fun sh =>
      .inr (0, { s with sh := sh.shSetExit 130, line := [] })
  else if c = KB_KEY_UP then
    match s.recalled c with
    | none => some (.inl s)
    | some i => (s.erase.bind fun s => s.fetch i).map .inl
  else if c = KB_KEY_DOWN then
    match s.recalled c with
    | none => s.erase.map fun s => .inl { s with histPos := s.history.length }
    | some i => (s.erase.bind fun s => s.fetch i).map .inl
  else if 32 ≤ c ∧ c < 127 then
    if s.line.length < LINE_MAX - 1 then
      let key := Char.ofNat c.toNat
      (s.sh.shPuts [key]).map fun sh => .inl { s with sh, line := s.line ++ [key] }
    else some (.inl s)
  else some (.inl s)

/-! ## `shell_run` -/

/-- The copy of the line for the history, and the shell in front of `shell_exec_line`. -/
def submit (s : Session) : Option (List Char) × Shell :=
  let (copy, ram) := strdup s.line s.sh.vfs.ram
  (copy, { s.sh with vfs := { s.sh.vfs with ram } })

/-- What `shell_run` does with an answer of `sh_readline`. The array holds `rest` behind the
terminator of the line. -/
def returned (commands : Commands) (rest : List Char) (n : Int) (s : Session) : Option Session :=
  if n < 0 then (s.sh.shPuts ['\n']).map fun sh => { s with sh, ended := true }
  else if n = 0 ∨ s.line.head? = some NUL then
    some { s with histPos := s.history.length, line := [] }
  else
    match shellExecLine commands (s.line ++ NUL :: rest) s.submit.2 with
    | none => none
    | some (_, _, sh) =>
      let history := addHistory s.history s.submit.1
      some { s with sh, history, histPos := history.length, line := [] }

def step (commands : Commands) (rest : List Char) (s : Session) : Option (Unit × Session) :=
  if s.ended then none
  else
    match s.sh.shGetc with
    | none => none
    | some (c, sh) =>
      match readlineKey c { s with sh } with
      | none => none
      | some (.inl s) => some ((), s)
      | some (.inr (n, s)) => (returned commands rest n s).map fun s => ((), s)

end Session

/-! ## Null pointers -/

namespace Shell

/-- `out_raw` would store through the null pointer that a refused `kmalloc(PIPE_MAX)` left. -/
def NullOut (σ : Shell) : Prop :=
  σ.outFile = none ∧ σ.pipeWriting = true ∧ ∃ w, σ.pipeWriter = some w ∧
    (σ.pipes w).bytes.length < PIPE_MAX ∧ (σ.pipes w).alloc = false

theorem outRaw_eq_none {σ : Shell} {c : Char} : σ.outRaw c = none ↔ σ.NullOut := by
  rw [outRaw, NullOut]
  cases σ.outFile with
  | some f => simp
  | none =>
    cases σ.pipeWriting with
    | false => simp
    | true =>
      rw [pipeWriterAdd]
      cases σ.pipeWriter with
      | none => simp
      | some w =>
        rcases Nat.lt_or_ge (σ.pipes w).bytes.length PIPE_MAX with h | h
        · cases ha : (σ.pipes w).alloc <;> simp [h, ha, Nat.not_le.mpr h]
        · simp [h]

end Shell

namespace Prog

variable {α : Type}

/-- `τ` is a state in which the command calls `out_raw`, when it starts in `σ`. -/
inductive Outs : Prog α → Shell → Shell → Prop
  | here {c : Char} {k : Prog α} {σ : Shell} : Outs (putc c k) σ σ
  | putc {c : Char} {k : Prog α} {σ σ' τ : Shell} (h : σ.outRaw c = some σ') :
    Outs k σ' τ → Outs (putc c k) σ τ
  | getc {c : Int} {k : Int → Prog α} {σ σ' τ : Shell} (h : σ.shGetc = some (c, σ')) :
    Outs (k c) σ' τ → Outs (getc k) σ τ
  | getVfs {k : Vfs → Prog α} {σ τ : Shell} : Outs (k σ.vfs) σ τ → Outs (getVfs k) σ τ
  | setVfs {v : Vfs} {k : Prog α} {σ τ : Shell} :
    Outs k { σ with vfs := v } τ → Outs (setVfs v k) σ τ

end Prog

/-- The same for `run_segment`: a message of `apply_redirs`, whatever it has opened by then, or the
command. -/
inductive SegmentOuts (commands : Commands) (cl : Cmdline (List Char)) (doPipe : Bool)
    (σ : Shell) : Shell → Prop
  | message {vfs : Vfs} {outFile inFile : Option Nat} {inOff : Nat} {m : List Char} {τ : Shell} :
    (Prog.puts m).Outs { σ.beforeRedirs doPipe with vfs, outFile, inFile, inOff } τ →
    SegmentOuts commands cl doPipe σ τ
  | command {σ' τ : Shell} (h : Shell.applyRedirs cl (σ.beforeRedirs doPipe) = some (true, σ')) :
    (shellRunBuiltin commands cl.items).Outs (σ'.record cl) τ → SegmentOuts commands cl doPipe σ τ

/-- The same for `exec_pipeline`: a stage that its loop comes to. -/
inductive PipelineOuts (commands : Commands) (line : Buf) (len : Nat) (σ : Shell) : Shell → Prop
  | stage {line' rest : Buf} {st : Pipeline.St} {c : Char} {last : Bool} {σ₁ τ : Shell}
    {cl : Cmdline Item} {ram : Ram} (hline : store line len NUL = some line')
    (hst : Loop.Reaches (Pipeline.step commands) ⟨line', 0, 0, false, σ.pipesReady⟩ st)
    (hc : st.buf[st.p]? = some c) (hlast : c = '|' ∧ last = false ∨ c = NUL ∧ last = true)
    (hσ : σ₁ = { st.σ with pipeWriter := if last then none else some st.which })
    (htok : tokenize σ₁.lastExit ((if last then st.buf else st.buf.set st.p NUL).drop st.seg)
      σ₁.vfs.ram = some (rest, cl, ram)) (hne : cl.items ≠ []) :
    SegmentOuts commands (cl.map (Item.text rest)) (!last)
      { σ₁ with vfs := { σ₁.vfs with ram } } τ → PipelineOuts commands line len σ τ

/-- The same for `shell_exec_line`: a segment that is run. -/
inductive LineOuts (commands : Commands) (line : Buf) (σ : Shell) : Shell → Prop
  | segment {c : Char} {st : ExecLine.St} {kind : Option Op} {τ : Shell}
    (hfirst : (line)[skipBlanks line 0]? = some c) (hc : c ≠ NUL ∧ c ≠ '#')
    (hst : Loop.Reaches (ExecLine.step commands)
      ⟨line, skipBlanks line 0, skipBlanks line 0, 0, σ, 0, []⟩ st)
    (hkind : st.buf[st.p]? = some NUL ∧ kind = none ∨
      (isSeparator (st.buf.drop st.p)).map Prod.fst = kind ∧ kind ≠ none)
    (hlen : trimBlanks ((st.buf.drop st.start).take (st.p - st.start)) ≠ [])
    (hrun : runsWith kind st.rc = true) :
    PipelineOuts commands (st.buf.drop st.start)
      (trimBlanks ((st.buf.drop st.start).take (st.p - st.start))).length st.σ τ →
    LineOuts commands line σ τ

namespace Session

/-- The line is entered: the state in front of `strdup` and `shell_exec_line`. -/
def entered (s : Session) : Option Session :=
  match s.sh.shGetc with
  | none => none
  | some (c, sh) =>
    if isEnter c ∧ s.line ≠ [] ∧ s.line.head? ≠ some NUL then
      (sh.shPuts ['\n']).map fun sh => { s with sh }
    else none

/-- The next step reads the text of a history entry that is null, or stores a byte of the output
through a pipe buffer that is null. -/
def NullDeref (commands : Commands) (rest : List Char) (s : Session) : Prop :=
  (∃ c sh i, s.sh.shGetc = some (c, sh) ∧ s.recalled c = some i ∧ s.history[i]? = some none) ∨
    ∃ t τ, s.entered = some t ∧
      LineOuts commands (t.line ++ NUL :: rest) t.submit.2 τ ∧ τ.NullOut

end Session

/-! ## The pipe buffers -/

namespace Shell

variable {σ σ' τ : Shell}

/-- Both `pipes[i].data` are there. -/
def HasPipes (σ : Shell) : Prop := ∀ i, (σ.pipes i).alloc = true

theorem HasPipes.not_nullOut (h : σ.HasPipes) : ¬ σ.NullOut := by
  rintro ⟨-, -, w, -, -, hw⟩
  rw [h w] at hw
  cases hw

/-- A pipe buffer that is there stays there. -/
def KeepsPipes (σ σ' : Shell) : Prop := ∀ i, (σ.pipes i).alloc = true → (σ'.pipes i).alloc = true

theorem KeepsPipes.of_eq (h : σ'.pipes = σ.pipes) : KeepsPipes σ σ' := fun i hi => by rwa [h]

theorem KeepsPipes.trans (H : KeepsPipes σ σ') (H' : KeepsPipes σ' τ) : KeepsPipes σ τ :=
  fun i hi => H' i (H i hi)

theorem HasPipes.keeps (h : σ.HasPipes) (K : KeepsPipes σ σ') : σ'.HasPipes := fun i => K i (h i)

theorem clearPipe_pipes (σ : Shell) (i : Bool) : KeepsPipes σ (σ.clearPipe i) := by
  intro j hj
  rw [clearPipe]
  rcases eq_or_ne j i with rfl | hne
  · simp [hj]
  · simp [hne, hj]

theorem beforeRedirs_pipes (σ : Shell) (doPipe : Bool) : KeepsPipes σ (σ.beforeRedirs doPipe) := by
  rw [beforeRedirs]
  split
  · rw [clearWriter]
    split
    · exact .of_eq rfl
    · exact clearPipe_pipes { σ with pipeWriting := doPipe } _
  · exact .of_eq rfl

theorem outRaw_pipes {c : Char} (h : σ.outRaw c = some σ') : KeepsPipes σ σ' := by
  rw [outRaw] at h
  split at h
  · obtain rfl := Option.some.inj h
    exact .of_eq rfl
  split at h
  · rw [pipeWriterAdd] at h
    split at h
    · obtain rfl := Option.some.inj h
      exact .of_eq rfl
    rename_i w hw
    simp only at h
    split at h
    · obtain rfl := Option.some.inj h
      exact .of_eq rfl
    split at h
    · rename_i ha
      obtain rfl := Option.some.inj h
      intro i hi
      rcases eq_or_ne i w with rfl | hne
      · simp [ha]
      · simp [hne, hi]
    · cases h
  · obtain rfl := Option.some.inj h
    exact .of_eq rfl

theorem shGetc_pipes {c : Int} (h : σ.shGetc = some (c, σ')) : KeepsPipes σ σ' := by
  rw [shGetc] at h
  split at h
  · split at h
    · obtain ⟨-, rfl⟩ := Prod.mk.inj (Option.some.inj h)
      exact .of_eq rfl
    · obtain ⟨d, -, he⟩ := Option.map_eq_some_iff.mp h
      obtain ⟨-, rfl⟩ := Prod.mk.inj he
      exact .of_eq rfl
  split at h
  · split at h
    · obtain ⟨-, rfl⟩ := Prod.mk.inj (Option.some.inj h)
      exact .of_eq rfl
    · obtain ⟨-, rfl⟩ := Prod.mk.inj (Option.some.inj h)
      exact .of_eq rfl
  · obtain ⟨-, rfl⟩ := Prod.mk.inj (Option.some.inj h)
    exact .of_eq rfl

theorem shPuts_pipes {s : List Char} (h : σ.shPuts s = some σ') : KeepsPipes σ σ' := by
  induction s generalizing σ with
  | nil =>
    obtain rfl := Option.some.inj h
    exact .of_eq rfl
  | cons c s ih =>
    rw [shPuts, List.foldlM_cons] at h
    obtain ⟨σ₁, h₁, h⟩ := Option.bind_eq_some_iff.mp h
    exact (outRaw_pipes h₁).trans (ih h)

end Shell

namespace Prog

open Shell

variable {α : Type} {p : Prog α} {σ σ' τ : Shell} {a : α}

theorem run_pipes (h : p.run σ = some (a, σ')) : KeepsPipes σ σ' := by
  induction p generalizing σ with
  | ret b =>
    obtain ⟨-, rfl⟩ := Prod.mk.inj (Option.some.inj h)
    exact .of_eq rfl
  | putc c k ih =>
    obtain ⟨σ₁, h₁, h⟩ := Option.bind_eq_some_iff.mp h
    exact (outRaw_pipes h₁).trans (ih h)
  | getc k ih =>
    obtain ⟨⟨c, σ₁⟩, h₁, h⟩ := Option.bind_eq_some_iff.mp h
    exact (shGetc_pipes h₁).trans (ih c h)
  | getVfs k ih => exact ih σ.vfs h
  | setVfs v k ih => exact ih (σ := { σ with vfs := v }) h
  | fault => cases h

theorem Outs.pipes (H : p.Outs σ τ) : KeepsPipes σ τ := by
  induction H with
  | here => exact .of_eq rfl
  | putc h _ ih => exact (outRaw_pipes h).trans ih
  | getc h _ ih => exact (shGetc_pipes h).trans ih
  | getVfs _ ih => exact ih
  | setVfs _ ih => exact ih

end Prog

namespace Shell

variable {σ σ' τ : Shell} {cl : Cmdline (List Char)} {commands : Commands} {ok doPipe : Bool}

theorem redirOut_pipes (h : redirOut cl σ = some (ok, σ')) : KeepsPipes σ σ' := by
  have hrefuse : ∀ {v : Vfs} {m : List Char}, { σ with vfs := v }.refuse m = some (ok, σ') →
      KeepsPipes σ σ' := fun {v _} h => shPuts_pipes (σ := { σ with vfs := v }) (refuse_eq h).2
  rw [redirOut] at h
  split at h
  · obtain ⟨-, rfl⟩ := Prod.mk.inj (Option.some.inj h)
    exact .of_eq rfl
  split at h
  · cases h
  split at h
  · cases h
  · exact hrefuse h
  · simp only at h
    split at h
    · exact hrefuse h
    · split at h
      · exact hrefuse h
      · obtain ⟨-, rfl⟩ := Prod.mk.inj (Option.some.inj h)
        exact .of_eq rfl

theorem redirIn_pipes (h : redirIn cl σ = some (ok, σ')) : KeepsPipes σ σ' := by
  rw [redirIn] at h
  split at h
  · obtain ⟨-, rfl⟩ := Prod.mk.inj (Option.some.inj h)
    exact .of_eq rfl
  split at h
  · cases h
  simp only at h
  split at h
  · exact shPuts_pipes (refuse_eq h).2
  · split at h
    · exact shPuts_pipes (refuse_eq h).2
    · obtain ⟨-, rfl⟩ := Prod.mk.inj (Option.some.inj h)
      exact .of_eq rfl

theorem applyRedirs_pipes (h : applyRedirs cl σ = some (ok, σ')) : KeepsPipes σ σ' := by
  rw [applyRedirs] at h
  split at h
  · cases h
  · rename_i τ hτ
    obtain ⟨-, rfl⟩ := Prod.mk.inj (Option.some.inj h)
    exact redirOut_pipes (σ := { σ with outFile := none, inFile := none, inOff := 0 }) hτ
  · rename_i τ hτ
    have K := redirOut_pipes (σ := { σ with outFile := none, inFile := none, inOff := 0 }) hτ
    exact K.trans (redirIn_pipes h)

theorem runCmdline_pipes {rc : Int} (h : runCmdline commands cl doPipe σ = some (rc, σ')) :
    KeepsPipes σ σ' := by
  by_cases hne : cl.items = []
  · rw [runCmdline, if_pos hne] at h
    obtain ⟨-, rfl⟩ := Prod.mk.inj (Option.some.inj h)
    exact .of_eq rfl
  have K := beforeRedirs_pipes σ doPipe
  rw [runCmdline_redirs hne] at h
  obtain ⟨⟨ok, τ⟩, hτ, h⟩ := Option.bind_eq_some_iff.mp h
  cases ok with
  | false =>
    obtain ⟨-, rfl⟩ := Prod.mk.inj (Option.some.inj h)
    exact (K.trans (applyRedirs_pipes hτ)).trans (.of_eq rfl)
  | true =>
    rw [if_pos rfl] at h
    split at h
    · cases h
    obtain ⟨⟨r, υ⟩, hr, he⟩ := Option.map_eq_some_iff.mp h
    obtain ⟨-, rfl⟩ := Prod.mk.inj he
    have Kr := Prog.run_pipes (σ := τ.record cl) hr
    exact ((K.trans (applyRedirs_pipes hτ)).trans Kr).trans (.of_eq rfl)

theorem runSegment_pipes {segment rest : Buf} {rc : Int}
    (h : σ.runSegment commands segment doPipe = some (rc, rest, σ')) : KeepsPipes σ σ' := by
  rw [runSegment] at h
  split at h
  · cases h
  · rename_i buf cl ram _
    obtain ⟨⟨r, υ⟩, hr, he⟩ := Option.map_eq_some_iff.mp h
    obtain ⟨-, -, rfl⟩ : r = rc ∧ buf = rest ∧ υ = σ' := by simpa using he
    exact runCmdline_pipes (σ := { σ with vfs := { σ.vfs with ram } }) hr

end Shell

namespace Shell

variable {σ σ' τ : Shell} {commands : Commands}

theorem allocPipe_pipes (σ : Shell) (i : Bool) : KeepsPipes σ (σ.allocPipe i) := by
  rw [allocPipe]
  split
  · exact .of_eq rfl
  · rename_i h
    intro j hj
    have hne : j ≠ i := fun he => h (he ▸ hj)
    simp [hne, hj]

theorem pipesReady_pipes (σ : Shell) : KeepsPipes σ σ.pipesReady := by
  have K := ((allocPipe_pipes σ false).trans (allocPipe_pipes _ true)).trans
    ((clearPipe_pipes _ false).trans (clearPipe_pipes _ true))
  exact K.trans (.of_eq rfl)

/-- The buffers for `exec_pipeline` are there, or the requests for them will be granted. -/
def pipesGranted (σ : Shell) : Bool :=
  (σ.pipesReady.pipes false).alloc && (σ.pipesReady.pipes true).alloc

theorem pipesGranted_iff : σ.pipesGranted = true ↔ σ.pipesReady.HasPipes := by
  rw [pipesGranted, Bool.and_eq_true, HasPipes, Bool.forall_bool]

theorem HasPipes.granted (h : σ.HasPipes) : σ.pipesGranted = true :=
  pipesGranted_iff.mpr (h.keeps (pipesReady_pipes σ))

theorem allocPipe_congr (hram : σ.vfs.ram = τ.vfs.ram) (hp : σ.pipes = τ.pipes) (i : Bool) :
    (σ.allocPipe i).vfs.ram = (τ.allocPipe i).vfs.ram ∧
      (σ.allocPipe i).pipes = (τ.allocPipe i).pipes := by
  rw [allocPipe, allocPipe, hram, hp]
  rcases τ.vfs.ram.kmalloc PIPE_MAX with ⟨p, ram⟩
  split
  · exact ⟨hram, hp⟩
  · exact ⟨rfl, rfl⟩

theorem clearPipe_congr (hp : σ.pipes = τ.pipes) (i : Bool) :
    (σ.clearPipe i).pipes = (τ.clearPipe i).pipes := by
  rw [clearPipe, clearPipe, hp]

theorem pipesGranted_congr (hram : σ.vfs.ram = τ.vfs.ram) (hp : σ.pipes = τ.pipes) :
    σ.pipesGranted = τ.pipesGranted := by
  obtain ⟨hram₀, hp₀⟩ := allocPipe_congr hram hp false
  obtain ⟨-, hp₁⟩ := allocPipe_congr hram₀ hp₀ true
  have hready : σ.pipesReady.pipes = τ.pipesReady.pipes :=
    clearPipe_congr (clearPipe_congr hp₁ false) true
  rw [pipesGranted, pipesGranted, hready]

theorem pipesGranted_shSetExit (σ : Shell) (code : Int) :
    (σ.shSetExit code).pipesGranted = σ.pipesGranted := pipesGranted_congr rfl rfl

end Shell

open Shell in
theorem Pipeline.step_pipes {commands : Commands} {st : Pipeline.St}
    {r : Pipeline.St ⊕ (Int × Buf × Shell)} (h : Pipeline.step commands st = some r) :
    KeepsPipes st.σ (match r with | .inl st' => st'.σ | .inr (_, _, σ) => σ) := by
  rw [Pipeline.step] at h
  split at h
  · cases h
  split at h
  · simp only at h
    split at h
    · cases h
    · rename_i hrun
      have K := runSegment_pipes hrun
      split at h
      · obtain rfl := Option.some.inj h
        exact K
      · obtain rfl := Option.some.inj h
        exact fun i hi => clearPipe_pipes _ _ i (K i hi)
  · obtain rfl := Option.some.inj h
    exact .of_eq rfl

namespace Shell

variable {σ σ' τ : Shell} {commands : Commands} {line line' : Buf} {len : Nat} {rc : Int}

theorem execPipeline_pipes (hg : σ.pipesGranted = true)
    (h : execPipeline commands line len σ = some (rc, line', σ')) : σ'.HasPipes := by
  rw [execPipeline] at h
  split at h
  · cases h
  · obtain ⟨⟨r, l, υ⟩, hr, he⟩ := Option.map_eq_some_iff.mp h
    obtain ⟨-, -, rfl⟩ : r = rc ∧ l = line' ∧ υ.pipesDone = σ' := by simpa using he
    obtain ⟨st, hst, hdone⟩ := Loop.exec_sound hr
    have hinv := hst.inv (I := fun st => st.σ.HasPipes)
      (fun _ _ hI hs => hI.keeps (Pipeline.step_pipes hs)) (pipesGranted_iff.mp hg)
    exact (hinv.keeps (Pipeline.step_pipes hdone)).keeps (.of_eq rfl)

/-- A line leaves the buffers granted for the next one. -/
theorem execLine_pipes {st : ExecLine.St} {r : ExecLine.St ⊕ ExecLine.St}
    (hg : st.σ.pipesGranted = true) (h : ExecLine.step commands st = some r) :
    (r.elim ExecLine.St.σ ExecLine.St.σ).pipesGranted = true := by
  have hseg : ∀ {kind : Option Op} {st' : ExecLine.St},
      ExecLine.segment commands st kind = some st' → st'.σ.pipesGranted = true := by
    intro kind st' hs
    rw [ExecLine.segment] at hs
    split at hs
    · obtain rfl := Option.some.inj hs
      exact hg
    split at hs
    · split at hs
      · cases hs
      · rename_i hx
        obtain rfl := Option.some.inj hs
        exact (pipesGranted_shSetExit _ _).trans (execPipeline_pipes hg hx).granted
    · obtain rfl := Option.some.inj hs
      exact (pipesGranted_shSetExit _ _).trans hg
  have hadv : ∀ {st' : ExecLine.St} {skip : Nat}, st'.σ.pipesGranted = true →
      ExecLine.advance st' skip = some r → (r.elim ExecLine.St.σ ExecLine.St.σ).pipesGranted = true := by
    intro st' skip hg' ha
    rw [ExecLine.advance] at ha
    split at ha
    · cases ha
    split at ha
    · obtain rfl := Option.some.inj ha
      exact hg'
    · obtain rfl := Option.some.inj ha
      exact hg'
  rw [ExecLine.step] at h
  split at h
  · cases h
  split at h
  · split at h
    · cases h
    · rename_i hs
      exact hadv (hseg hs) h
  split at h
  · split at h
    · cases h
    · rename_i hs
      exact hadv (hseg hs) h
  · split at h
    · obtain rfl := Option.some.inj h
      exact hg
    · obtain rfl := Option.some.inj h
      exact hg

/-! ## Every state in which a line calls `out_raw` has its buffers -/

theorem SegmentOuts.pipes {cl : Cmdline (List Char)} {doPipe : Bool}
    (H : SegmentOuts commands cl doPipe σ τ) : KeepsPipes σ τ := by
  have K := beforeRedirs_pipes σ doPipe
  cases H with
  | message H => exact K.trans (H.pipes)
  | command h H => exact (K.trans (applyRedirs_pipes h)).trans (H.pipes)

theorem PipelineOuts.hasPipes (H : PipelineOuts commands line len σ τ)
    (hg : σ.pipesGranted = true) : τ.HasPipes := by
  cases H with
  | @stage line' rest st c last σ₁ τ cl ram hline hst hc hlast hσ htok hne H =>
    have hinv := hst.inv (I := fun st => st.σ.HasPipes)
      (fun _ _ hI hs => hI.keeps (Pipeline.step_pipes hs)) (pipesGranted_iff.mp hg)
    have hinv₁ : σ₁.HasPipes := hσ ▸ hinv
    exact HasPipes.keeps (σ := { σ₁ with vfs := { σ₁.vfs with ram } }) hinv₁
      (SegmentOuts.pipes H)

theorem LineOuts.hasPipes (H : LineOuts commands line σ τ) (hg : σ.pipesGranted = true) :
    τ.HasPipes := by
  cases H with
  | segment hfirst hc hst hkind hlen hrun H =>
    exact PipelineOuts.hasPipes H (hst.inv (I := fun st => st.σ.pipesGranted = true)
      (fun _ _ hI hs => execLine_pipes hI hs) hg)

end Shell

/-! ## Runs in which the requests are granted -/

namespace Session

variable {commands : Commands} {rest : List Char} {s s' t : Session} {c n : Int}

/-- If the next step enters a line: its copy for the history, and the pipe buffers that are not
there yet, will be granted. -/
def Granted (s : Session) : Bool :=
  match s.entered with
  | none => true
  | some t => t.submit.1.isSome && t.submit.2.pipesGranted

/-- The step, if the condition is met. -/
def grantedStep (commands : Commands) (rest : List Char) (s : Session) : Option (Unit × Session) :=
  if s.Granted then step commands rest s else none

/-- No entry of the history is null. -/
def NoNull (s : Session) : Prop := ∀ h ∈ s.history, h ≠ none

theorem fetch_history {i : Nat} (h : s.fetch i = some t) : t.history = s.history := by
  rw [fetch] at h
  split at h
  · obtain ⟨sh, -, rfl⟩ := Option.map_eq_some_iff.mp h
    rfl
  · cases h

theorem erase_history (h : s.erase = some t) : t.history = s.history := by
  obtain ⟨sh, -, rfl⟩ := Option.map_eq_some_iff.mp h
  rfl

theorem eraseFetch_history {i : Nat} (h : (s.erase.bind fun s => s.fetch i) = some t) :
    t.history = s.history := by
  obtain ⟨u, hu, h⟩ := Option.bind_eq_some_iff.mp h
  exact (fetch_history h).trans (erase_history hu)

/-- What the answer `c` of `sh_getc` can come to. -/
inductive Keyed (c : Int) (s : Session) : Session ⊕ (Int × Session) → Prop
  | ignored : Keyed c s (.inl s)
  | ends (h : c < 0 ∨ c = KB_CTRL_D) : Keyed c s (.inr (-1, s))
  | enter {sh : Shell} (h : isEnter c = true) (hsh : s.sh.shPuts ['\n'] = some sh) :
    Keyed c s (.inr (s.line.length, { s with sh }))
  | rubbed {sh : Shell} (hsh : s.sh.shPuts rubout = some sh) :
    Keyed c s (.inl { s with sh, line := s.line.dropLast })
  | interrupted {sh : Shell} (hsh : s.sh.shPuts "^C\n".toList = some sh) :
    Keyed c s (.inr (0, { s with sh := sh.shSetExit 130, line := [] }))
  | recalled {t : Session} {i : Nat} (h : (s.erase.bind fun s => s.fetch i) = some t) :
    Keyed c s (.inl t)
  | left {t : Session} (h : s.erase = some t) :
    Keyed c s (.inl { t with histPos := t.history.length })
  | letter {sh : Shell} (h : 32 ≤ c ∧ c < 127) (hsh : s.sh.shPuts [Char.ofNat c.toNat] = some sh) :
    Keyed c s (.inl { s with sh, line := s.line ++ [Char.ofNat c.toNat] })

theorem readlineKey_keyed {r : Session ⊕ (Int × Session)} (h : readlineKey c s = some r) :
    Keyed c s r := by
  rw [readlineKey] at h
  by_cases hneg : c < 0
  · rw [if_pos hneg] at h
    exact Option.some.inj h ▸ .ends (.inl hneg)
  rw [if_neg hneg] at h
  by_cases henter : isEnter c = true
  · rw [if_pos henter] at h
    obtain ⟨sh, hsh, rfl⟩ := Option.map_eq_some_iff.mp h
    exact .enter henter hsh
  rw [if_neg henter] at h
  by_cases hrub : c = '\x08'.toNat
  · rw [if_pos hrub] at h
    by_cases hline : s.line = []
    · rw [if_pos hline] at h
      exact Option.some.inj h ▸ .ignored
    · rw [if_neg hline] at h
      obtain ⟨sh, hsh, rfl⟩ := Option.map_eq_some_iff.mp h
      exact .rubbed hsh
  rw [if_neg hrub] at h
  by_cases hctrlD : c = KB_CTRL_D
  · rw [if_pos hctrlD] at h
    exact Option.some.inj h ▸ .ends (.inr hctrlD)
  rw [if_neg hctrlD] at h
  by_cases hctrlC : c = KB_CTRL_C
  · rw [if_pos hctrlC] at h
    obtain ⟨sh, hsh, rfl⟩ := Option.map_eq_some_iff.mp h
    exact .interrupted hsh
  rw [if_neg hctrlC] at h
  by_cases hup : c = KB_KEY_UP
  · rw [if_pos hup] at h
    cases hi : s.recalled c with
    | none =>
      rw [hi] at h
      exact Option.some.inj h ▸ .ignored
    | some i =>
      rw [hi] at h
      obtain ⟨t, ht, rfl⟩ := Option.map_eq_some_iff.mp h
      exact .recalled ht
  rw [if_neg hup] at h
  by_cases hdown : c = KB_KEY_DOWN
  · rw [if_pos hdown] at h
    cases hi : s.recalled c with
    | none =>
      rw [hi] at h
      obtain ⟨t, ht, rfl⟩ := Option.map_eq_some_iff.mp h
      exact .left ht
    | some i =>
      rw [hi] at h
      obtain ⟨t, ht, rfl⟩ := Option.map_eq_some_iff.mp h
      exact .recalled ht
  rw [if_neg hdown] at h
  by_cases hprint : 32 ≤ c ∧ c < 127
  · rw [if_pos hprint] at h
    by_cases hroom : s.line.length < LINE_MAX - 1
    · rw [if_pos hroom] at h
      obtain ⟨sh, hsh, rfl⟩ := Option.map_eq_some_iff.mp h
      exact .letter hprint hsh
    · rw [if_neg hroom] at h
      exact Option.some.inj h ▸ .ignored
  · rw [if_neg hprint] at h
    exact Option.some.inj h ▸ .ignored

theorem readlineKey_inl (h : readlineKey c s = some (.inl t)) : t.history = s.history := by
  cases readlineKey_keyed h with
  | ignored => rfl
  | rubbed hsh => rfl
  | recalled ht => exact eraseFetch_history ht
  | left ht => exact (erase_history ht : _ = s.history)
  | letter hprint hsh => rfl

/-- `sh_readline` returns a length for Enter only. -/
theorem readlineKey_inr (h : readlineKey c s = some (.inr (n, t))) : t.history = s.history ∧
    (n < 0 ∨ n = 0 ∨ isEnter c = true ∧ n = s.line.length ∧
      (s.sh.shPuts ['\n']).map (fun sh => { s with sh }) = some t) := by
  cases readlineKey_keyed h with
  | ends he => exact ⟨rfl, .inl (by decide)⟩
  | enter henter hsh => exact ⟨rfl, .inr (.inr ⟨henter, rfl, by rw [hsh]; rfl⟩)⟩
  | interrupted hsh => exact ⟨rfl, .inr (.inl rfl)⟩

theorem addHistory_noNull {history : List (Option (List Char))} {copy : Option (List Char)}
    (h : ∀ x ∈ history, x ≠ none) (hc : copy ≠ none) :
    ∀ x ∈ addHistory history copy, x ≠ none := by
  intro x hx
  rw [addHistory] at hx
  split at hx
  · rcases List.mem_append.mp hx with hx | hx
    · exact h x hx
    · exact List.mem_singleton.mp hx ▸ hc
  · rcases List.mem_append.mp hx with hx | hx
    · exact h x (List.mem_of_mem_drop hx)
    · exact List.mem_singleton.mp hx ▸ hc

/-- A step whose requests are granted puts no null pointer into the history. -/
theorem grantedStep_noNull (hN : s.NoNull) (h : grantedStep commands rest s = some ((), s')) :
    s'.NoNull := by
  rw [grantedStep] at h
  split at h
  swap
  · cases h
  rename_i hg
  rw [step] at h
  split at h
  · cases h
  split at h
  · cases h
  rename_i c sh hc
  split at h
  · cases h
  · rename_i u hu
    obtain ⟨-, rfl⟩ := Prod.mk.inj (Option.some.inj h)
    rw [NoNull, readlineKey_inl hu]
    exact hN
  · rename_i n u hu
    obtain ⟨w, hw, he⟩ := Option.map_eq_some_iff.mp h
    obtain ⟨-, rfl⟩ := Prod.mk.inj he
    obtain ⟨hhist, hn⟩ := readlineKey_inr hu
    have hNu : ∀ x ∈ u.history, x ≠ none := by
      rw [hhist]
      exact hN
    rw [returned] at hw
    split at hw
    · obtain ⟨sh', -, rfl⟩ := Option.map_eq_some_iff.mp hw
      exact hNu
    rename_i hn0
    split at hw
    · obtain rfl := Option.some.inj hw
      exact hNu
    rename_i hne
    rw [not_or] at hne
    split at hw
    · cases hw
    · obtain rfl := Option.some.inj hw
      -- only Enter comes here, and its copy was granted
      rcases hn with hn | hn | ⟨henter, hlen, hu'⟩
      · exact absurd hn hn0
      · exact absurd hn hne.1
      have hline : s.line ≠ [] := by
        intro hnil
        apply hne.1
        rw [hlen]
        simp [hnil]
      have hu'' : u.line = s.line := by
        obtain ⟨sh', -, rfl⟩ := Option.map_eq_some_iff.mp hu'
        rfl
      have hent : s.entered = some u := by
        rw [entered, hc]
        simp only
        rw [if_pos ⟨henter, hline, hu'' ▸ hne.2⟩]
        exact hu'
      rw [Granted, hent, Bool.and_eq_true] at hg
      exact addHistory_noNull hNu (Option.isSome_iff_ne_none.mp hg.1)

/-- And it does not go through one. -/
theorem not_nullDeref (hN : s.NoNull) (hg : s.Granted = true) : ¬ s.NullDeref commands rest := by
  rintro (⟨c, sh, i, -, -, hi⟩ | ⟨t, τ, ht, hτ, hnull⟩)
  · exact hN none (List.mem_of_getElem? hi) rfl
  · rw [Granted, ht, Bool.and_eq_true] at hg
    exact (Shell.LineOuts.hasPipes hτ hg.2).not_nullOut hnull

/-- In front of the first key: `keys` is what `keyboard_get` will return. -/
def start (vfs : Vfs) (keys : Nat → Int) : Session :=
  ⟨{ bootShell with vfs, keys }, [], 0, [], false⟩

theorem run_noNull {vfs : Vfs} {keys : Nat → Int} {tr : List (List Char × Unit)}
    (h : Trace.Run (grantedStep commands) (start vfs keys) tr s) : s.NoNull :=
  h.inv (fun _ _ _ _ hN hs => grantedStep_noNull hN hs) fun _ hx => by cases hx

end Session

/-- Null pointers of refused requests. `vfs_init` follows none on the heap it is given,
`read_all_stdin` none at all, `split_lines` none when each of its requests is granted. A session may
begin with any heap; while its entered lines get their copy for the history, and the pipe buffers
that are not there yet, no step goes through a null pointer, whatever the commands do. -/
theorem session_nullSafe (commands : Commands) :
    (∀ kb mem, (Vfs.vfsInit { heap := Kheap.kheapInit kb, deny := fun _ => false, mem }).isSome) ∧
    (∀ input r, (readAllStdin input r).isSome) ∧
    (∀ data r, (splitLines data r).isSome ↔
      ∀ text, data = some text → text ≠ [] → r.grantsAll (lineRequests text)) ∧
    ∀ vfs keys tr s, Trace.Run (Session.grantedStep commands) (Session.start vfs keys) tr s →
      s.Granted = true → ∀ rest, ¬ s.NullDeref commands rest :=
  ⟨Vfs.vfsInit_fresh, readAllStdin_isSome, splitLines_isSome,
    fun _ _ _ _ h hg _ => Session.not_nullDeref (Session.run_noNull h) hg⟩

/-- Enter after one letter, and nothing more. -/
theorem session_nullSafe_letter : ∃ tr s,
    Trace.Run (Session.grantedStep printCommands)
      (Session.start bootVfs fun i => [97, 10].getD i (-1)) tr s ∧
    s.history = [some ['a']] ∧ ∀ rest, ¬ s.NullDeref printCommands rest := by
  have h : (Trace.exec (Session.grantedStep printCommands) [[], []]
      (Session.start bootVfs fun i => [97, 10].getD i (-1))).any
        fun r => r.2.Granted = true ∧ r.2.history = [some ['a']] := by
    rw [bootVfs_spelled]
    decide +kernel
  obtain ⟨⟨tr, s⟩, hs, hg, hhist⟩ := exists_of_any h
  have hrun := Trace.Run.of_exec _ hs
  exact ⟨tr, s, hrun, hhist, (session_nullSafe printCommands).2.2.2 _ _ _ _ hrun hg⟩

/-- Nothing is left on the heap. -/
def heapFull : Vfs := { bootVfs with ram := bootVfs.ram.fill 0 }

theorem heapFull_running : Running heapFull := by
  have hfit : bootVfs.ram.heap.used + 0 ≤ bootVfs.ram.heap.total := by
    rw [bootVfs_spelled]
    decide +kernel
  rw [heapFull]
  exact .alloc (.boot bootVfs_booted) (.fill bootVfs_booted.heapOk.ram hfit)

/-- One letter, Enter and the up key: the copy of the line was refused, and `strncpy` reads it. -/
theorem recall_null : ¬ ∀ (commands : Commands) (vfs : Vfs) (keys : Nat → Int) (tr : _)
    (s : Session) (rest : List Char), Running vfs →
    Trace.Run (Session.step commands) (Session.start vfs keys) tr s →
    ¬ s.NullDeref commands rest := by
  intro H
  have h : (Trace.exec (Session.step printCommands) [[], []]
      (Session.start heapFull fun i => [97, 10, KB_KEY_UP].getD i (-1))).any fun r =>
        r.2.sh.shGetc.any fun k => r.2.recalled k.1 = some 0 ∧ r.2.history[0]? = some none := by
    rw [heapFull, bootVfs_spelled]
    decide +kernel
  obtain ⟨⟨tr, s⟩, hs, hr⟩ := (Option.any_eq_true _ _).mp h
  obtain ⟨⟨c, sh⟩, hc, hi, hnull⟩ := exists_of_any hr
  exact H _ _ _ _ _ [] heapFull_running (Trace.Run.of_exec _ hs) (.inl ⟨c, sh, 0, hc, hi, hnull⟩)

end BojanOS
