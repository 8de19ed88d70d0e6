import BojanOS.Cmds.Files
import BojanOS.Cmds.Text
import BojanOS.Cmds.Print
import Mathlib.Data.List.TakeWhile

/-!
# Arguments and input of the text commands (`open_input`)

Most commands take option words in front of their operands, and the commands that read text read a
file or the standard input. `Opens` says which text such a command gets, `Prints` what it puts out.
-/

namespace BojanOS

/-! ## Options -/

/-- `a->argv[idx][0] == '-' && a->argv[idx][1]` -/
def isOption (w : List Char) : Bool := w.head? = some '-' ∧ 2 ≤ w.length

/-- The loop over the option words, with the letters in them and the operands that are left. -/
def options : List (List Char) → List Char × List (List Char)
  | [] => ([], [])
  | w :: ws =>
    if isOption w then
      let (letters, operands) := options ws
      (w.drop 1 ++ letters, operands)
    else ([], w :: ws)

theorem rmFlags_eq (ws : List (List Char)) : rmFlags ws =
    ((options ws).1.any fun c => c = 'r' ∨ c = 'R' ∨ c = 'f', (options ws).2) := by
  induction ws with
  | nil => rfl
  | cons w ws ih =>
    rw [rmFlags, options, ih]
    by_cases hw : w.head? = some '-' ∧ 2 ≤ w.length
    · have hopt : isOption w = true := decide_eq_true hw
      rw [if_pos hw, if_pos hopt, List.any_append]
    · have hopt : ¬ isOption w = true := fun h => hw (of_decide_eq_true h)
      rw [if_neg hw, if_neg hopt]
      rfl

/-! ## C strings -/

/-- The string at the address of some bytes: what is in front of the first terminator. -/
def untilNul (s : List Char) : List Char := s.takeWhile (· ≠ NUL)

theorem untilNul_cons (c : Char) (s : List Char) :
    untilNul (c :: s) = if c = NUL then [] else c :: untilNul s := by
  rw [untilNul, List.takeWhile_cons, untilNul]
  by_cases hc : c = NUL
  · simp [hc]
  · simp [hc]

theorem untilNul_eq_self {s : List Char} (h : NUL ∉ s) : untilNul s = s := by
  apply List.takeWhile_eq_self_iff.mpr
  intro c hc
  exact decide_eq_true fun hn => h (hn ▸ hc)

/-! ## Lines -/

/-- Each line with its newline. -/
def unlines (ls : List (List Char)) : List Char := ls.flatMap (· ++ ['\n'])

theorem addLine_eq {lines : Option Nat} {line : List Char} {out ls : List (List Char)} {r r' : Ram}
    (h : addLine lines line out r = some (ls, r')) : ls = out ++ [line] := by
  rw [addLine] at h
  split at h
  · cases h
  split at h
  · cases h
  · exact (Prod.mk.inj (Option.some.inj h)).1.symm

theorem splitLoop_eq {lines : Option Nat} {text line : List Char} {out ls : List (List Char)}
    {r r' : Ram} (h : splitLoop lines text line out r = some (ls, r')) :
    ls = out ++ lineTexts line text := by
  induction text generalizing line out r with
  | nil =>
    rw [splitLoop] at h
    rw [lineTexts]
    split at h
    · rename_i hl
      rw [if_pos hl, List.append_nil]
      exact (Prod.mk.inj (Option.some.inj h)).1.symm
    · rename_i hl
      rw [if_neg hl]
      exact addLine_eq h
  | cons c text ih =>
    rw [splitLoop] at h
    rw [lineTexts]
    split at h
    · rename_i hc
      rw [if_pos hc]
      split at h
      · cases h
      · rename_i out₁ r₁ h₁
        rw [ih h, addLine_eq h₁, List.append_assoc]
        rfl
    · rename_i hc
      rw [if_neg hc]
      exact ih h

/-- The lines are the pieces between the newlines, whatever else is in the text. -/
theorem splitLines_eq {data : Option (List Char)} {ls : List (List Char)} {r r' : Ram}
    (h : splitLines data r = some (ls, r')) : ls = lineTexts [] (data.getD []) := by
  rcases data with _ | _ | ⟨c, text⟩
  · exact (Prod.mk.inj (Option.some.inj h)).1.symm
  · exact (Prod.mk.inj (Option.some.inj h)).1.symm
  · exact splitLoop_eq h

theorem lineTexts_append {l : List Char} (hl : '\n' ∉ l) (line text : List Char) :
    lineTexts line (l ++ text) = lineTexts (line ++ l) text := by
  induction l generalizing line with
  | nil => rw [List.nil_append, List.append_nil]
  | cons c l ih =>
    have hc : c ≠ '\n' := fun h => hl (h ▸ List.mem_cons_self)
    rw [List.cons_append, lineTexts, if_neg hc, ih fun h => hl (List.mem_cons_of_mem c h),
      List.append_assoc]
    rfl

/-- What is printed as lines is read as the same lines. -/
theorem lineTexts_unlines {ls : List (List Char)} (h : ∀ l ∈ ls, '\n' ∉ l) :
    lineTexts [] (unlines ls) = ls := by
  induction ls with
  | nil => rfl
  | cons l ls ih =>
    have hl : '\n' ∉ l := h l List.mem_cons_self
    have hls : lineTexts [] (unlines ls) = ls := ih fun l' hl' => h l' (List.mem_cons_of_mem l hl')
    rw [unlines, List.flatMap_cons, List.append_assoc, lineTexts_append hl, List.nil_append,
      List.singleton_append, lineTexts, if_pos rfl]
    exact congrArg _ hls

theorem mem_lineTexts {line text l : List Char} {c : Char} (hl : l ∈ lineTexts line text)
    (hc : c ∈ l) : c ∈ line ∨ c ∈ text ∧ c ≠ '\n' := by
  induction text generalizing line with
  | nil =>
    rw [lineTexts] at hl
    split at hl
    · cases hl
    · exact .inl (List.mem_singleton.mp hl ▸ hc)
  | cons x text ih =>
    have hstep : c ∈ text ∧ c ≠ '\n' → c ∈ x :: text ∧ c ≠ '\n' := fun h =>
      ⟨List.mem_cons_of_mem x h.1, h.2⟩
    rw [lineTexts] at hl
    split at hl
    · rcases List.mem_cons.mp hl with rfl | hl
      · exact .inl hc
      · exact .inr (hstep ((ih hl).resolve_left List.not_mem_nil))
    · rename_i hx
      rcases ih hl with h | h
      · rcases List.mem_append.mp h with h | h
        · exact .inl h
        · obtain rfl := List.mem_singleton.mp h
          exact .inr ⟨List.mem_cons_self, hx⟩
      · exact .inr (hstep h)

theorem newline_notMem {text l : List Char} (hl : l ∈ lineTexts [] text) : '\n' ∉ l := fun h =>
  ((mem_lineTexts hl h).resolve_left List.not_mem_nil).2 rfl

theorem nul_notMem {text l : List Char} (hn : NUL ∉ text) (hl : l ∈ lineTexts [] text) :
    NUL ∉ l := fun h => hn ((mem_lineTexts hl h).resolve_left List.not_mem_nil).1

/-! ## `open_input` -/

namespace Prog

/-- The loop of `read_all_stdin` over `sh_getc`; `(char)c` is the low byte. The fuel bounds the
number of calls. -/
def readStdin : Nat → Buffer → Prog Buffer
  | 0, _ => .fault
  | k + 1, b => getc fun c =>
    if c < 0 then pure b
    else do
      let b ← fs fun v => (bufPutc b (Char.ofNat (c % 256).toNat) v.ram).map fun (b, ram) =>
        (b, { v with ram })
      readStdin k b

/-- `f.data[0 .. f.size)`, which is null where nothing was allocated, and then of size 0 also for a
file (`Buffers.noData`); `none` for the answer 0. -/
def openInput (fuel : Nat) (path : Option (List Char)) : Prog (Option (Option (List Char))) :=
  match path with
  | none => do
    let b ← readStdin fuel .init
    pure (if b.data ≠ none ∨ b.bytes = [] then some (b.data.map fun _ => b.bytes) else none)
  | some path => do
    let v ← vfs
    match (v.vfsResolve path).filter fun n => (v.node n).type = .file with
    | none => do
      puts (path ++ ": no such file\n".toList)
      pure none
    | some n => pure (some ((v.node n).data.map fun _ => v.contents n))

/-- `split_lines(f.data, f.size, &lines, &lc);` -/
def splitInput (data : Option (List Char)) : Prog (List (List Char)) :=
  fs fun v => (splitLines data v.ram).map fun (ls, ram) => (ls, { v with ram })

/-- `if (!open_input(&f, path)) return bad;` and `split_lines` in front of what is done with the
lines. -/
def onLines (fuel : Nat) (path : Option (List Char)) (bad : Int)
    (body : List (List Char) → Prog Int) : Prog Int := do
  match ← openInput fuel path with
  | none => pure bad
  | some data => do
    let lines ← splitInput data
    body lines

/-- `sh_puts(line); sh_putc('\n');` -/
def putLine (line : List Char) : Prog Unit := do
  puts (untilNul line)
  shPutc '\n'

@[simp] theorem emits_putLine (line : List Char) :
    (putLine line).emits = some (untilNul line ++ ['\n'], ()) := by
  simp [putLine]

end Prog

/-- `open_input` gives the text, and leaves `σ₁` behind. -/
def Opens (fuel : Nat) (path : Option (List Char)) (σ : Shell) (text : List Char) (σ₁ : Shell) :
    Prop :=
  ∃ data, (Prog.openInput fuel path).run σ = some (some data, σ₁) ∧ data.getD [] = text

/-- `split_lines` gets all the memory that it asks for; the answer for an empty text is not
needed. -/
def GrantsLines (text : List Char) (σ : Shell) : Prop :=
  text ≠ [] → σ.vfs.ram.grantsAll (lineRequests text) = true

instance (text : List Char) (σ : Shell) : Decidable (GrantsLines text σ) :=
  inferInstanceAs (Decidable (_ → _))

/-- Up to what is allocated, the program does what writing `out` in the state `σ₁` does, and it
answers `rc`. -/
def Prints (p : Prog Int) (σ σ₁ : Shell) (out : List Char) (rc : Int) : Prop :=
  ∃ ram, p.run σ =
    (({ σ₁ with vfs := { σ₁.vfs with ram } } : Shell).shPuts out).map fun σ => (rc, σ)

theorem opens_file {fuel : Nat} {path : List Char} {σ : Shell} {n : Nat}
    (hn : σ.vfs.vfsResolve path = some n) (hf : (σ.vfs.node n).type = .file) :
    Opens fuel (some path) σ (σ.vfs.contents n) σ := by
  refine ⟨(σ.vfs.node n).data.map fun _ => σ.vfs.contents n, ?_, ?_⟩
  · rw [Prog.openInput, Prog.run_bind, Prog.run_vfs, Option.bind_some, hn, Option.filter_some,
      if_pos (decide_eq_true hf)]
    rfl
  · cases hd : (σ.vfs.node n).data with
    | none => rw [Vfs.contents, hd]; rfl
    | some d => rfl

theorem onLines_prints {fuel : Nat} {path : Option (List Char)} {bad rc : Int}
    {body : List (List Char) → Prog Int} {σ σ₁ : Shell} {text out : List Char}
    (hin : Opens fuel path σ text σ₁) (hmem : GrantsLines text σ₁)
    (hbody : (body (lineTexts [] text)).emits = some (out, rc)) :
    Prints (Prog.onLines fuel path bad body) σ σ₁ out rc := by
  obtain ⟨data, hopen, rfl⟩ := hin
  have hsome : (splitLines data σ₁.vfs.ram).isSome := by
    apply (splitLines_isSome _ _).mpr
    intro text ht hne
    subst ht
    exact hmem hne
  obtain ⟨⟨ls, ram⟩, hls⟩ := Option.isSome_iff_exists.mp hsome
  obtain rfl := splitLines_eq hls
  refine ⟨ram, ?_⟩
  rw [Prog.onLines, Prog.run_bind, hopen, Option.bind_some, Prog.run_bind, Prog.splitInput,
    Prog.run_fs, hls]
  exact Prog.run_of_emits hbody _

theorem shPuts_console {σ : Shell} (hout : σ.outFile = none) (hpipe : σ.pipeWriting = false)
    (s : List Char) : σ.shPuts s = some { σ with console := σ.console ++ s } := by
  induction s generalizing σ with
  | nil => rw [List.append_nil]; rfl
  | cons c s ih =>
    have hc : σ.outRaw c = some { σ with console := σ.console ++ [c] } := by
      rw [Shell.outRaw, hout]
      simp [hpipe]
    have hs := ih (σ := { σ with console := σ.console ++ [c] }) hout hpipe
    rw [Shell.shPuts, List.foldlM_cons, hc, Option.bind_eq_bind, Option.bind_some]
    rw [Shell.shPuts] at hs
    rw [hs, List.append_assoc]
    rfl

/-- On the console it can be seen what was printed. -/
theorem Prints.unique {p : Prog Int} {σ σ₁ : Shell} {s t : List Char} {a b : Int}
    (hout : σ₁.outFile = none) (hpipe : σ₁.pipeWriting = false) (hs : Prints p σ σ₁ s a)
    (ht : Prints p σ σ₁ t b) : s = t ∧ a = b := by
  obtain ⟨r, hs⟩ := hs
  obtain ⟨r', ht⟩ := ht
  rw [shPuts_console (by exact hout) (by exact hpipe)] at hs ht
  have h := hs.symm.trans ht
  obtain ⟨hab, hst⟩ := Prod.mk.inj (Option.some.inj h)
  exact ⟨List.append_cancel_left (congrArg Shell.console hst), hab⟩

/-- A file of several lines that is there after the boot. -/
theorem opens_osRelease :
    Opens 0 (some "/etc/os-release".toList) bootShell Vfs.osReleaseText bootShell ∧
      GrantsLines Vfs.osReleaseText bootShell ∧ NUL ∉ Vfs.osReleaseText := by
  have h : bootShell.vfs.vfsResolve "/etc/os-release".toList = some 11 ∧
      (bootShell.vfs.node 11).type = .file ∧
      bootShell.vfs.contents 11 = Vfs.osReleaseText ∧
      GrantsLines Vfs.osReleaseText bootShell ∧ NUL ∉ Vfs.osReleaseText := by
    rw [bootShell_spelled, spelledOsRelease.property]
    decide +kernel
  obtain ⟨hn, hf, htext, hrest⟩ := h
  rw [← htext] at hrest ⊢
  exact ⟨opens_file hn hf, hrest⟩

/-- A shell whose next command reads the text from a pipe. -/
def pipedShell (text : List Char) : Shell :=
  { bootShell with pipes := fun _ => ⟨true, text⟩, pipeReader := some false }

theorem opens_piped {fuel : Nat} {text : List Char}
    (h : ((Prog.openInput fuel none).run (pipedShell text)).any fun r =>
      (r.1.any fun data => data.getD [] = text) ∧ GrantsLines text r.2 ∧ r.2.outFile = none ∧
        r.2.pipeWriting = false) :
    ∃ σ₁, Opens fuel none (pipedShell text) text σ₁ ∧ GrantsLines text σ₁ ∧ σ₁.outFile = none ∧
      σ₁.pipeWriting = false := by
  obtain ⟨⟨o, σ₁⟩, hrun, ho, hrest⟩ := exists_of_any h
  obtain ⟨data, rfl, hdata⟩ := (Option.any_eq_true _ _).mp ho
  exact ⟨σ₁, ⟨data, hrun, of_decide_eq_true hdata⟩, hrest⟩

end BojanOS
