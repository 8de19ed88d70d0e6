import BojanOS.Cmds.InFile
import BojanOS.Shell.Output

/-!
# Files that are read while they grow

A command that reads a file has the pointer and the size that the file had when it was opened. If
its output is appended to the same file, `vfs_append_file` writes behind that size, or it moves the
bytes to a fresh block and leaves the old one as it is. So the command sees what was in the file at
first (`snapshot`).
-/

namespace BojanOS

/-! ## Bytes that no file writes to -/

namespace Vfs

variable {s s₁ s' : Vfs} {d k n e len need off : Nat} {src : Src}

/-- The `k` bytes at `d` are taken, and they are not in the free part of any buffer. -/
structure Held (s : Vfs) (d k : Nat) : Prop where
  below : d + k ≤ s.ram.heap.used
  clear : ∀ m e, (s.node m).data = some e →
    d + k ≤ e + (s.node m).size ∨ e + (s.node m).cap ≤ d

theorem HeapOk.held (H : HeapOk s) (hd : (s.node n).data = some d) :
    Held s d (s.node n).size where
  below := by
    have := H.below hd
    have := H.room hd
    omega
  clear m e he := by
    have := H.room hd
    rcases eq_or_ne m n with rfl | hm
    · obtain rfl : d = e := Option.some.inj (hd.symm.trans he)
      exact .inl le_rfl
    · have := H.apart hm he hd
      omega

/-- The bytes at `d` are held, and they are the same. -/
structure Held.Same (s s' : Vfs) (d k : Nat) : Prop where
  held : Held s' d k
  mem : ∀ i < k, s'.ram.mem (d + i) = s.ram.mem (d + i)

/-- Room is made by moving the bytes of the file to the top of the heap. -/
theorem Held.growFile {o : Option Nat} (K : Held s d k) (B : Buffers s)
    (hneed : 0 < need ∧ need ≤ 2 ^ 62) (hg : s.growFile n need = (o, s₁)) :
    Held.Same s s₁ d k ∧ ∀ e, o = some e → (s₁.node n).data = some e ∧
      (s₁.node n).size = (s.node n).size ∧ need ≤ (s₁.node n).cap := by
  have hbelow := K.below
  rcases B.growFile_cases n hneed with ⟨e, hr, he, hcap⟩ | ⟨ram, hr, U⟩ |
    ⟨ram, cap, U, -, hcap, hused, hr⟩
  · obtain ⟨rfl, rfl⟩ := Prod.mk.inj (hr.symm.trans hg)
    refine ⟨⟨K, fun i _ => rfl⟩, fun e' he' => ?_⟩
    obtain rfl := Option.some.inj he'
    exact ⟨he, rfl, hcap⟩
  · obtain ⟨rfl, rfl⟩ := Prod.mk.inj (hr.symm.trans hg)
    refine ⟨⟨⟨K.below.trans U.used, K.clear⟩, fun i hi => U.mem _ (by omega)⟩, fun e' he' => ?_⟩
    cases he'
  · obtain ⟨rfl, rfl⟩ := Prod.mk.inj (hr.symm.trans hg)
    have hself : ∀ v, Function.update s.node n v n = v := fun v => Function.update_self _ _ _
    refine ⟨⟨⟨hbelow.trans U.used, fun m e he => ?_⟩, fun i hi => ?_⟩, fun e' he' => ?_⟩
    · simp only [setNode] at he ⊢
      rcases eq_or_ne m n with rfl | hm
      · rw [hself] at he ⊢
        obtain rfl := Option.some.inj he
        exact .inl (by omega)
      · rw [Function.update_of_ne hm] at he ⊢
        exact K.clear m e he
    · exact (moveData_old (by omega)).trans (U.mem _ (by omega))
    · obtain rfl := Option.some.inj he'
      simp only [setNode, hself]
      exact ⟨trivial, trivial, hcap⟩

/-- A copy behind the bytes of a file stays in its buffer. -/
theorem Held.storeFile (K : Held s d k) (he : (s.node n).data = some e)
    (hfit : (s.node n).size + len + 1 ≤ (s.node n).cap) :
    Held.Same s (s.storeFile n e (s.node n).size src len) d k := by
  have hclear := K.clear n e he
  refine ⟨⟨K.below, fun m e' he' => ?_⟩, fun i hi => ?_⟩
  · simp only [Vfs.storeFile, setNode] at he' ⊢
    rcases eq_or_ne m n with rfl | hm
    · rw [Function.update_self] at he' ⊢
      obtain rfl : e = e' := Option.some.inj (he.symm.trans he')
      exact hclear.imp_left fun h => by simp only; omega
    · rw [Function.update_of_ne hm] at he' ⊢
      exact K.clear m e' he'
  · exact (Function.update_of_ne (by omega) _ _).trans (memcpy_outside (by omega))

theorem Held.vfsAppendFile (K : Held s d k) (B : Buffers s) (hlen : len ≤ 2 ^ 60) :
    Held.Same s (s.vfsAppendFile n src len).2 d k := by
  have hsize := B.size_le n
  rw [Vfs.vfsAppendFile]
  split
  · exact ⟨K, fun i _ => rfl⟩
  rcases hg : s.growFile n ((s.node n).size + len + 1) with ⟨o, s₁⟩
  obtain ⟨G, hroom⟩ := K.growFile B (by omega) hg
  cases o with
  | none => exact G
  | some e =>
    obtain ⟨he, hs, hfit⟩ := hroom e rfl
    rw [← hs] at hfit
    have S : Held.Same s₁ (s₁.storeFile n e (s₁.node n).size src len) d k :=
      G.held.storeFile he hfit
    exact ⟨S.held, fun i hi => (S.mem i hi).trans (G.mem i hi)⟩

end Vfs

/-! ## States in which an open file can be read -/

namespace Shell

variable {σ σ' : Shell} {d n : Nat} {c : Char} {text s : List Char}

/-- The heap is in order, and the output file, if there is one, is in the tree. -/
structure Orderly (σ : Shell) : Prop where
  heapOk : σ.vfs.HeapOk
  outFile : ∀ f, σ.outFile = some f → f < σ.vfs.next

/-- The text is at `d`, and output does not go there. -/
structure Shows (d : Nat) (text : List Char) (σ : Shell) : Prop extends Orderly σ where
  held : σ.vfs.Held d text.length
  bytes : Arena.segment σ.vfs.ram.mem d text.length = text

theorem outRaw_vfs (h : σ.outRaw c = some σ') :
    σ'.vfs = σ.vfs ∨
      ∃ f, σ.outFile = some f ∧ σ'.vfs = (σ.vfs.vfsAppendFile f (.ext [c]) 1).2 := by
  cases hout : σ.outFile with
  | none => exact .inl (outRaw_quiet hout h)
  | some f =>
    rw [outRaw, hout] at h
    obtain rfl := Option.some.inj h
    exact .inr ⟨f, rfl, rfl⟩

theorem orderly_lasts : InFile.Lasts Orderly := by
  intro σ c σ' H h
  have hroute := (outRaw_routing h).outFile
  rcases outRaw_vfs h with hv | ⟨f, hout, hv⟩
  · exact ⟨hv ▸ H.heapOk, fun f hf => hv ▸ H.outFile f (hroute ▸ hf)⟩
  · have hlt := H.outFile f hout
    have S := σ.vfs.vfsAppendFile_sameTree f (.ext [c]) 1
    obtain ⟨H', -⟩ := H.heapOk.vfsAppendFile (show σ.vfs.Sound 1 (.ext [c]) from trivial)
      (by decide) hlt rfl
    refine ⟨hv ▸ H', fun g hg => ?_⟩
    rw [hv, S.next]
    exact H.outFile g (hroute ▸ hg)

theorem shows_lasts (d : Nat) (text : List Char) : InFile.Lasts (Shows d text) := by
  intro σ c σ' H h
  refine ⟨orderly_lasts H.toOrderly h, ?_, ?_⟩
  · rcases outRaw_vfs h with hv | ⟨f, -, hv⟩
    · exact hv ▸ H.held
    · rw [hv]
      exact (H.held.vfsAppendFile H.heapOk.toBuffers (by decide)).held
  · rcases outRaw_vfs h with hv | ⟨f, -, hv⟩
    · exact hv ▸ H.bytes
    · rw [hv]
      have S : Vfs.Held.Same σ.vfs (σ.vfs.vfsAppendFile f (.ext [c]) 1).2 d text.length :=
        H.held.vfsAppendFile H.heapOk.toBuffers (by decide)
      exact (Arena.segment_congr S.mem).trans H.bytes

theorem Orderly.shows (H : Orderly σ) (hd : (σ.vfs.node n).data = some d) :
    Shows d (σ.vfs.contents n) σ := by
  have hlen := H.heapOk.length_contents n
  refine ⟨H, ?_, ?_⟩
  · rw [hlen]
    exact H.heapOk.held hd
  · rw [hlen, Vfs.contents_eq hd]

end Shell

namespace InFile

open Shell Prog

variable {I : Shell → Prop} {f : InFile} {σ σ' : Shell} {text s : List Char} {n d fuel : Nat}
  {commands : Commands}

theorem Lasts.shPuts (hI : Lasts I) (hσ : I σ) (h : σ.shPuts s = some σ') : I σ' := by
  induction s generalizing σ with
  | nil => exact Option.some.inj h ▸ hσ
  | cons c s ih =>
    rw [Shell.shPuts, List.foldlM_cons] at h
    obtain ⟨τ, hτ, h⟩ := Option.bind_eq_some_iff.mp h
    exact ih (hI hσ hτ) h

theorem reads_ofNode {v : Vnode} (hd : v.data = some d) (hs : v.size = text.length) :
    Reads (Shows d text) (ofNode v) text where
  size := hs
  read i h σ H := by
    have hbyte : text[i]? = some (σ.vfs.ram.mem (d + i)) := by
      conv_lhs => rw [← H.bytes]
      simp [Arena.segment, h]
    rw [List.getElem?_eq_getElem h] at hbyte
    simp only [ofNode, hd]
    rw [run_bind, run_vfs, Option.bind_some, run_pure, ← Option.some.inj hbyte]

/-! ## The commands over the pointer and over a copy -/

/-- While a file is read, its pointer delivers what was in it when it was opened. -/
theorem reads_byPointer (H : Orderly σ) (n : Nat) : ∃ I, Lasts I ∧ I σ ∧ (∀ τ, I τ → Orderly τ) ∧
    Reads I (byPointer σ.vfs n) (σ.vfs.contents n) := by
  cases hd : (σ.vfs.node n).data with
  | none =>
    refine ⟨Orderly, orderly_lasts, H, fun τ h => h, ?_, fun i h => ?_⟩
    · rw [Vfs.contents_nil hd]
      exact (H.heapOk.noData hd).1
    · rw [Vfs.contents_nil hd] at h
      cases h
  | some d =>
    exact ⟨Shows d (σ.vfs.contents n), shows_lasts d _, H.shows hd, fun τ h => h.toOrderly,
      reads_ofNode hd (H.heapOk.length_contents n).symm⟩

theorem run_openInput (file : Vfs → Nat → InFile) (path : List Char) (σ : Shell) :
    (openInput file fuel (some path)).run σ =
      match (σ.vfs.vfsResolve path).filter fun n => (σ.vfs.node n).type = .file with
      | none => (σ.shPuts (path ++ ": no such file\n".toList)).map fun σ => (none, σ)
      | some n => some (some (file σ.vfs n), σ) := by
  rw [openInput, run_bind, run_vfs, Option.bind_some]
  simp only
  cases (σ.vfs.vfsResolve path).filter fun n => (σ.vfs.node n).type = .file with
  | none => exact run_say _ _ _
  | some n => rfl

/-- A command that opens one file. -/
theorem onInput_run (H : Orderly σ) {path : Option (List Char)} {body : InFile → Prog Int}
    (hbody : ∀ {I f text σ}, Lasts I → Reads I f text → I σ →
      (body f).run σ = (body (ofText text)).run σ) :
    (do match ← openInput byPointer fuel path with
      | none => pure 1
      | some f => body f).run σ =
    (do match ← openInput byValue fuel path with
      | none => pure 1
      | some f => body f).run σ := by
  cases path with
  | none => rfl
  | some path =>
    rw [run_bind, run_bind, run_openInput, run_openInput]
    split
    · rfl
    · rename_i n _
      obtain ⟨I, hI, hσ, -, hf⟩ := reads_byPointer H n
      exact hbody hI hf hσ

theorem catFiles_run (H : Orderly σ) (paths : List (List Char)) (rc : Int) :
    (catFiles byPointer fuel paths rc).run σ = (catFiles byValue fuel paths rc).run σ := by
  induction paths generalizing σ rc with
  | nil => rfl
  | cons path paths ih =>
    rw [catFiles, catFiles, run_bind, run_bind, run_openInput, run_openInput]
    split
    · -- the message can go to a file as well
      cases hm : σ.shPuts (path ++ ": no such file\n".toList) with
      | none => rfl
      | some τ => exact ih (orderly_lasts.shPuts H hm) 1
    · rename_i n _
      obtain ⟨I, hI, hσ, hord, hf⟩ := reads_byPointer H n
      simp only [Option.bind_some]
      rw [run_bind, run_bind, write_run hI hf hσ, byValue,
        write_run hI (reads_ofText I _) hσ, run_puts]
      cases ht : σ.shPuts (σ.vfs.contents n) with
      | none => rfl
      | some τ => exact ih (hord τ (hI.shPuts hσ ht)) rc

theorem cmdHead_run (H : Orderly σ) (argv : List (List Char)) :
    (cmdHead byPointer fuel argv).run σ = (cmdHead byValue fuel argv).run σ := by
  rw [cmdHead, cmdHead]
  rcases tailArgs argv with ⟨n, operands⟩
  apply onInput_run H
  intro I f text σ hI hf hσ
  have hcopy := reads_ofText I text
  rw [run_bind, run_bind, headLoop_run hI hf (by rw [hf.size]; omega) hσ,
    headLoop_run hI hcopy (by rw [hcopy.size]; omega) hσ]

theorem cmdTail_run (H : Orderly σ) (argv : List (List Char)) :
    (cmdTail byPointer fuel argv).run σ = (cmdTail byValue fuel argv).run σ := by
  rw [cmdTail, cmdTail]
  rcases tailArgs argv with ⟨n, operands⟩
  apply onInput_run H
  intro I f text σ hI hf hσ
  rw [run_bind, run_bind, tail_run hI hf hσ, tail_run hI (reads_ofText I text) hσ]

/-- `cmd_tail` does what it does in `Tail`, where the text is read as a whole. -/
theorem cmdTail_text (H : Orderly σ) (argv : List (List Char)) :
    (cmdTail byPointer fuel argv).run σ = (BojanOS.cmdTail fuel argv).run σ := by
  rw [cmdTail, BojanOS.cmdTail]
  rcases tailArgs argv with ⟨n, operands⟩
  simp only
  cases operands.head? with
  | none =>
    have hlast : Lasts fun _ => True := fun _ _ _ _ _ => trivial
    rw [openInput, Prog.openInput, run_bind, run_bind, run_bind, run_bind, Option.bind_assoc,
      Option.bind_assoc]
    apply congrArg
    funext r
    obtain ⟨b, τ⟩ := r
    simp only [run_pure, Option.bind_some]
    split_ifs with hb
    · have htext : (b.data.map fun _ => b.bytes).getD [] = b.bytes := by
        cases hd : b.data with
        | none => exact (hb.resolve_left (not_not.mpr hd)).symm
        | some p => rfl
      simp only
      rw [run_bind, run_bind, tail_run hlast (reads_ofText _ b.bytes) trivial, htext]
    · rfl
  | some path =>
    rw [run_bind, run_openInput, Prog.openInput, run_bind, run_bind, run_vfs, Option.bind_some]
    simp only
    cases (σ.vfs.vfsResolve path).filter fun n => (σ.vfs.node n).type = .file with
    | none =>
      simp only
      rw [run_say]
      cases σ.shPuts (path ++ ": no such file\n".toList) with
      | none => rfl
      | some τ => rfl
    | some n =>
      obtain ⟨I, hI, hσ, -, hf⟩ := reads_byPointer H n
      have htext : ((σ.vfs.node n).data.map fun _ => σ.vfs.contents n).getD [] =
          σ.vfs.contents n := by
        cases hd : (σ.vfs.node n).data with
        | none => exact (Vfs.contents_nil hd).symm
        | some d => rfl
      simp only [Option.bind_some, run_pure]
      rw [run_bind, run_bind, tail_run hI hf hσ, htext]

theorem cmdWc_run (H : Orderly σ) (argv : List (List Char)) :
    (cmdWc byPointer fuel argv).run σ = (cmdWc byValue fuel argv).run σ := by
  rw [cmdWc, cmdWc]
  rcases options (argv.drop 1) with ⟨letters, operands⟩
  apply onInput_run H
  intro I f text σ hI hf hσ
  have hcopy := reads_ofText I text
  rw [run_bind, run_bind, wcLoop_run hf (by rw [hf.size]; omega) hσ,
    wcLoop_run hcopy (by rw [hcopy.size]; omega) hσ, hf.size]
  rfl

theorem readers_run (H : Orderly σ) (argv : List (List Char)) :
    (shellRunBuiltin (readers byPointer fuel commands) argv).run σ =
      (shellRunBuiltin (readers byValue fuel commands) argv).run σ := by
  have hname : ∀ name, (∃ p q, readers byPointer fuel commands name = some p ∧
      readers byValue fuel commands name = some q ∧ (p argv).run σ = (q argv).run σ) ∨
      readers byPointer fuel commands name = readers byValue fuel commands name := by
    intro name
    rw [readers, readers]
    split_ifs
    · refine .inl ⟨_, _, rfl, rfl, ?_⟩
      rw [cmdCat, cmdCat]
      split_ifs
      · rfl
      · exact catFiles_run H _ _
    · exact .inl ⟨_, _, rfl, rfl, cmdHead_run H argv⟩
    · exact .inl ⟨_, _, rfl, rfl, cmdTail_run H argv⟩
    · exact .inl ⟨_, _, rfl, rfl, cmdWc_run H argv⟩
    · exact .inr rfl
  rw [shellRunBuiltin, shellRunBuiltin]
  rcases hname (argv.headD []) with ⟨p, q, hp, hq, h⟩ | h
  · simp only [hp, hq]
    exact h
  · simp only [h]

end InFile

/-! ## A line with one of the commands -/

namespace Shell

open InFile

variable {commands : Commands} {σ σ' : Shell} {cl : Cmdline (List Char)} {v : Vfs} {f fuel : Nat}
  {doPipe : Bool}

theorem applyRedirs_orderly (W : σ.vfs.Wf) (H : σ.vfs.HeapOk)
    (h : applyRedirs cl σ = some (true, σ')) : Orderly σ' := by
  cases ho : cl.hasOut with
  | true =>
    obtain ⟨v, f, hopen, hf, -, hv, hout⟩ := applyRedirs_opened ho h
    obtain ⟨W', H', -, -⟩ := openOut_spec W H hopen
    refine ⟨hv ▸ (H'.reopen f cl.outAppend).1, fun g hg => ?_⟩
    obtain rfl : f = g := Option.some.inj (hout.symm.trans hg)
    rw [hv, (v.reopen_sameTree f _).next]
    exact W'.vfsResolve_lt hf
  | false =>
    rw [applyRedirs, redirOut, ho] at h
    rcases redirIn_cases h with ⟨-, hv, hout⟩ | ⟨hok, -⟩
    · refine ⟨hv ▸ H, fun g hg => ?_⟩
      rw [hout] at hg
      cases hg
    · cases hok

theorem runCmdline_readers (W : σ.vfs.Wf) (H : σ.vfs.HeapOk) :
    runCmdline (readers byPointer fuel commands) cl doPipe σ =
      runCmdline (readers byValue fuel commands) cl doPipe σ := by
  have hbefore := beforeRedirs_vfs σ doPipe
  have hrun : ∀ τ, applyRedirs cl (σ.beforeRedirs doPipe) = some (true, τ) →
      (shellRunBuiltin (readers byPointer fuel commands) cl.items).run (τ.record cl) =
        (shellRunBuiltin (readers byValue fuel commands) cl.items).run (τ.record cl) := by
    intro τ hτ
    have hord : Orderly τ := applyRedirs_orderly (hbefore ▸ W) (hbefore ▸ H) hτ
    have hrec : Orderly (τ.record cl) := ⟨hord.heapOk, hord.outFile⟩
    exact readers_run hrec _
  by_cases hne : cl.items = []
  · rw [runCmdline, runCmdline, if_pos hne, if_pos hne]
  rw [runCmdline_redirs hne, runCmdline_redirs hne]
  rcases h : applyRedirs cl (σ.beforeRedirs doPipe) with _ | ⟨_ | _, τ⟩
  · rfl
  · rfl
  · simp only [Option.bind_some, hrun τ h]

theorem applyRedirs_append (ho : cl.hasOut = true) (happ : cl.outAppend = true)
    (hin : cl.hasIn = false) (hlen : cl.outFile.length < REDIR_MAX)
    (hf : σ.vfs.vfsResolve cl.outFile = some f) (hty : (σ.vfs.node f).type = .file) :
    applyRedirs cl σ =
      some (true, { σ with outFile := some f, inFile := none, inOff := 0 }) := by
  have hopen : ({ σ with outFile := none, inFile := none, inOff := 0 } : Shell).openOut
      cl.outFile = some (true, σ.vfs) := by
    rw [openOut]
    simp only [hf]
  rw [applyRedirs, redirOut, if_neg (by simp [ho]), if_neg (Nat.not_le.mpr hlen), hopen]
  simp only [hf]
  rw [if_neg (by simp [hty]), happ]
  simp only
  rw [redirIn, if_pos (by simp [hin])]
  rfl

/-- `cat` of one file, into whatever file the output goes to. -/
theorem cmdCat_file (H : Orderly σ) {path : List Char} {n : Nat}
    (hn : σ.vfs.vfsResolve path = some n) (hty : (σ.vfs.node n).type = .file) (name : List Char) :
    (cmdCat byPointer fuel [name, path]).run σ =
      (σ.shPuts (σ.vfs.contents n)).map fun σ => (0, σ) := by
  obtain ⟨I, hI, hσ, -, hf⟩ := reads_byPointer H n
  have hopen : (openInput byPointer fuel (some path)).run σ =
      some (some (byPointer σ.vfs n), σ) := by
    rw [run_openInput, hn, Option.filter_some, if_pos (decide_eq_true hty)]
  have hcat : cmdCat byPointer fuel [name, path] = catFiles byPointer fuel [path] 0 := rfl
  rw [hcat, catFiles, Prog.run_bind, hopen, Option.bind_some]
  simp only
  rw [Prog.run_bind, write_run hI hf hσ, ← Prog.run_say, Prog.run_bind]
  rfl

theorem runCmdline_accepted (hne : cl.items ≠ []) (hlt : cl.items.length < ARGV_MAX)
    (h : applyRedirs cl (σ.beforeRedirs doPipe) = some (true, σ')) :
    runCmdline commands cl doPipe σ =
      ((shellRunBuiltin commands cl.items).run (σ'.record cl)).map fun (rc, σ) =>
        (rc, σ.restoreRedirs) := by
  rw [runCmdline_redirs hne, h, Option.bind_some, if_pos rfl, if_neg (Nat.not_le.mpr hlt)]

/-- A file at the end of itself. -/
theorem runCmdline_cat (W : σ.vfs.Wf) (H : σ.vfs.HeapOk) {path : List Char}
    (hitems : cl.items = ["cat".toList, path]) (ho : cl.hasOut = true)
    (happ : cl.outAppend = true) (hin : cl.hasIn = false) (hlen : cl.outFile.length < REDIR_MAX)
    (hf : σ.vfs.vfsResolve cl.outFile = some f) (hpath : σ.vfs.vfsResolve path = some f)
    (hty : (σ.vfs.node f).type = .file)
    (hroom : ∀ b ∈ Vfs.grants (σ.vfs.contents f).length (σ.vfs.node f) σ.vfs.ram, b = true) :
    ∃ σ', runCmdline (readers byPointer fuel commands) cl doPipe σ = some (0, σ') ∧
      σ'.vfs.contents =
        Function.update σ.vfs.contents f (σ.vfs.contents f ++ σ.vfs.contents f) := by
  have hbefore := beforeRedirs_vfs σ doPipe
  have hredir := applyRedirs_append (σ := σ.beforeRedirs doPipe) ho happ hin hlen
    (by rw [hbefore]; exact hf) (by rw [hbefore]; exact hty)
  have hitemsLen : cl.items.length < ARGV_MAX := by
    rw [hitems]
    exact (show 2 < ARGV_MAX by decide)
  rw [runCmdline_accepted (by rw [hitems]; exact List.cons_ne_nil _ _) hitemsLen hredir, hitems]
  -- the state in which the command starts
  generalize hτ : Shell.record _ cl = τ
  have hv : τ.vfs = σ.vfs := by rw [← hτ]; exact hbefore
  have hout : τ.outFile = some f := by rw [← hτ]; rfl
  have hlt : f < τ.vfs.next := hv ▸ W.vfsResolve_lt hf
  have hord : Orderly τ := ⟨hv ▸ H, fun g hg => Option.some.inj (hout.symm.trans hg) ▸ hlt⟩
  rw [← hv] at hpath hty hroom ⊢
  have hrun : (shellRunBuiltin (readers byPointer fuel commands) ["cat".toList, path]).run τ =
      (τ.shPuts (τ.vfs.contents f)).map fun σ => (0, σ) := cmdCat_file hord hpath hty _
  obtain ⟨v, hputs, -, -, hc⟩ := shPuts_file hord.heapOk hout hlt hty (τ.vfs.contents f)
  rw [hrun, hputs]
  refine ⟨_, rfl, hc.trans ?_⟩
  rw [(stored_eq_self (Vfs.length_grants _ _ _)).mpr hroom]

end Shell

open InFile

/-- The four commands do over the pointer what they do over a copy that was made when the file was
opened, whatever their output does to the file. In particular `cat f >> f` comes to an end, and if
there is memory for it, `f` holds its old bytes twice. -/
theorem reads_snapshot (commands : Commands) (fuel : Nat) {σ : Shell} {segment : Buf}
    (doPipe : Bool) (hs : Running σ.vfs) (hlen : segment.length ≤ ADDRESS_SPACE) :
    σ.runSegment (readers byPointer fuel commands) segment doPipe =
      σ.runSegment (readers byValue fuel commands) segment doPipe ∧
    ∀ rest cl ram path f, tokenize σ.lastExit segment σ.vfs.ram = some (rest, cl, ram) →
      (cl.map (Item.text rest)).items = ["cat".toList, path] →
      cl.hasOut = true → cl.outAppend = true → cl.hasIn = false →
      cl.outFile.length < REDIR_MAX → σ.vfs.vfsResolve cl.outFile = some f →
      σ.vfs.vfsResolve path = some f → (σ.vfs.node f).type = .file →
      (∀ b ∈ Vfs.grants (σ.vfs.contents f).length (σ.vfs.node f) ram, b = true) →
      ∃ σ', σ.runSegment (readers byPointer fuel commands) segment doPipe = some (0, rest, σ') ∧
        σ'.vfs.contents =
          Function.update σ.vfs.contents f (σ.vfs.contents f ++ σ.vfs.contents f) := by
  have hheap : ∀ {rest cl ram}, tokenize σ.lastExit segment σ.vfs.ram = some (rest, cl, ram) →
      ({ σ.vfs with ram } : Vfs).Wf ∧ ({ σ.vfs with ram } : Vfs).HeapOk ∧
        ({ σ.vfs with ram } : Vfs).contents = σ.vfs.contents := by
    intro rest cl ram ht
    have hr := tokenize_ram hs.heapOk.ram hlen ht
    have U := hs.heapOk.toBuffers.untouched_ram hr.ok hr.used hr.mem
    exact ⟨hs.wf.ram _, U.heapOk hs.heapOk, U.contents hs.heapOk.toBuffers⟩
  refine ⟨?_, fun rest cl ram path f ht hitems ho happ hin hname hf hpath hty hroom => ?_⟩
  · rw [Shell.runSegment, Shell.runSegment]
    rcases ht : tokenize σ.lastExit segment σ.vfs.ram with _ | ⟨rest, cl, ram⟩
    · rfl
    · obtain ⟨W, H, -⟩ := hheap ht
      simp only
      rw [Shell.runCmdline_readers W H]
  · obtain ⟨W, H, hc⟩ := hheap ht
    rw [← hc] at hroom
    obtain ⟨σ', hrun, hcontents⟩ := Shell.runCmdline_cat
      (σ := { σ with vfs := { σ.vfs with ram } }) W H hitems ho happ hin hname hf hpath hty hroom
    refine ⟨σ', ?_, by rw [hcontents, hc]⟩
    rw [Shell.runSegment, ht]
    simp only
    rw [hrun]
    rfl

theorem reads_snapshot_osRelease : ∃ rest σ', bootShell.runSegment
    (readers byPointer 0 printCommands) ("cat /etc/os-release >> /etc/os-release".toList ++ [NUL])
      false = some (0, rest, σ') ∧
    σ'.vfs.contents = Function.update bootVfs.contents 11
      (Vfs.osReleaseText ++ Vfs.osReleaseText) := by
  have h : (tokenize bootShell.lastExit
      ("cat /etc/os-release >> /etc/os-release".toList ++ [NUL]) bootShell.vfs.ram).any fun r =>
        ((r.2.1.map (Item.text r.1)).items = ["cat".toList, "/etc/os-release".toList] ∧
          r.2.1.hasOut = true ∧ r.2.1.outAppend = true ∧ r.2.1.hasIn = false ∧
          r.2.1.outFile.length < REDIR_MAX) ∧
        bootShell.vfs.vfsResolve r.2.1.outFile = some 11 ∧
        bootShell.vfs.vfsResolve "/etc/os-release".toList = some 11 ∧
        (bootShell.vfs.node 11).type = .file ∧
        bootShell.vfs.contents 11 = Vfs.osReleaseText ∧
        ∀ b ∈ Vfs.grants (bootShell.vfs.contents 11).length (bootShell.vfs.node 11) r.2.2,
          b = true := by
    rw [bootShell_spelled, spelledOsRelease.property]
    decide +kernel
  obtain ⟨⟨rest, cl, ram⟩, ht, ⟨hitems, ho, happ, hin, hname⟩, hf, hpath, hty, htext, hroom⟩ :=
    exists_of_any h
  obtain ⟨σ', hrun, hc⟩ := (reads_snapshot printCommands 0 false bootShell_running
    (by decide +kernel)).2 rest cl ram _ 11 ht hitems ho happ hin hname hf hpath hty hroom
  rw [htext, bootShell_vfs] at hc
  exact ⟨rest, σ', hrun, hc⟩

end BojanOS
