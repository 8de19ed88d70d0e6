import BojanOS.Shell.Argv
import BojanOS.Shell.Calls
import BojanOS.Vfs.Appends

/-!
# What a redirection does to the files

`apply_redirs` makes the output file and cuts it off before it looks at the input, and the message
about a missing input goes where the output goes. So a command that is not run can leave a new
file, an emptied one, or one that holds the message.
-/

namespace BojanOS

/-! ## The heap behind `tokenize` -/

namespace Tokenize

variable {code : Fin 256} {st st' : St} {ram ram' : Ram}

theorem expandTilde_ram (h : ram.Ok) {tok : List Char} (hlen : tok.length + 8 ≤ 2 ^ 63) :
    ram.Grew (expandTilde tok ram).2 := by
  have hk := Ram.Grew.kmalloc h hlen
  unfold expandTilde
  split
  · split
    · split
      · rename_i r hr
        rwa [hr] at hk
      · rename_i p r hr
        rwa [hr] at hk
    · exact .refl h
  · exact .refl h

theorem wordLoop_length {w w' : WordSt} (h : wordLoop code w = some w') :
    w'.buf.length = w.buf.length := by
  obtain ⟨t, ht, hdone⟩ := Loop.exec_sound h
  have hinv := ht.inv (I := fun v => v.buf.length = w.buf.length)
    (fun _ _ hv hs => (wordStep_monotone hs).2.2.trans hv) rfl
  rw [(wordStep_done hdone).1]
  exact hinv

/-- One round writes inside the line and asks for room for one token. -/
theorem tokStep_ram (h : st.ram.Ok) (hlen : st.buf.length + 8 ≤ 2 ^ 63)
    (hs : tokStep code st = some (.inl st')) :
    st'.buf.length = st.buf.length ∧ st.ram.Grew st'.ram := by
  rw [tokStep] at hs
  split at hs
  · cases hs
  · cases hs
  · -- a redirection
    rw [redirStep] at hs
    split at hs
    · cases hs
    simp only at hs
    split at hs
    · cases hs
    · obtain rfl := Sum.inl.inj (Option.some.inj hs)
      exact ⟨rfl, .refl h⟩
  · -- a word
    rw [itemStep] at hs
    split at hs
    · cases hs
    rename_i w hw
    have hwl : w.buf.length = st.buf.length := wordLoop_length hw
    split at hs
    · cases hs
    rename_i delim hd
    simp only at hs
    split at hs
    · cases hs
    rename_i buf hb
    obtain rfl := Sum.inl.inj (Option.some.inj hs)
    have hbl : buf.length = st.buf.length := by
      rw [store_length hb]
      split
      · rw [List.length_set, hwl]
      · exact hwl
    refine ⟨hbl, expandTilde_ram h ?_⟩
    have htok : ∀ p, (cstr buf p).length ≤ buf.length := fun p =>
      (List.takeWhile_prefix _).length_le.trans (by rw [List.length_drop]; omega)
    exact (Nat.add_le_add_right (htok _) 8).trans (by rw [hbl]; exact hlen)

theorem tokStep_stop (h : tokStep code st = some (.inr st')) :
    st'.buf = st.buf ∧ st'.ram = st.ram := by
  rw [tokStep] at h
  split at h
  · cases h
  · obtain rfl := Sum.inr.inj (Option.some.inj h)
    exact ⟨rfl, rfl⟩
  · rw [redirStep] at h
    split at h
    · cases h
    simp only at h
    split at h <;> cases h
  · rw [itemStep] at h
    split at h
    · cases h
    split at h
    · cases h
    simp only at h
    split at h <;> cases h

end Tokenize

/-- `tokenize` allocates, and that is all it does to the heap. -/
theorem tokenize_ram {code : Fin 256} {line rest : Buf} {cl : Cmdline Item} {ram ram' : Ram}
    (hr : ram.Ok) (hlen : line.length ≤ ADDRESS_SPACE)
    (h : tokenize code line ram = some (rest, cl, ram')) : ram.Grew ram' := by
  obtain ⟨st, hst, he⟩ := Option.map_eq_some_iff.mp h
  obtain ⟨-, -, rfl⟩ : st.buf = rest ∧ st.cl = cl ∧ st.ram = ram' := by simpa using he
  obtain ⟨t, ht, hdone⟩ := Loop.exec_sound hst
  rw [ADDRESS_SPACE] at hlen
  have hinv := ht.inv (I := fun v : Tokenize.St => v.buf.length = line.length ∧ ram.Grew v.ram)
    (fun v v' hv hs => by
      obtain ⟨hl, hg⟩ := Tokenize.tokStep_ram hv.2.ok (by rw [hv.1]; omega) hs
      exact ⟨hl.trans hv.1, hv.2.trans hg⟩) ⟨rfl, .refl hr⟩
  rw [(Tokenize.tokStep_stop hdone).2]
  exact hinv.2

/-! ## Text through a redirection -/

namespace Shell

variable {σ σ' : Shell} {f : Nat} {ok : Bool} {m : List Char}

/-- Byte by byte into the file `f`: what arrives is what there is room for. -/
theorem shPuts_file (H : σ.vfs.HeapOk) (hout : σ.outFile = some f) (hn : f < σ.vfs.next)
    (hf : (σ.vfs.node f).type = .file) (s : List Char) :
    ∃ vfs, σ.shPuts s = some { σ with vfs } ∧ vfs.HeapOk ∧ σ.vfs.SameTree vfs ∧
      vfs.contents = Function.update σ.vfs.contents f
        (σ.vfs.contents f ++ stored s (Vfs.grants s.length (σ.vfs.node f) σ.vfs.ram)) := by
  induction s generalizing σ with
  | nil =>
    refine ⟨σ.vfs, rfl, H, .rfl', ?_⟩
    change _ = Function.update _ f (σ.vfs.contents f ++ [])
    rw [List.append_nil, Function.update_eq_self]
  | cons c s ih =>
    obtain ⟨b, v, hb, H', S, hc, hg⟩ := H.appendByte hn hf c s.length
    have hraw : σ.outRaw c = some { σ with vfs := v } := by
      rw [outRaw, hout]
      simp only [hb]
    obtain ⟨v', hr, H'', S', hc'⟩ := ih (σ := { σ with vfs := v }) H' hout
      (by rw [S.next]; exact hn) ((S.type f).trans hf)
    refine ⟨v', ?_, H'', S.trans S', ?_⟩
    · rw [shPuts, List.foldlM_cons, hraw]
      exact hr
    · rw [hc']
      simp only [hc, Function.update_idem, Function.update_self, List.length_cons, hg, stored,
        List.append_assoc]
      cases b <;> rfl

/-- Elsewhere a byte does not reach the filesystem. -/
theorem outRaw_quiet {c : Char} (hout : σ.outFile = none) (h : σ.outRaw c = some σ') :
    σ'.vfs = σ.vfs := by
  rw [outRaw, hout] at h
  simp only at h
  split at h
  · rw [pipeWriterAdd] at h
    split at h
    · obtain rfl := Option.some.inj h
      rfl
    · simp only at h
      split at h
      · obtain rfl := Option.some.inj h
        rfl
      · split at h
        · obtain rfl := Option.some.inj h
          rfl
        · cases h
  · obtain rfl := Option.some.inj h
    rfl

theorem shPuts_quiet (hout : σ.outFile = none) {s : List Char} (h : σ.shPuts s = some σ') :
    σ'.vfs = σ.vfs := by
  induction s generalizing σ with
  | nil =>
    obtain rfl := Option.some.inj h
    rfl
  | cons c s ih =>
    rw [shPuts, List.foldlM_cons] at h
    obtain ⟨τ, hτ, h⟩ := Option.bind_eq_some_iff.mp h
    exact (ih ((outRaw_routing hτ).outFile.trans hout) h).trans (outRaw_quiet hout hτ)

end Shell

/-- The file as the redirection opens it. -/
def Vnode.reopened (v : Vnode) (append : Bool) : Vnode := if append then v else { v with size := 0 }

namespace Vfs

variable {s : Vfs} {f : Nat}

/-- The tree with the file opened. -/
def reopen (s : Vfs) (f : Nat) (append : Bool) : Vfs := if append then s else s.vfsTruncate f

theorem reopen_sameTree (s : Vfs) (f : Nat) (append : Bool) : s.SameTree (s.reopen f append) := by
  rw [reopen]
  split
  · exact .rfl'
  · exact s.vfsTruncate_sameTree f

theorem HeapOk.reopen (H : s.HeapOk) (f : Nat) (append : Bool) :
    (s.reopen f append).HeapOk ∧ (s.reopen f append).contents =
      Function.update s.contents f (if append then s.contents f else []) := by
  rw [Vfs.reopen]
  cases append with
  | true => exact ⟨H, (Function.update_eq_self _ _).symm⟩
  | false => exact H.vfsTruncate f

theorem grants_reopen (hf : (s.node f).type = .file) (append : Bool) (k : Nat) :
    grants k ((s.reopen f append).node f) (s.reopen f append).ram =
      grants k ((s.node f).reopened append) s.ram := by
  cases append with
  | true => rfl
  | false =>
    apply grants_congr
    all_goals simp [reopen, vfsTruncate, hf, setNode, Vnode.reopened]

end Vfs

/-! ## `apply_redirs`, with what it does to the tree -/

namespace Shell

variable {σ σ' : Shell} {cl : Cmdline (List Char)} {ok : Bool} {name : List Char} {v : Vfs}

theorem refuse_eq {message : List Char} (h : σ.refuse message = some (ok, σ')) :
    ok = false ∧ σ.shPuts message = some σ' := by
  obtain ⟨τ, hτ, he⟩ := Option.map_eq_some_iff.mp h
  obtain ⟨rfl, rfl⟩ := Prod.mk.inj he
  exact ⟨rfl, hτ⟩

theorem openOut_cases (h : σ.openOut name = some (ok, v)) :
    (∃ f, σ.vfs.vfsResolve name = some f ∧ ok = true ∧ v = σ.vfs) ∨
      (σ.vfs.vfsResolve name = none ∧ σ.vfs.vfsMkfile name = some (ok, v)) := by
  rw [openOut] at h
  split at h
  · rename_i f hf
    obtain ⟨rfl, rfl⟩ := Prod.mk.inj (Option.some.inj h)
    exact .inl ⟨f, hf, rfl, rfl⟩
  · rename_i hf
    exact .inr ⟨hf, h⟩

/-- The output side: no redirection, a refusal with a message, or the file is opened. -/
theorem redirOut_cases (hout : σ.outFile = none) (h : redirOut cl σ = some (ok, σ')) :
    (cl.hasOut = false ∧ ok = true ∧ σ' = σ) ∨
    (cl.hasOut = true ∧ ∃ opened v, σ.openOut cl.outFile = some (opened, v) ∧
      ((ok = false ∧ σ'.vfs = v ∧
          (opened = true → ∀ f, v.vfsResolve cl.outFile = some f → (v.node f).type ≠ .file)) ∨
        (ok = true ∧ opened = true ∧ ∃ f, v.vfsResolve cl.outFile = some f ∧
          (v.node f).type = .file ∧
          σ' = { σ with outFile := some f, vfs := v.reopen f cl.outAppend }))) := by
  have hq : ∀ {v : Vfs} {m : List Char}, { σ with vfs := v }.shPuts m = some σ' → σ'.vfs = v :=
    fun {v _} hm => shPuts_quiet (σ := { σ with vfs := v }) hout hm
  rw [redirOut] at h
  split at h
  · rename_i ho
    obtain ⟨rfl, rfl⟩ := Prod.mk.inj (Option.some.inj h)
    exact .inl ⟨by simpa using ho, rfl, rfl⟩
  rename_i ho
  refine .inr ⟨by simpa using ho, ?_⟩
  split at h
  · cases h
  split at h
  · cases h
  · rename_i v hopen
    obtain ⟨rfl, hm⟩ := refuse_eq h
    exact ⟨false, v, hopen, .inl ⟨rfl, hq hm, fun h => (by cases h)⟩⟩
  · rename_i v hopen
    refine ⟨true, v, hopen, ?_⟩
    simp only at h
    split at h
    · rename_i hf
      obtain ⟨rfl, hm⟩ := refuse_eq h
      exact .inl ⟨rfl, hq hm, fun _ f hf' => by rw [hf] at hf'; cases hf'⟩
    · rename_i f hf
      split at h
      · rename_i hty
        obtain ⟨rfl, hm⟩ := refuse_eq h
        refine .inl ⟨rfl, hq hm, fun _ f' hf' => ?_⟩
        obtain rfl : f = f' := Option.some.inj (hf.symm.trans hf')
        exact hty
      · rename_i hty
        obtain ⟨rfl, rfl⟩ := Prod.mk.inj (Option.some.inj h)
        exact .inr ⟨rfl, rfl, f, hf, by simpa using hty, rfl⟩

/-- The message about the input. -/
def noInput (name : List Char) : List Char :=
  "shell: ".toList ++ name ++ ": no such file\n".toList

theorem redirIn_cases (h : redirIn cl σ = some (ok, σ')) :
    (ok = true ∧ σ'.vfs = σ.vfs ∧ σ'.outFile = σ.outFile) ∨
      (ok = false ∧ σ.shPuts (noInput cl.inFile) = some σ') := by
  rw [redirIn] at h
  split at h
  · obtain ⟨rfl, rfl⟩ := Prod.mk.inj (Option.some.inj h)
    exact .inl ⟨rfl, rfl, rfl⟩
  split at h
  · cases h
  simp only at h
  split at h
  · obtain ⟨rfl, hm⟩ := refuse_eq h
    exact .inr ⟨rfl, hm⟩
  · split at h
    · obtain ⟨rfl, hm⟩ := refuse_eq h
      exact .inr ⟨rfl, hm⟩
    · obtain ⟨rfl, rfl⟩ := Prod.mk.inj (Option.some.inj h)
      exact .inl ⟨rfl, rfl, rfl⟩

/-- What opening the output leaves of the invariants and of the files. -/
theorem openOut_spec (W : σ.vfs.Wf) (H : σ.vfs.HeapOk) (h : σ.openOut name = some (ok, v)) :
    v.Wf ∧ v.HeapOk ∧ v.contents = σ.vfs.contents ∧
      (v.kids = σ.vfs.kids ↔ σ.vfs.vfsResolve name = none → ok = false) := by
  rcases openOut_cases h with ⟨f, hf, rfl, rfl⟩ | ⟨hf, hm⟩
  · refine ⟨W, H, rfl, iff_of_true rfl fun h => ?_⟩
    rw [hf] at h
    cases h
  · have U := H.toBuffers.vfsMknode hm
    refine ⟨W.vfsMknode hm, U.heapOk H, U.contents H.toBuffers, ?_⟩
    rw [W.vfsMknode_kids hm]
    exact ⟨fun h _ => h, fun h => h hf⟩

end Shell

/-! ## A command that is not run -/

/-- The files that there were have their bytes, and no directory has a new entry. -/
structure Kept (s s' : Vfs) : Prop where
  contents : ∀ n < s.next, s'.contents n = s.contents n
  kids : s'.kids = s.kids

/-- Nothing happens to the files when the output is refused: there is none, it is a directory, or
it cannot be made. If it is a file, it is the message about the input that must leave it alone:
not a byte of it fits behind the old ones, or, in place of them, just those bytes that the file
held. -/
def RefusalHarmless {ι : Type} (cl : Cmdline ι) (s : Vfs) : Prop :=
  cl.hasOut = true →
    match s.vfsResolve cl.outFile with
    | none => ¬ s.Creates cl.outFile
    | some f => (s.node f).type = .file →
      let message := Shell.noInput cl.inFile
      stored message (Vfs.grants message.length ((s.node f).reopened cl.outAppend) s.ram) =
        if cl.outAppend then [] else s.contents f

theorem RefusalHarmless.of_directory {ι : Type} {cl : Cmdline ι} {s : Vfs} {ram : Ram} {f : Nat}
    (hf : { s with ram }.vfsResolve cl.outFile = some f) (hd : (s.node f).type = .dir) :
    RefusalHarmless cl { s with ram } := by
  intro _
  rw [hf]
  intro hfile
  cases hd.symm.trans hfile

namespace Shell

variable {σ σ' τ : Shell} {cl : Cmdline (List Char)} {f : Nat}

/-- The message in the file that was opened. -/
theorem message_kept (H : σ.vfs.HeapOk) (hn : f < σ.vfs.next)
    (hf : (σ.vfs.node f).type = .file) {append : Bool} {m : List Char}
    (hτ : τ.vfs = σ.vfs.reopen f append) (hout : τ.outFile = some f)
    (h : τ.shPuts m = some σ') :
    Kept σ.vfs σ'.vfs ↔
      stored m (Vfs.grants m.length ((σ.vfs.node f).reopened append) σ.vfs.ram) =
        if append then [] else σ.vfs.contents f := by
  have S := σ.vfs.reopen_sameTree f append
  obtain ⟨H', hc⟩ := H.reopen f append
  have hn' : f < τ.vfs.next := by rw [hτ, S.next]; exact hn
  have hf' : (τ.vfs.node f).type = .file := by rw [hτ, S.type]; exact hf
  obtain ⟨v, hv, -, S', hcv⟩ := shPuts_file (hτ ▸ H') hout hn' hf' m
  obtain rfl : { τ with vfs := v } = σ' := Option.some.inj (hv.symm.trans h)
  rw [hτ] at hcv S'
  rw [Vfs.grants_reopen hf, hc, Function.update_self, Function.update_idem] at hcv
  generalize stored m (Vfs.grants m.length ((σ.vfs.node f).reopened append) σ.vfs.ram) = left at *
  have hkept : Kept σ.vfs v ↔ (if append then σ.vfs.contents f else []) ++ left =
      σ.vfs.contents f := by
    constructor
    · intro K
      have hk := K.contents f hn
      rwa [hcv, Function.update_self] at hk
    · intro he
      refine ⟨fun n _ => ?_, (S.trans S').kids⟩
      rw [hcv, he, Function.update_eq_self]
  rw [hkept]
  cases append with
  | true => exact List.append_right_eq_self
  | false => exact Iff.rfl

theorem refused_kept (W : σ.vfs.Wf) (H : σ.vfs.HeapOk)
    (h : applyRedirs cl σ = some (false, σ')) : Kept σ.vfs σ'.vfs ↔ RefusalHarmless cl σ.vfs := by
  have hsame : ∀ {v : Vfs}, v.contents = σ.vfs.contents → v.kids = σ.vfs.kids →
      Kept σ.vfs v := fun hc hk => ⟨fun n _ => congrFun hc n, hk⟩
  rw [applyRedirs] at h
  split at h
  · cases h
  · -- the output is refused
    rename_i τ hτ
    obtain ⟨-, rfl⟩ := Prod.mk.inj (Option.some.inj h)
    rcases redirOut_cases rfl hτ with ⟨-, hok, -⟩ | ⟨ho, opened, v, hopen, hcase⟩
    · cases hok
    rcases hcase with ⟨-, hv, hdir⟩ | ⟨hok, -⟩
    · obtain ⟨-, -, hc, hk⟩ := openOut_spec W H hopen
      rw [hv]
      rcases openOut_cases hopen with ⟨f, hf, rfl, rfl⟩ | ⟨hf, hm⟩
      · refine iff_of_true (hsame rfl rfl) fun _ => ?_
        simp only at hf
        rw [hf]
        exact fun hfile => absurd hfile (hdir rfl f hf)
      · simp only at hf hk hm
        have hh : RefusalHarmless cl σ.vfs ↔ ¬ σ.vfs.Creates cl.outFile := by
          rw [RefusalHarmless, hf]
          exact ⟨fun h => h ho, fun h _ => h⟩
        rw [hh, ← Vfs.vfsMknode_answer W hm, Bool.not_eq_true]
        exact ⟨fun K => hk.mp K.kids hf, fun h => hsame hc (hk.mpr fun _ => h)⟩
    · cases hok
  · -- the input is refused
    rename_i τ hτ
    rcases redirIn_cases h with ⟨hok, -⟩ | ⟨-, hm⟩
    · cases hok
    rcases redirOut_cases rfl hτ with ⟨ho, -, rfl⟩ | ⟨ho, opened, v, hopen, hcase⟩
    · have hv := shPuts_quiet rfl hm
      refine iff_of_true ?_ fun ho' => ?_
      · rw [hv]
        exact hsame rfl rfl
      · rw [ho] at ho'
        cases ho'
    rcases hcase with ⟨hok, -⟩ | ⟨-, rfl, f, hf, hty, rfl⟩
    · cases hok
    obtain ⟨W', H', hc, hk⟩ := openOut_spec W H hopen
    rcases openOut_cases hopen with ⟨f', hf', -, rfl⟩ | ⟨hf', hmk⟩
    · have hh : RefusalHarmless cl σ.vfs ↔
          stored (noInput cl.inFile) (Vfs.grants (noInput cl.inFile).length
            ((σ.vfs.node f).reopened cl.outAppend) σ.vfs.ram) =
              if cl.outAppend then [] else σ.vfs.contents f := by
        rw [RefusalHarmless, hf]
        exact ⟨fun h => h ho hty, fun h _ _ => h⟩
      rw [hh]
      exact message_kept H (W.vfsResolve_lt hf) hty rfl rfl hm
    · -- a file was made
      refine iff_of_false (fun K => ?_) (fun hh => ?_)
      · obtain ⟨v', hv', -, S', -⟩ := shPuts_file (σ := { σ with
          inFile := none, inOff := 0, outFile := some f, vfs := v.reopen f cl.outAppend })
          (H'.reopen f cl.outAppend).1 rfl
          (by rw [(v.reopen_sameTree f _).next]; exact W'.vfsResolve_lt hf)
          ((v.reopen_sameTree f _).type f |>.trans hty) (noInput cl.inFile)
        obtain rfl := Option.some.inj (hv'.symm.trans hm)
        have hkids := ((v.reopen_sameTree f cl.outAppend).trans S').kids
        have := hk.mp (hkids.symm.trans K.kids) hf'
        cases this
      · simp only at hf'
        have hno := hh ho
        rw [hf'] at hno
        exact hno ((Vfs.vfsMknode_answer W hmk).mp rfl)

end Shell

variable {commands : Commands} {σ : Shell} {segment : Buf} {cl : Cmdline Item} {ram : Ram}
  {doPipe : Bool}

namespace Shell

theorem beforeRedirs_vfs (σ : Shell) (doPipe : Bool) : (σ.beforeRedirs doPipe).vfs = σ.vfs := by
  rw [beforeRedirs]
  split
  · rw [clearWriter]
    split
    · rfl
    · rfl
  · rfl

/-- The command line and the heap with which `apply_redirs` returns 0 in `run_segment`. -/
def refused (σ : Shell) (segment : Buf) (doPipe : Bool) : Option (Cmdline Item × Ram) :=
  match tokenize σ.lastExit segment σ.vfs.ram with
  | none => none
  | some (buf, cl, ram) =>
    if cl.items = [] then none
    else
      match applyRedirs (cl.map (Item.text buf))
        (beforeRedirs { σ with vfs := { σ.vfs with ram } } doPipe) with
      | some (false, _) => some (cl, ram)
      | _ => none

theorem refused_spec (h : σ.refused segment doPipe = some (cl, ram)) :
    ∃ rest τ, tokenize σ.lastExit segment σ.vfs.ram = some (rest, cl, ram) ∧ cl.items ≠ [] ∧
      applyRedirs (cl.map (Item.text rest))
        (beforeRedirs { σ with vfs := { σ.vfs with ram } } doPipe) = some (false, τ) := by
  rw [refused] at h
  split at h
  · cases h
  rename_i rest cl ram ht
  split at h
  · cases h
  rename_i hne
  split at h
  · rename_i τ hτ
    obtain ⟨rfl, rfl⟩ := Prod.mk.inj (Option.some.inj h)
    exact ⟨rest, τ, ht, hne, hτ⟩
  · cases h

/-- `run_segment` returns behind a refusal. -/
theorem runSegment_refused {rest : Buf} {τ : Shell}
    (ht : tokenize σ.lastExit segment σ.vfs.ram = some (rest, cl, ram)) (hne : cl.items ≠ [])
    (h : applyRedirs (cl.map (Item.text rest))
      (beforeRedirs { σ with vfs := { σ.vfs with ram } } doPipe) = some (false, τ)) :
    σ.runSegment commands segment doPipe = some (1, rest, τ.restoreRedirs) := by
  have hne' : (cl.map (Item.text rest)).items ≠ [] := by simpa [Cmdline.map] using hne
  rw [runSegment, ht]
  simp only
  rw [runCmdline_redirs hne', h]
  rfl

end Shell

/-- A command that `apply_redirs` refuses leaves the files alone exactly when the output was
refused, or when the message about the input makes no difference to the output file. -/
theorem redirsKept_iff (hs : Running σ.vfs) (hlen : segment.length ≤ ADDRESS_SPACE)
    (h : σ.refused segment doPipe = some (cl, ram)) :
    ∃ rest σ', σ.runSegment commands segment doPipe = some (1, rest, σ') ∧
      (Kept σ.vfs σ'.vfs ↔ RefusalHarmless cl { σ.vfs with ram }) := by
  obtain ⟨rest, τ, ht, hne, ha⟩ := Shell.refused_spec h
  have hr := tokenize_ram hs.heapOk.ram hlen ht
  have hrun := hs.alloc hr
  have hv : (Shell.beforeRedirs { σ with vfs := { σ.vfs with ram } } doPipe).vfs =
      { σ.vfs with ram } := Shell.beforeRedirs_vfs _ _
  have hkept := Shell.refused_kept (by rw [hv]; exact hrun.wf) (by rw [hv]; exact hrun.heapOk) ha
  rw [hv] at hkept
  have hc : ({ σ.vfs with ram } : Vfs).contents = σ.vfs.contents :=
    (hs.heapOk.toBuffers.untouched_ram hr.ok hr.used hr.mem).contents hs.heapOk.toBuffers
  have hstart : Kept σ.vfs τ.vfs ↔ Kept { σ.vfs with ram } τ.vfs := by
    constructor
    · exact fun K => ⟨fun n hn => (K.contents n hn).trans (congrFun hc n).symm, K.kids⟩
    · exact fun K => ⟨fun n hn => (K.contents n hn).trans (congrFun hc n), K.kids⟩
  exact ⟨rest, τ.restoreRedirs, Shell.runSegment_refused ht hne ha, hstart.trans hkept⟩

theorem bootShell_running : Running bootShell.vfs := by
  rw [bootShell_vfs]
  exact .boot bootVfs_booted

/-- The output is a directory, so the missing input does not matter. -/
theorem refusedAtDirectory : ∃ rest σ',
    bootShell.runSegment (fun _ => none) ("cat > /etc < missing".toList ++ [NUL]) false =
      some (1, rest, σ') ∧ Kept bootVfs σ'.vfs := by
  have h : (bootShell.refused ("cat > /etc < missing".toList ++ [NUL]) false).any fun r =>
      ({ bootVfs with ram := r.2 }.vfsResolve r.1.outFile).any fun f =>
        (bootVfs.node f).type = FsType.dir := by
    rw [bootShell_spelled, bootVfs_spelled]
    decide +kernel
  obtain ⟨⟨cl, ram⟩, hr, hdir⟩ := (Option.any_eq_true _ _).mp h
  obtain ⟨f, hf, hd⟩ := (Option.any_eq_true _ _).mp hdir
  obtain ⟨rest, σ', hs, hk⟩ := redirsKept_iff bootShell_running (by decide +kernel) hr
  rw [bootShell_vfs] at hk
  have hty : (bootVfs.node f).type = .dir := of_decide_eq_true hd
  exact ⟨rest, σ', hs, hk.mpr (.of_directory hf hty)⟩

/-- The message of the day is cut off, and the message about the input takes its place. -/
theorem cutsMotd_not_kept : ¬ ∀ (commands : Commands) (σ : Shell) (segment : Buf) (doPipe : Bool)
    (r : Cmdline Item × Ram) (rc : Int) (rest : Buf) (σ' : Shell), Running σ.vfs →
    segment.length ≤ ADDRESS_SPACE → σ.refused segment doPipe = some r →
    σ.runSegment commands segment doPipe = some (rc, rest, σ') → Kept σ.vfs σ'.vfs := by
  intro H
  have h : (bootShell.refused ("cat > /etc/motd < missing".toList ++ [NUL]) false).isSome ∧
      (bootShell.runSegment (fun _ => none) ("cat > /etc/motd < missing".toList ++ [NUL])
        false).any (fun r => r.2.2.vfs.contents 9 ≠ bootVfs.contents 9) ∧ 9 < bootVfs.next := by
    rw [bootShell_spelled, bootVfs_spelled]
    decide +kernel
  obtain ⟨hsome, hrun, hmotd⟩ := h
  obtain ⟨r, hr⟩ := Option.isSome_iff_exists.mp hsome
  obtain ⟨⟨rc, rest, σ'⟩, hs, hne⟩ := (Option.any_eq_true _ _).mp hrun
  have K := H _ _ _ _ _ _ _ _ bootShell_running (by decide +kernel) hr hs
  rw [bootShell_vfs] at K
  exact of_decide_eq_true hne (K.contents 9 hmotd)

end BojanOS
