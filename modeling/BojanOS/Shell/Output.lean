import BojanOS.Shell.Redirs
import BojanOS.Cmds.Print

/-!
# Redirected output

`out_raw` drops the answer of `vfs_append_file`, so a command learns nothing of a byte that does
not fit, and leaves the exit status it leaves anyway. What arrives in the file is all of the text
exactly when every request on the way is granted.
-/

namespace BojanOS

/-- The file that `name` resolves to holds the text, behind its old bytes if it is appended to, and
no other file has other bytes. -/
def OutputKept (name : List Char) (append : Bool) (text : List Char) (s s' : Vfs) : Prop :=
  ∃ f, s'.vfsResolve name = some f ∧
    s'.contents f = (if append then s.contents f else []) ++ text ∧
    ∀ n, n ≠ f → s'.contents n = s.contents n

/-- Once the output file is there, `k` bytes can be put behind the end where the redirection opens
it: each one fits the capacity that the file has then, or the request for twice as much is
granted. -/
def roomForOutput {ι : Type} (cl : Cmdline ι) (σ : Shell) (k : Nat) : Bool :=
  match σ.openOut cl.outFile with
  | some (true, v) =>
    match v.vfsResolve cl.outFile with
    | none => true
    | some f => (Vfs.grants k ((v.node f).reopened cl.outAppend) v.ram).all id
  | _ => true

namespace Shell

variable {σ σ' : Shell} {cl : Cmdline (List Char)} {v : Vfs} {f : Nat} {text : List Char}

/-- The text in the file that was opened. -/
theorem shPuts_opened (W : σ.vfs.Wf) (H : σ.vfs.HeapOk)
    (hopen : σ.openOut cl.outFile = some (true, v)) (hf : v.vfsResolve cl.outFile = some f)
    (hty : (v.node f).type = .file) {τ : Shell} (hτ : τ.vfs = v.reopen f cl.outAppend)
    (hout : τ.outFile = some f) (h : τ.shPuts text = some σ') :
    OutputKept cl.outFile cl.outAppend text σ.vfs σ'.vfs ↔
      ∀ b ∈ Vfs.grants text.length ((v.node f).reopened cl.outAppend) v.ram, b = true := by
  obtain ⟨W', H', hc, -⟩ := openOut_spec W H hopen
  have S := v.reopen_sameTree f cl.outAppend
  obtain ⟨Hr, hcr⟩ := H'.reopen f cl.outAppend
  obtain ⟨u, hu, -, S', hcu⟩ := shPuts_file (hτ ▸ Hr) hout
    (by rw [hτ, S.next]; exact W'.vfsResolve_lt hf) (by rw [hτ, S.type]; exact hty) text
  obtain rfl : { τ with vfs := u } = σ' := Option.some.inj (hu.symm.trans h)
  rw [hτ] at hcu S'
  rw [Vfs.grants_reopen hty, hcr, Function.update_self, Function.update_idem, hc] at hcu
  have hres : u.vfsResolve cl.outFile = some f := ((S.trans S').vfsResolve _).trans hf
  rw [← stored_eq_self (Vfs.length_grants text.length ((v.node f).reopened cl.outAppend) v.ram)]
  constructor
  · rintro ⟨f', hf', htext, -⟩
    obtain rfl : f = f' := Option.some.inj (hres.symm.trans hf')
    simp only at htext
    rw [hcu, Function.update_self] at htext
    exact List.append_cancel_left htext
  · intro hall
    refine ⟨f, hres, ?_, fun n hn => ?_⟩
    · simp only
      rw [hcu, Function.update_self, hall]
    · simp only
      rw [hcu, Function.update_of_ne hn]

/-- What `apply_redirs` has done when it returns 1. -/
theorem applyRedirs_opened (ho : cl.hasOut = true) (h : applyRedirs cl σ = some (true, σ')) :
    ∃ v f, σ.openOut cl.outFile = some (true, v) ∧ v.vfsResolve cl.outFile = some f ∧
      (v.node f).type = .file ∧ σ'.vfs = v.reopen f cl.outAppend ∧ σ'.outFile = some f := by
  rw [applyRedirs] at h
  split at h
  · cases h
  · cases h
  · rename_i τ hτ
    rcases redirIn_cases h with ⟨-, hv, hout⟩ | ⟨hok, -⟩
    · rcases redirOut_cases rfl hτ with ⟨ho', -, -⟩ | ⟨-, opened, v, hopen, hcase⟩
      · rw [ho] at ho'
        cases ho'
      rcases hcase with ⟨hok, -⟩ | ⟨-, rfl, f, hf, hty, rfl⟩
      · cases hok
      · exact ⟨v, f, hopen, hf, hty, hv, hout⟩
    · cases hok

/-- A command that only writes, with its output redirected. -/
theorem runCmdline_output {commands : Commands} {doPipe : Bool} {rc a : Int} (W : σ.vfs.Wf)
    (H : σ.vfs.HeapOk) (hne : cl.items ≠ []) (ho : cl.hasOut = true)
    (hp : (shellRunBuiltin commands cl.items).emits = some (text, a))
    (h : runCmdline commands cl doPipe σ = some (rc, σ'))
    (h0 : (σ'.shSetExit rc).lastExit = 0) :
    OutputKept cl.outFile cl.outAppend text σ.vfs σ'.vfs ↔ roomForOutput cl σ text.length = true := by
  have hbefore := beforeRedirs_vfs σ doPipe
  rw [runCmdline_redirs hne] at h
  obtain ⟨⟨ok, τ⟩, hτ, h⟩ := Option.bind_eq_some_iff.mp h
  cases ok with
  | false =>
    obtain ⟨rfl, rfl⟩ := Prod.mk.inj (Option.some.inj h)
    cases h0
  | true =>
    rw [if_pos rfl] at h
    split at h
    · cases h
    rw [Prog.run_of_emits hp, Option.map_map] at h
    obtain ⟨τ', hputs, he⟩ := Option.map_eq_some_iff.mp h
    obtain ⟨-, rfl⟩ := Prod.mk.inj he
    obtain ⟨v, f, hopen, hf, hty, hv, hout⟩ :=
      applyRedirs_opened (σ := σ.beforeRedirs doPipe) ho hτ
    have hopen' : σ.openOut cl.outFile = some (true, v) := by
      rw [openOut] at hopen ⊢
      rwa [hbefore] at hopen
    refine (shPuts_opened (τ := τ.record cl) W H hopen' hf hty hv hout hputs).trans ?_
    rw [roomForOutput, hopen']
    simp only [hf, List.all_eq_true, id_eq]

end Shell

variable {commands : Commands} {σ σ' : Shell} {segment rest rest' : Buf} {cl : Cmdline Item}
  {ram : Ram} {doPipe : Bool} {text : List Char} {rc a : Int}

/-- When a command that only writes leaves the exit status 0, its output is in the file exactly
when there was room for each byte of it. -/
theorem outputKept_iff (hs : Running σ.vfs) (hlen : segment.length ≤ ADDRESS_SPACE)
    (ht : tokenize σ.lastExit segment σ.vfs.ram = some (rest, cl, ram)) (hne : cl.items ≠ [])
    (ho : cl.hasOut = true)
    (hp : (shellRunBuiltin commands (cl.map (Item.text rest)).items).emits = some (text, a))
    (h : σ.runSegment commands segment doPipe = some (rc, rest', σ'))
    (h0 : (σ'.shSetExit rc).lastExit = 0) :
    OutputKept cl.outFile cl.outAppend text σ.vfs σ'.vfs ↔
      roomForOutput cl { σ with vfs := { σ.vfs with ram } } text.length = true := by
  have hr := tokenize_ram hs.heapOk.ram hlen ht
  have hrun := hs.alloc hr
  have hc : ({ σ.vfs with ram } : Vfs).contents = σ.vfs.contents :=
    (hs.heapOk.toBuffers.untouched_ram hr.ok hr.used hr.mem).contents hs.heapOk.toBuffers
  have hne' : (cl.map (Item.text rest)).items ≠ [] := by simpa [Cmdline.map] using hne
  rw [Shell.runSegment, ht] at h
  obtain ⟨⟨rc', τ⟩, hcmd, he⟩ := Option.map_eq_some_iff.mp h
  obtain ⟨rfl, -, rfl⟩ : rc' = rc ∧ rest = rest' ∧ τ = σ' := by simpa using he
  have hout := Shell.runCmdline_output (σ := { σ with vfs := { σ.vfs with ram } }) hrun.wf
    hrun.heapOk hne' ho hp hcmd h0
  have hsame : OutputKept cl.outFile cl.outAppend text σ.vfs τ.vfs ↔
      OutputKept cl.outFile cl.outAppend text { σ.vfs with ram } τ.vfs := by
    rw [OutputKept, OutputKept, hc]
  exact hsame.trans hout

theorem echo_output : ∃ rc rest σ',
    bootShell.runSegment printCommands ("echo hi > /tmp/f".toList ++ [NUL]) false =
      some (rc, rest, σ') ∧ OutputKept "/tmp/f".toList false "hi\n".toList bootVfs σ'.vfs := by
  have h : (tokenize bootShell.lastExit ("echo hi > /tmp/f".toList ++ [NUL])
      bootShell.vfs.ram).any fun r =>
        (r.2.1.items ≠ [] ∧ r.2.1.hasOut = true ∧ r.2.1.outFile = "/tmp/f".toList ∧
          r.2.1.outAppend = false) ∧
        (shellRunBuiltin printCommands (r.2.1.map (Item.text r.1)).items).emits =
          some ("hi\n".toList, 0) ∧
        (bootShell.runSegment printCommands ("echo hi > /tmp/f".toList ++ [NUL]) false).any
          (fun x => (x.2.2.shSetExit x.1).lastExit = 0) ∧
        roomForOutput r.2.1 { bootShell with vfs := { bootShell.vfs with ram := r.2.2 } } 3 := by
    rw [bootShell_spelled]
    decide +kernel
  obtain ⟨⟨rest, cl, ram⟩, ht, ⟨hne, ho, hname, happ⟩, hp, hrun, hroom⟩ := exists_of_any h
  obtain ⟨⟨rc, rest', σ'⟩, hs, h0⟩ := (Option.any_eq_true _ _).mp hrun
  have hout := (outputKept_iff bootShell_running (by decide +kernel) ht hne ho hp hs
    (of_decide_eq_true h0)).mpr hroom
  rw [bootShell_vfs, hname, happ] at hout
  exact ⟨rc, rest', σ', hs, hout⟩

/-- The heap has room for the node and for its entry in `/tmp`, and for nothing else. -/
def nearlyFull : Shell :=
  { bootShell with vfs := { bootVfs with ram := bootVfs.ram.fill 192 } }

theorem nearlyFull_running : Running nearlyFull.vfs := by
  have hfit : bootVfs.ram.heap.used + 192 ≤ bootVfs.ram.heap.total := by
    rw [bootVfs_spelled]
    decide +kernel
  rw [nearlyFull]
  exact .alloc (.boot bootVfs_booted) (.fill bootVfs_booted.heapOk.ram hfit)

/-- The file is there, the exit status is 0, and the file is empty. -/
theorem echo_output_lost : ¬ ∀ (commands : Commands) (σ σ' : Shell) (segment rest rest' : Buf)
    (cl : Cmdline Item) (ram : Ram) (doPipe : Bool) (text : List Char) (rc a : Int),
    Running σ.vfs → segment.length ≤ ADDRESS_SPACE →
    tokenize σ.lastExit segment σ.vfs.ram = some (rest, cl, ram) → cl.items ≠ [] →
    cl.hasOut = true →
    (shellRunBuiltin commands (cl.map (Item.text rest)).items).emits = some (text, a) →
    σ.runSegment commands segment doPipe = some (rc, rest', σ') →
    (σ'.shSetExit rc).lastExit = 0 →
    OutputKept cl.outFile cl.outAppend text σ.vfs σ'.vfs := by
  intro H
  have h : (tokenize nearlyFull.lastExit ("echo hi > /tmp/f".toList ++ [NUL])
      nearlyFull.vfs.ram).any fun r =>
        (r.2.1.items ≠ [] ∧ r.2.1.hasOut = true ∧ r.2.1.outFile = "/tmp/f".toList) ∧
        (shellRunBuiltin printCommands (r.2.1.map (Item.text r.1)).items).emits =
          some ("hi\n".toList, 0) ∧
        (nearlyFull.runSegment printCommands ("echo hi > /tmp/f".toList ++ [NUL]) false).any
          fun x => (x.2.2.shSetExit x.1).lastExit = 0 ∧
            (x.2.2.vfs.vfsResolve "/tmp/f".toList).any
              fun f => (x.2.2.vfs.contents f).length < 3 := by
    rw [nearlyFull, bootVfs_spelled]
    decide +kernel
  obtain ⟨⟨rest, cl, ram⟩, ht, ⟨hne, ho, hname⟩, hp, hrun⟩ := exists_of_any h
  obtain ⟨⟨rc, rest', σ'⟩, hs, h0, hres⟩ := exists_of_any hrun
  obtain ⟨f, hf, hlt⟩ := (Option.any_eq_true _ _).mp hres
  obtain ⟨f', hf', htext, -⟩ := H _ _ _ _ _ _ _ _ _ _ _ _ nearlyFull_running
    (by decide +kernel) ht hne ho hp hs h0
  rw [hname] at hf'
  obtain rfl : f = f' := Option.some.inj (hf.symm.trans hf')
  have hlen := congrArg List.length htext
  have hlt : (σ'.vfs.contents f).length < 3 := of_decide_eq_true hlt
  rw [List.length_append] at hlen
  have h3 : "hi\n".toList.length = 3 := by decide
  omega

end BojanOS
