import BojanOS.Shell.Session

/-!
# Ctrl-C at the prompt

`sh_readline` has a branch for Ctrl-C. The key does not come that far: `sh_getc` turns it into the end
of the input, as it does with Ctrl-D, and `shell_run` leaves its loop.
-/

namespace BojanOS

open Trace

namespace Shell

variable {σ σ' : Shell}

theorem Idle.routing (h : σ.Idle) (H : SameRouting σ σ') : σ'.Idle where
  outFile := H.outFile.trans h.outFile
  inFile := H.inFile.trans h.inFile
  pipeReader := H.pipeReader.trans h.pipeReader
  pipeWriter := H.pipeWriter.trans h.pipeWriter
  pipeWriting := H.pipeWriting.trans h.pipeWriting

/-- With nothing redirected the answer comes from the keyboard. -/
theorem Idle.getc (h : σ.Idle) : σ.shGetc =
    some (if σ.keys 0 = KB_CTRL_D ∨ σ.keys 0 < 0 then -1 else if σ.keys 0 = KB_CTRL_C then -1
      else σ.keys 0, σ.keyboardGet.2) := by
  rw [shGetc, h.inFile]
  simp only
  rw [h.pipeReader]
  rfl

theorem Idle.puts {s : List Char} (h : σ.Idle) (hs : σ.shPuts s = some σ') : σ'.Idle :=
  h.routing (shPuts_routing hs)

end Shell

namespace Session

/-- One round of the loop of `sh_readline`. -/
def round (s : Session) : Option (Session ⊕ (Int × Session)) :=
  s.sh.shGetc.bind fun (c, sh) => readlineKey c { s with sh }

/-- Between two keys: nothing is redirected, and no terminator is in the texts. -/
structure AtPrompt (s : Session) : Prop where
  idle : s.sh.Idle
  line : NUL ∉ s.line
  history : ∀ text, some text ∈ s.history → NUL ∉ text

variable {commands : Commands} {rest : List Char} {s t u : Session} {c n : Int} {i : Nat}

/-- What a key leaves behind, unless it ends the input. -/
structure Stays (s t : Session) : Prop extends AtPrompt t where
  ended : t.ended = s.ended

theorem AtPrompt.puts {sh : Shell} {text : List Char} (P : s.AtPrompt)
    (h : s.sh.shPuts text = some sh) : Stays s { s with sh } :=
  ⟨⟨P.idle.puts h, P.line, P.history⟩, rfl⟩

theorem Stays.setLine {line : List Char} (S : Stays s t) (h : NUL ∉ line) :
    Stays s { t with line } := ⟨⟨S.idle, h, S.history⟩, S.ended⟩

theorem AtPrompt.erase (P : s.AtPrompt) (h : s.erase = some t) : Stays s t := by
  obtain ⟨sh, hsh, rfl⟩ := Option.map_eq_some_iff.mp h
  exact (P.puts hsh).setLine List.not_mem_nil

theorem AtPrompt.fetch (P : s.AtPrompt) (h : s.fetch i = some t) : Stays s t := by
  rw [Session.fetch] at h
  split at h
  · rename_i text hi
    obtain ⟨sh, hsh, rfl⟩ := Option.map_eq_some_iff.mp h
    have htext := P.history text (List.mem_of_getElem? hi)
    exact ⟨⟨P.idle.puts hsh, fun hm => htext (List.mem_of_mem_take hm), P.history⟩, rfl⟩
  · cases h

theorem AtPrompt.eraseFetch (P : s.AtPrompt)
    (h : (s.erase.bind fun s => s.fetch i) = some t) : Stays s t := by
  obtain ⟨u, hu, h⟩ := Option.bind_eq_some_iff.mp h
  have S := P.erase hu
  have S' := S.fetch h
  exact ⟨S'.toAtPrompt, S'.ended.trans S.ended⟩

theorem char_ne_nul (h : 32 ≤ c ∧ c < 127) : NUL ≠ Char.ofNat c.toNat := by
  intro he
  have hval : Nat.isValidChar c.toNat := .inl (by omega)
  have hnat : NUL.toNat = (Char.ofNat c.toNat).toNat := congrArg Char.toNat he
  rw [Char.ofNat, dif_pos hval] at hnat
  change 0 = c.toNat at hnat
  omega

/-- The answer is -1 for the end of the input only. -/
theorem AtPrompt.readlineKey {r : Session ⊕ (Int × Session)} (P : s.AtPrompt)
    (h : Session.readlineKey c s = some r) :
    (r = .inr (-1, s) ∧ (c < 0 ∨ c = KB_CTRL_D)) ∨
      (∃ n t, r = .inr (n, t) ∧ 0 ≤ n ∧ Stays s t) ∨ ∃ t, r = .inl t ∧ Stays s t := by
  cases readlineKey_keyed h with
  | ends he => exact .inl ⟨rfl, he⟩
  | ignored => exact .inr (.inr ⟨s, rfl, P, rfl⟩)
  | enter henter hsh => exact .inr (.inl ⟨_, _, rfl, Int.natCast_nonneg _, P.puts hsh⟩)
  | rubbed hsh =>
    have hline : NUL ∉ s.line.dropLast := fun hm => P.line (List.mem_of_mem_dropLast hm)
    exact .inr (.inr ⟨_, rfl, (P.puts hsh).setLine hline⟩)
  | interrupted hsh =>
    have I := P.idle.puts hsh
    refine .inr (.inl ⟨_, _, rfl, Int.le_refl 0, ?_⟩)
    exact ⟨⟨⟨I.outFile, I.inFile, I.pipeReader, I.pipeWriter, I.pipeWriting⟩, List.not_mem_nil,
      P.history⟩, rfl⟩
  | recalled hu => exact .inr (.inr ⟨_, rfl, P.eraseFetch hu⟩)
  | left hu =>
    have S := P.erase hu
    exact .inr (.inr ⟨_, rfl, ⟨S.idle, S.line, S.history⟩, S.ended⟩)
  | letter hprint hsh =>
    refine .inr (.inr ⟨_, rfl, (P.puts hsh).setLine fun hm => ?_⟩)
    rcases List.mem_append.mp hm with hm | hm
    · exact P.line hm
    · exact char_ne_nul hprint (List.mem_singleton.mp hm)

theorem strdup_text (text : List Char) (r : Ram) :
    (strdup text r).1 = none ∨ (strdup text r).1 = some text := by
  rw [strdup]
  split
  · exact .inl rfl
  · exact .inr rfl

theorem AtPrompt.addHistory (P : s.AtPrompt) :
    ∀ text, some text ∈ Session.addHistory s.history s.submit.1 → NUL ∉ text := by
  have hcopy : ∀ text, some text = s.submit.1 → NUL ∉ text := by
    intro text he
    have hsubmit : s.submit.1 = (strdup s.line s.sh.vfs.ram).1 := rfl
    rw [hsubmit] at he
    rcases strdup_text s.line s.sh.vfs.ram with hn | hs
    · rw [hn] at he
      cases he
    · rw [hs] at he
      exact Option.some.inj he ▸ P.line
  intro text htext
  rw [Session.addHistory] at htext
  split at htext
  · rcases List.mem_append.mp htext with hm | hm
    · exact P.history text hm
    · exact hcopy text (List.mem_singleton.mp hm)
  · rcases List.mem_append.mp htext with hm | hm
    · exact P.history text (List.mem_of_mem_drop hm)
    · exact hcopy text (List.mem_singleton.mp hm)

/-- `shell_run` goes on unless the answer is negative. -/
theorem AtPrompt.returned (P : s.AtPrompt) (h : Session.returned commands rest n s = some t) :
    t.AtPrompt ∧ t.ended = (decide (n < 0) || s.ended) := by
  rw [Session.returned] at h
  split at h
  · rename_i hn
    obtain ⟨sh, hsh, rfl⟩ := Option.map_eq_some_iff.mp h
    have S := P.puts hsh
    exact ⟨⟨S.idle, S.line, S.history⟩, by rw [decide_eq_true hn]; rfl⟩
  rename_i hn
  rw [decide_eq_false hn, Bool.false_or]
  split at h
  · obtain rfl := Option.some.inj h
    exact ⟨⟨P.idle, List.not_mem_nil, P.history⟩, rfl⟩
  split at h
  · cases h
  · rename_i rc ran sh hexec
    obtain rfl := Option.some.inj h
    have hsubmit : s.submit.2.Idle :=
      ⟨P.idle.outFile, P.idle.inFile, P.idle.pipeReader, P.idle.pipeWriter, P.idle.pipeWriting⟩
    have hcalls : ∀ text, Shell.Calls Call.Own text := fun _ _ _ _ _ hc => hc.own
    have hidle := (Shell.shellExecLine_spec P.line (fun _ _ t _ => hcalls t) hexec).1 hsubmit
    exact ⟨⟨hidle, List.not_mem_nil, P.addHistory⟩, rfl⟩

/-! ## One key -/

/-- What `sh_getc` makes of the next key. -/
def answer (s : Session) : Int :=
  if s.sh.keys 0 = KB_CTRL_D ∨ s.sh.keys 0 < 0 then -1
  else if s.sh.keys 0 = KB_CTRL_C then -1 else s.sh.keys 0

theorem round_eq (P : s.AtPrompt) :
    s.round = Session.readlineKey s.answer { s with sh := s.sh.keyboardGet.2 } := by
  rw [round, P.idle.getc]
  rfl

theorem step_eq (P : s.AtPrompt) (h : Session.step commands rest s = some ((), t)) :
    s.ended = false ∧ ((∃ r, s.round = some (.inl r) ∧ t = r) ∨
      ∃ n r, s.round = some (.inr (n, r)) ∧ Session.returned commands rest n r = some t) := by
  rw [Session.step] at h
  split at h
  · cases h
  rename_i hended
  refine ⟨Bool.eq_false_iff.mpr hended, ?_⟩
  rw [P.idle.getc] at h
  rw [round, P.idle.getc]
  simp only at h
  split at h
  · cases h
  · rename_i r hr
    obtain ⟨-, rfl⟩ := Prod.mk.inj (Option.some.inj h)
    exact .inl ⟨r, hr, rfl⟩
  · rename_i n r hr
    obtain ⟨u, hu, he⟩ := Option.map_eq_some_iff.mp h
    obtain ⟨-, rfl⟩ := Prod.mk.inj he
    exact .inr ⟨n, r, hr, hu⟩

/-- A key that ends the input. -/
def EndsInput (s : Session) : Prop :=
  s.sh.keys 0 = KB_CTRL_D ∨ s.sh.keys 0 = KB_CTRL_C ∨ s.sh.keys 0 < 0

theorem answer_endsInput (h : s.EndsInput) : s.answer = -1 := by
  rw [answer]
  rcases h with h | h | h
  · rw [if_pos (.inl h)]
  · rw [if_pos h]
    split <;> rfl
  · rw [if_pos (.inr h)]

theorem answer_other (h : ¬ s.EndsInput) : ¬ s.answer < 0 ∧ s.answer ≠ KB_CTRL_D := by
  rw [EndsInput, not_or, not_or] at h
  have hanswer : s.answer = s.sh.keys 0 := by
    rw [answer, if_neg fun hor => hor.elim h.1 h.2.2, if_neg h.2.1]
  rw [hanswer]
  exact ⟨h.2.2, h.1⟩

/-- The session stays at the prompt, and it ends with the input. -/
theorem AtPrompt.step (P : s.AtPrompt) (h : Session.step commands rest s = some ((), t)) :
    t.AtPrompt ∧ (t.ended = true ↔ s.EndsInput) := by
  have P' : AtPrompt { s with sh := s.sh.keyboardGet.2 } :=
    ⟨⟨P.idle.outFile, P.idle.inFile, P.idle.pipeReader, P.idle.pipeWriter, P.idle.pipeWriting⟩,
      P.line, P.history⟩
  obtain ⟨hs, hround⟩ := step_eq P h
  rw [round_eq P] at hround
  by_cases hend : s.EndsInput
  · have hread : ∀ u : Session, Session.readlineKey (-1) u = some (.inr (-1, u)) :=
      fun u => if_pos (by decide)
    rw [answer_endsInput hend, hread] at hround
    rcases hround with ⟨r, hr, -⟩ | ⟨n, r, hr, hret⟩
    · cases hr
    · obtain ⟨rfl, rfl⟩ := Prod.mk.inj (Sum.inr.inj (Option.some.inj hr))
      obtain ⟨Q, hq⟩ := P'.returned hret
      exact ⟨Q, iff_of_true (by rw [hq]; rfl) hend⟩
  · obtain ⟨hneg, hctrlD⟩ := answer_other hend
    rcases hround with ⟨r, hr, rfl⟩ | ⟨n, r, hr, hret⟩
    · rcases P'.readlineKey hr with ⟨-, he⟩ | ⟨_, _, he, -⟩ | ⟨t, he, S⟩
      · exact absurd he (not_or.mpr ⟨hneg, hctrlD⟩)
      · cases he
      · obtain rfl := Sum.inl.inj he
        exact ⟨S.toAtPrompt, iff_of_false (by rw [S.ended, hs]; decide) hend⟩
    · rcases P'.readlineKey hr with ⟨-, he⟩ | ⟨n', r', he, hn, S⟩ | ⟨_, he, -⟩
      · exact absurd he (not_or.mpr ⟨hneg, hctrlD⟩)
      · obtain ⟨rfl, rfl⟩ := Prod.mk.inj (Sum.inr.inj he)
        obtain ⟨Q, hq⟩ := S.returned hret
        refine ⟨Q, iff_of_false ?_ hend⟩
        rw [hq, S.ended, hs, decide_eq_false (Int.not_lt.mpr hn)]
        decide
      · cases he

theorem start_atPrompt (vfs : Vfs) (keys : Nat → Int) : (start vfs keys).AtPrompt :=
  ⟨⟨rfl, rfl, rfl, rfl, rfl⟩, List.not_mem_nil, fun _ h => nomatch h⟩

theorem run_atPrompt {vfs : Vfs} {keys : Nat → Int} {tr : List (List Char × Unit)}
    (H : Run (Session.step commands) (start vfs keys) tr s) : s.AtPrompt :=
  H.inv (fun _ _ _ _ P h => (AtPrompt.step P h).1) (start_atPrompt vfs keys)

/-! ## What is asked of the runs -/

/-- Ctrl-C throws the line away, with the status 130 and the prompt to follow, and only Ctrl-D leaves
the loop. -/
structure CtrlCOk (commands : Commands) (vfs : Vfs) (keys : Nat → Int)
    (tr : List (List Char × Unit)) : Prop where
  interrupt : ∀ tr' rest u t, Run (Session.step commands) (start vfs keys) tr' u →
    tr' ++ [(rest, ())] <+: tr → Session.step commands rest u = some ((), t) →
    u.sh.keys 0 = KB_CTRL_C → (∃ r, u.round = some (.inr (0, r)) ∧ r.line = []) ∧
      t.line = [] ∧ t.sh.lastExit = 130 ∧ t.ended = false
  left : ∀ tr' rest u t, Run (Session.step commands) (start vfs keys) tr' u →
    tr' ++ [(rest, ())] <+: tr → Session.step commands rest u = some ((), t) →
    t.ended = true → u.sh.keys 0 = KB_CTRL_D

end Session

open Session in
/-- A run is as expected exactly when Ctrl-C is never typed at the prompt. -/
theorem ctrlC_iff {commands : Commands} {vfs : Vfs} {keys : Nat → Int}
    {tr : List (List Char × Unit)} {s : Session}
    (H : Run (Session.step commands) (start vfs keys) tr s) :
    CtrlCOk commands vfs keys tr ↔ ∀ tr' rest u, Run (Session.step commands) (start vfs keys) tr' u →
      tr' ++ [(rest, ())] <+: tr → u.sh.keys 0 ≠ KB_CTRL_C ∧ 0 ≤ u.sh.keys 0 := by
  constructor
  · intro O tr' rest u Hu hp
    obtain ⟨t, Ht⟩ := H.of_prefix hp
    obtain ⟨u', Hu', hstep⟩ := Ht.snoc_inv
    obtain rfl := Hu.det Hu'
    have hended := (AtPrompt.step (run_atPrompt Hu) hstep).2
    refine ⟨fun hctrlC => ?_, Int.not_lt.mp fun hneg => ?_⟩
    · have hno := (O.interrupt tr' rest u t Hu hp hstep hctrlC).2.2.2
      rw [hended.mpr (.inr (.inl hctrlC))] at hno
      cases hno
    · have hctrlD := O.left tr' rest u t Hu hp hstep (hended.mpr (.inr (.inr hneg)))
      rw [hctrlD] at hneg
      exact absurd hneg (by decide)
  · intro hkeys
    constructor
    · intro tr' rest u t Hu hp _ hctrlC
      exact absurd hctrlC (hkeys tr' rest u Hu hp).1
    · intro tr' rest u t Hu hp hstep ht
      obtain ⟨hctrlC, hneg⟩ := hkeys tr' rest u Hu hp
      rcases (AtPrompt.step (run_atPrompt Hu) hstep).2.mp ht with h | h | h
      · exact h
      · exact absurd h hctrlC
      · exact absurd h (Int.not_lt.mpr hneg)

/-- The keys of a session, and Ctrl-D behind them. -/
def typedKeys (keys : List Int) (i : Nat) : Int := keys.getD i KB_CTRL_D

open Session in
/-- One letter and Ctrl-D. -/
theorem ctrlC_letter : ∃ s,
    Run (step printCommands) (start bootVfs (typedKeys [97])) [([], ()), ([], ())] s ∧
      s.ended = true ∧ CtrlCOk printCommands bootVfs (typedKeys [97]) [([], ()), ([], ())] := by
  have H : Run (step printCommands) (start bootVfs (typedKeys [97])) [([], ()), ([], ())] _ :=
    .of_exec [[], []] rfl
  have H₁ : Run (step printCommands) (start bootVfs (typedKeys [97])) [([], ())] _ :=
    .of_exec [[]] rfl
  let C (_ : List Char) (_ : Unit) (u : Session) : Prop := u.sh.keys 0 ≠ KB_CTRL_C ∧ 0 ≤ u.sh.keys 0
  have hfirst : C [] () (start bootVfs (typedKeys [97])) := by
    show (97 : Int) ≠ KB_CTRL_C ∧ (0 : Int) ≤ 97
    decide
  have hkeys := H₁.steps_snoc (C := C) (a := []) (b := ())
    (Run.nil.steps_snoc (C := C) Run.steps_nil hfirst) (by
      show KB_CTRL_D ≠ KB_CTRL_C ∧ 0 ≤ KB_CTRL_D
      decide)
  exact ⟨_, H, rfl, (ctrlC_iff H).mpr fun tr' rest u => hkeys tr' rest () u⟩

open Session in
/-- One letter and Ctrl-C end the session. -/
theorem ctrlC_leaves : ∃ s,
    Run (step printCommands) (start bootVfs (typedKeys [97, KB_CTRL_C])) [([], ()), ([], ())] s ∧
      s.ended = true ∧
      ¬ CtrlCOk printCommands bootVfs (typedKeys [97, KB_CTRL_C]) [([], ()), ([], ())] := by
  have H : Run (step printCommands) (start bootVfs (typedKeys [97, KB_CTRL_C]))
      ([([], ())] ++ [([], ())]) _ :=
    .of_exec [[], []] rfl
  have H₁ : Run (step printCommands) (start bootVfs (typedKeys [97, KB_CTRL_C])) [([], ())] _ :=
    .of_exec [[]] rfl
  refine ⟨_, H, rfl, fun O => ?_⟩
  obtain ⟨u, Hu, hstep⟩ := H.snoc_inv
  have hkey : u.sh.keys 0 = KB_CTRL_C := by
    rw [Hu.det H₁]
    rfl
  have hleft := O.left [([], ())] [] u _ Hu (List.prefix_refl _) hstep rfl
  rw [hkey] at hleft
  exact absurd hleft (by decide)

end BojanOS
