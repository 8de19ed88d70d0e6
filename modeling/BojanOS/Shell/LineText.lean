import BojanOS.Shell.ExecLine
import BojanOS.Shell.TokenizeOk

/-!
# A line as a text

What `exec_pipeline` and `shell_exec_line` compute, without the array that the source works in: a
pipeline is the list of its stages, a line the list of its segments. The only trace of the array is
the flag `tight` of a segment. When no blank stands between a segment and its operator, the
terminator of the segment replaces the operator, and the line ends there once the segment was run.
-/

namespace BojanOS

/-! ## Stages -/

/-- The texts of a pipeline: cut at `|`, without the blanks behind it. -/
def stages (text : List Char) : List (List Char) :=
  match text.splitOn '|' with
  | [] => []
  | t :: ts => t :: ts.map (List.dropWhile isBlank)

theorem stages_nil : stages [] = [[]] := rfl

theorem splitOn_dropWhile (s : List Char) : (s.dropWhile isBlank).splitOn '|' =
    (s.splitOn '|').modifyHead (List.dropWhile isBlank) := by
  induction s with
  | nil => rfl
  | cons c s ih =>
    cases hc : isBlank c with
    | true =>
      have hbar : (c == '|') = false := by
        cases hb : c == '|' with
        | false => rfl
        | true => rw [beq_iff_eq.mp hb] at hc; exact absurd hc (by decide)
      rw [List.dropWhile_cons_of_pos hc, ih, List.splitOn_cons_eq_if_modifyHead, hbar]
      rcases hs : s.splitOn '|' with _ | ⟨t, ts⟩
      · rfl
      · simp [hc]
    | false =>
      have hneg : ¬ isBlank c = true := by simp [hc]
      rw [List.dropWhile_cons_of_neg hneg, List.splitOn_cons_eq_if_modifyHead]
      split
      · rfl
      · rcases hs : s.splitOn '|' with _ | ⟨t, ts⟩
        · rfl
        · simp [hc]

theorem stages_ne_nil (s : List Char) : stages s ≠ [] := by
  rw [stages]
  cases hs : s.splitOn '|' with
  | nil => exact absurd hs (List.splitOn_ne_nil _ _)
  | cons t ts => exact List.cons_ne_nil _ _

theorem stages_bar (s : List Char) : stages ('|' :: s) = [] :: stages (s.dropWhile isBlank) := by
  have hsplit : ('|' :: s).splitOn '|' = [] :: s.splitOn '|' := by
    rw [List.splitOn_cons_eq_if_modifyHead]
    rfl
  rw [stages, stages, hsplit, splitOn_dropWhile]
  cases hs : s.splitOn '|' with
  | nil => exact absurd hs (List.splitOn_ne_nil _ _)
  | cons t ts => rfl

theorem stages_cons {c : Char} (h : c ≠ '|') (s : List Char) :
    stages (c :: s) = (stages s).modifyHead (c :: ·) := by
  have hbeq : (c == '|') = false := by simpa using h
  rw [stages, stages, List.splitOn_cons_eq_if_modifyHead, hbeq]
  cases s.splitOn '|' <;> rfl

/-! ## Pipelines -/

namespace Shell

/-- `run_segment` on a text. -/
def runText (commands : Commands) (text : List Char) (doPipe : Bool) (σ : Shell) :
    Option (Int × Shell) :=
  match parseInPlace σ.lastExit text σ.vfs.ram with
  | none => none
  | some (cl, ram) => runCmdline commands cl doPipe { σ with vfs := { σ.vfs with ram } }

/-- The loop of `exec_pipeline` on the stages that are left. -/
def runStages (commands : Commands) : List (List Char) → Bool → Shell → Option (Int × Shell)
  | [], _, σ => some (0, σ)
  | [text], _, σ => runText commands text false { σ with pipeWriter := none }
  | text :: rest, which, σ =>
    match runText commands text true { σ with pipeWriter := some which } with
    | none => none
    | some (_, σ) => runStages commands rest (!which) (σ.nextStage which)

def runPipeline (commands : Commands) (text : List Char) (σ : Shell) : Option (Int × Shell) :=
  (runStages commands (stages text) false σ.pipesReady).map fun (rc, σ) => (rc, σ.pipesDone)

end Shell

/-- How a run in an array of `N` bytes with `T` behind its terminator ends. -/
def Ends (T : List Char) (N : Nat) (r : Option (Int × Buf × Shell)) : Option (Int × Shell) → Prop
  | none => r = none
  | some (rc, σ) => ∃ A, A.length = N ∧ r = some (rc, A ++ NUL :: T, σ)

variable {commands : Commands} {text T : List Char} {N : Nat} {σ : Shell}

theorem runSegment_none (h : NUL ∉ text) {doPipe : Bool}
    (hr : σ.runText commands text doPipe = none) :
    σ.runSegment commands (text ++ NUL :: T) doPipe = none := by
  rw [Shell.runText] at hr
  rw [Shell.runSegment]
  cases hp : parseInPlace σ.lastExit text σ.vfs.ram with
  | none => rw [tokenize_eq_none h hp]
  | some r =>
    obtain ⟨A, cl, hA, ht, hcl⟩ := tokenize_eq_some (T := T) h hp
    rw [hp] at hr
    rw [ht]
    simp only at hr ⊢
    rw [hcl, hr]
    rfl

theorem runSegment_some (h : NUL ∉ text) {doPipe : Bool} {rc : Int} {σ' : Shell}
    (hr : σ.runText commands text doPipe = some (rc, σ')) : ∃ A, A.length = text.length ∧
      σ.runSegment commands (text ++ NUL :: T) doPipe = some (rc, A ++ NUL :: T, σ') := by
  rw [Shell.runText] at hr
  cases hp : parseInPlace σ.lastExit text σ.vfs.ram with
  | none => rw [hp] at hr; cases hr
  | some r =>
    obtain ⟨A, cl, hA, ht, hcl⟩ := tokenize_eq_some (T := T) h hp
    rw [hp] at hr
    refine ⟨A, hA, ?_⟩
    rw [Shell.runSegment, ht]
    simp only at hr ⊢
    rw [hcl, hr]
    rfl

namespace Pipeline

/-- The stage that is read begins at `seg`, and `cur` of it was read. -/
structure Reading (T : List Char) (N : Nat) (st : St) (cur rest : List Char) : Prop where
  unread : Tokenize.Unread T N st.buf st.seg (cur ++ rest)
  p : st.p = st.seg + cur.length

variable {st : St} {cur rest : List Char} {c : Char}

namespace Reading

theorem at_p (R : Reading T N st cur rest) : Tokenize.Unread T N st.buf st.p rest := by
  have := R.unread.drop (k := cur.length) (by simp)
  rwa [← R.p, List.drop_left] at this

theorem next (R : Reading T N st cur (c :: rest)) :
    Reading T N { st with p := st.p + 1 } (cur ++ [c]) rest where
  unread := by
    rw [List.append_assoc]
    exact R.unread
  p := by
    simp only [R.p, List.length_append, List.length_singleton]
    omega

theorem cur_nul (R : Reading T N st cur rest) : NUL ∉ cur :=
  fun hm => R.unread.nul (List.mem_append_left _ hm)

theorem seg_length (R : Reading T N st cur rest) : (st.buf.take st.seg).length = st.seg :=
  R.unread.take_length

end Reading

theorem step_end (h : st.buf[st.p]? = some NUL) : step commands st =
    match { st.σ with pipeWriter := none }.runSegment commands (st.buf.drop st.seg) false with
    | none => none
    | some (rc, rest, σ) => some (.inr (rc, st.buf.take st.seg ++ rest, σ)) := by
  rw [step, h]
  rfl

theorem step_bar (h : st.buf[st.p]? = some '|') : step commands st =
    match { st.σ with pipeWriter := some st.which }.runSegment commands
      ((st.buf.set st.p NUL).drop st.seg) true with
    | none => none
    | some (_, rest, σ) =>
      let buf := (st.buf.set st.p NUL).take st.seg ++ rest
      let p := skipBlanks buf (st.p + 1)
      some (.inl ⟨buf, p, p, !st.which, σ.nextStage st.which⟩) := by
  rw [step, h]
  rfl

theorem step_char (h : st.buf[st.p]? = some c) (hbar : c ≠ '|') (hnul : c ≠ NUL) :
    step commands st = some (.inl { st with p := st.p + 1 }) := by
  rw [step, h]
  simp [hbar, hnul]

namespace Reading

theorem drop_end (R : Reading T N st cur []) : st.buf.drop st.seg = cur ++ NUL :: T := by
  have := R.unread.text
  rwa [At, List.append_nil] at this

theorem last_none (R : Reading T N st cur [])
    (h : { st.σ with pipeWriter := none }.runText commands cur false = none) :
    step commands st = none := by
  rw [step_end R.at_p.text.get_nil, R.drop_end, runSegment_none R.cur_nul h]

theorem last_some (R : Reading T N st cur []) {rc : Int} {σ' : Shell}
    (h : { st.σ with pipeWriter := none }.runText commands cur false = some (rc, σ')) :
    ∃ A, A.length = N ∧ step commands st = some (.inr (rc, A ++ NUL :: T, σ')) := by
  obtain ⟨A, hA, hs⟩ := runSegment_some (T := T) R.cur_nul h
  refine ⟨st.buf.take st.seg ++ A, ?_, ?_⟩
  · have hlen := R.at_p.len
    rw [R.p] at hlen
    rw [List.length_append, R.seg_length, hA]
    exact hlen
  · rw [step_end R.at_p.text.get_nil, R.drop_end, hs]
    simp

/-- The line after the store over a `|`. -/
theorem set_bar (R : Reading T N st cur (c :: rest)) :
    st.buf.set st.p NUL = st.buf.take st.seg ++ (cur ++ NUL :: (rest ++ NUL :: T)) := by
  rw [R.p]
  exact R.unread.set_nul

theorem drop_bar (R : Reading T N st cur (c :: rest)) :
    (st.buf.set st.p NUL).drop st.seg = cur ++ NUL :: (rest ++ NUL :: T) := by
  rw [R.set_bar, List.drop_left' R.seg_length]

theorem bar_none (R : Reading T N st cur ('|' :: rest))
    (h : { st.σ with pipeWriter := some st.which }.runText commands cur true = none) :
    step commands st = none := by
  rw [step_bar R.at_p.text.get_cons, R.drop_bar, runSegment_none R.cur_nul h]

theorem bar_some (R : Reading T N st cur ('|' :: rest)) {rc : Int} {σ' : Shell}
    (h : { st.σ with pipeWriter := some st.which }.runText commands cur true = some (rc, σ')) :
    ∃ st', step commands st = some (.inl st') ∧ Reading T N st' [] (rest.dropWhile isBlank) ∧
      st'.which = !st.which ∧ st'.σ = σ'.nextStage st.which := by
  obtain ⟨A, hA, hs⟩ := runSegment_some (T := rest ++ NUL :: T) R.cur_nul h
  rw [step_bar R.at_p.text.get_cons, R.drop_bar, hs]
  have htake : (st.buf.set st.p NUL).take st.seg = st.buf.take st.seg := by
    rw [R.set_bar, List.take_left' R.seg_length]
  have hp : (st.buf.take st.seg ++ (A ++ [NUL])).length = st.p + 1 := by
    rw [List.length_append, List.length_append, R.seg_length, R.p, hA, List.length_singleton,
      Nat.add_assoc]
  have U : Tokenize.Unread T N (st.buf.take st.seg ++ (A ++ NUL :: (rest ++ NUL :: T)))
      (st.p + 1) rest := by
    refine ⟨?_, R.at_p.tail.nul, R.at_p.tail.len⟩
    have : st.buf.take st.seg ++ (A ++ NUL :: (rest ++ NUL :: T)) =
        (st.buf.take st.seg ++ (A ++ [NUL])) ++ (rest ++ NUL :: T) := by simp
    rw [At, this, List.drop_left' hp]
  simp only [htake]
  exact ⟨_, rfl, ⟨U.skipBlanks, rfl⟩, rfl, rfl⟩

end Reading

/-- The rounds of the loop from there on. -/
theorem Reading.run (commands : Commands) {n : Nat} (R : Reading T N st cur rest)
    (hn : rest.length < n) :
    Ends T N (Loop.run (step commands) n st)
      (st.σ.runStages commands ((stages rest).modifyHead (cur ++ ·)) st.which) := by
  induction n generalizing st cur rest with
  | zero => omega
  | succ n ih =>
    rw [Loop.run]
    cases rest with
    | nil =>
      rw [stages_nil, List.modifyHead_cons, List.append_nil, Shell.runStages]
      cases h : { st.σ with pipeWriter := none }.runText commands cur false with
      | none => rw [R.last_none h]; rfl
      | some r =>
        obtain ⟨A, hA, hs⟩ := R.last_some h
        rw [hs]
        exact ⟨A, hA, rfl⟩
    | cons c rest =>
      rw [List.length_cons] at hn
      by_cases hc : c = '|'
      · subst hc
        rw [stages_bar, List.modifyHead_cons, List.append_nil]
        obtain ⟨t, ts, ht⟩ := List.exists_cons_of_ne_nil (stages_ne_nil (rest.dropWhile isBlank))
        cases h : { st.σ with pipeWriter := some st.which }.runText commands cur true with
        | none =>
          rw [R.bar_none h, ht, Shell.runStages, h]
          · rfl
          · simp
        | some r =>
          obtain ⟨st', hs, R', hw, hσ⟩ := R.bar_some h
          have hlen : (rest.dropWhile isBlank).length < n := by
            have := (List.dropWhile_suffix isBlank (l := rest)).length_le
            omega
          have := ih R' hlen
          rw [ht, hw, hσ] at this
          rw [hs, ht, Shell.runStages, h]
          · exact this
          · simp
      · have U := R.at_p
        have hfun : (cur ++ ·) ∘ (c :: ·) = ((cur ++ [c]) ++ ·) := by
          funext t
          simp
        rw [step_char U.text.get_cons hc U.ne_nul, stages_cons hc, List.modifyHead_modifyHead, hfun]
        exact ih R.next (by omega)

end Pipeline

/-- `exec_pipeline` on a text, whatever the byte behind it. -/
theorem execPipeline_text (commands : Commands) (σ : Shell) (h : NUL ∉ text) (c : Char) :
    Ends T text.length (execPipeline commands (text ++ c :: T) text.length σ)
      (σ.runPipeline commands text) := by
  have hstore : store (text ++ c :: T) text.length NUL = some (text ++ NUL :: T) := by
    rw [store, if_pos (by simp), List.set_append_right _ _ (Nat.le_refl _), Nat.sub_self,
      List.set_cons_zero]
  have R : Pipeline.Reading T text.length ⟨text ++ NUL :: T, 0, 0, false, σ.pipesReady⟩ [] text :=
    ⟨⟨rfl, h, Nat.zero_add _⟩, rfl⟩
  have hfuel : text.length <
      Pipeline.measure ⟨text ++ NUL :: T, 0, 0, false, σ.pipesReady⟩ + 1 := by
    simp only [Pipeline.measure, List.length_append, List.length_cons]
    omega
  have hrun := R.run commands hfuel
  have hhead : (stages text).modifyHead (([] : List Char) ++ ·) = stages text := by
    cases stages text <;> rfl
  rw [hhead] at hrun
  rw [execPipeline, hstore, Shell.runPipeline]
  cases hr : Shell.runStages commands (stages text) false σ.pipesReady with
  | none =>
    rw [hr] at hrun
    exact congrArg (Option.map _) hrun
  | some r =>
    rw [hr] at hrun
    obtain ⟨A, hA, hs⟩ := hrun
    exact ⟨A, hA, congrArg (Option.map _) hs⟩

/-! ## Segments -/

structure Segment where
  text : List Char
  op : Option Op
  tight : Bool

/-- The segment `cur` with the operator behind it. -/
def Segment.of (cur : List Char) (op : Option Op) : Segment :=
  { text := trimBlanks cur, op, tight := trimBlanks cur = cur }

/-- The segments of the text `cur ++ rest`, of which `cur` was read. -/
def segmentsFrom (cur : List Char) : List Char → List Segment
  | [] => [.of cur none]
  | c :: s =>
    match isSeparator (c :: s) with
    | some (op, skip) => .of cur op :: segmentsFrom [] ((s.drop (skip - 1)).dropWhile isBlank)
    | none => if c = '#' then [.of cur none] else segmentsFrom (cur ++ [c]) s
termination_by s => s.length
decreasing_by
  · have := (List.dropWhile_suffix isBlank (l := s.drop (skip - 1))).length_le
    rw [List.length_drop] at this
    rw [List.length_cons]
    omega
  · exact Nat.lt_succ_self _

namespace Shell

/-- The loop of `shell_exec_line` on the segments that are left. -/
def runSegments (commands : Commands) : List Segment → Int → Nat → Shell →
    Option (Int × List Nat × Shell)
  | [], rc, _, σ => some (rc, [], σ)
  | seg :: rest, rc, seen, σ =>
    if seg.text = [] then runSegments commands rest rc seen σ
    else if runsWith seg.op rc then
      match σ.runPipeline commands seg.text with
      | none => none
      | some (rc, σ) =>
        if seg.tight then some (rc, [seen], σ.shSetExit rc)
        else (runSegments commands rest rc (seen + 1) (σ.shSetExit rc)).map fun (rc, ran, σ) =>
          (rc, seen :: ran, σ)
    else runSegments commands rest rc (seen + 1) (σ.shSetExit rc)

def runLine (commands : Commands) (text : List Char) (σ : Shell) :
    Option (Int × List Nat × Shell) :=
  match text.dropWhile isBlank with
  | [] => some (0, [], σ)
  | c :: s => if c = '#' then some (0, [], σ) else σ.runSegments commands (segmentsFrom [] (c :: s)) 0 0

end Shell

namespace ExecLine

/-- The segment that is read begins at `start`, and `cur` of it was read. -/
def Scanning (st : St) (cur rest : List Char) : Prop :=
  ∃ T N, Tokenize.Unread T N st.buf st.start (cur ++ rest) ∧ st.p = st.start + cur.length

variable {st : St} {cur rest : List Char} {kind : Option Op}

theorem segment_eq (commands : Commands) (kind : Option Op) (S : Scanning st cur rest) :
    segment commands st kind =
    if (trimBlanks cur).length = 0 then some st
    else if runsWith kind st.rc then
      match execPipeline commands (st.buf.drop st.start) (trimBlanks cur).length st.σ with
      | none => none
      | some (rc, rest, σ) => some { st with
          buf := st.buf.take st.start ++ rest, rc, σ := σ.shSetExit rc
          seen := st.seen + 1, ran := st.ran ++ [st.seen] }
    else some { st with σ := st.σ.shSetExit st.rc, seen := st.seen + 1 } := by
  obtain ⟨T, N, U, hp⟩ := S
  have hcur : (st.buf.drop st.start).take (st.p - st.start) = cur := by
    rw [U.text, hp, Nat.add_sub_cancel_left, List.append_assoc, List.take_left]
  cases hp : execPipeline commands (st.buf.drop st.start) (trimBlanks cur).length st.σ <;>
    simp only [segment, hcur, hp]

/-- The segment without the blanks at its end, the byte behind it, and the rest of the array. -/
structure Cut (st : St) (cur rest b T : List Char) (N : Nat) (x : Char) (T' : List Char) : Prop where
  unread : Tokenize.Unread T N st.buf st.start (cur ++ rest)
  p : st.p = st.start + cur.length
  split : trimBlanks cur ++ b = cur
  behind : b ++ (rest ++ NUL :: T) = x :: T'
  drop : st.buf.drop st.start = trimBlanks cur ++ x :: T'
  nul : NUL ∉ trimBlanks cur
  front : (st.buf.take st.start).length = st.start

theorem Scanning.cut (S : Scanning st cur rest) : ∃ b T N x T', Cut st cur rest b T N x T' := by
  obtain ⟨T, N, U, hp⟩ := S
  obtain ⟨b, hb⟩ : ∃ b, trimBlanks cur ++ b = cur := List.rdropWhile_prefix isBlank cur
  obtain ⟨x, T', hx⟩ : ∃ x T', b ++ (rest ++ NUL :: T) = x :: T' := by
    cases b with
    | nil => cases rest <;> exact ⟨_, _, rfl⟩
    | cons y b => exact ⟨_, _, rfl⟩
  refine ⟨b, T, N, x, T', U, hp, hb, hx, ?_, ?_, ?_⟩
  · rw [U.text, ← hx]
    conv_lhs => rw [← hb]
    simp
  · exact fun hm => U.nul (List.mem_append_left _ (hb ▸ List.mem_append_left _ hm))
  · exact U.take_length

theorem segment_none (S : Scanning st cur rest) (h : trimBlanks cur ≠ [])
    (hk : runsWith kind st.rc = true)
    (hr : st.σ.runPipeline commands (trimBlanks cur) = none) :
    segment commands st kind = none := by
  have hlen : (trimBlanks cur).length ≠ 0 := fun h0 => h (List.length_eq_zero_iff.mp h0)
  obtain ⟨b, T, N, x, T', C⟩ := S.cut
  have hends := execPipeline_text (T := T') commands st.σ C.nul x
  rw [hr] at hends
  rw [segment_eq commands kind S, if_neg hlen, if_pos hk, C.drop, show _ = none from hends]

/-- The array after a segment was run: up to its end it is overwritten, from there on it is as
before, but for the terminator. -/
theorem segment_some (S : Scanning st cur rest) (h : trimBlanks cur ≠ [])
    (hk : runsWith kind st.rc = true) {rc : Int} {σ : Shell}
    (hr : st.σ.runPipeline commands (trimBlanks cur) = some (rc, σ)) :
    ∃ buf, segment commands st kind = some { st with
        buf, rc, σ := σ.shSetExit rc, seen := st.seen + 1, ran := st.ran ++ [st.seen] } ∧
      (trimBlanks cur = cur → buf[st.p]? = some NUL) ∧
      (trimBlanks cur ≠ cur → ∃ T N, Tokenize.Unread T N buf st.p rest) := by
  have hlen : (trimBlanks cur).length ≠ 0 := fun h0 => h (List.length_eq_zero_iff.mp h0)
  obtain ⟨b, T, N, x, T', C⟩ := S.cut
  have hends := execPipeline_text (T := T') commands st.σ C.nul x
  rw [hr] at hends
  obtain ⟨A, hA, hs⟩ := hends
  have heq := segment_eq commands kind S
  rw [if_neg hlen, if_pos hk, C.drop, hs] at heq
  refine ⟨_, heq, fun ht => ?_, fun ht => ?_⟩
  · apply At.get_nil (T := T')
    have hl : (st.buf.take st.start ++ A).length = st.p := by
      rw [List.length_append, C.front, hA, C.p, ht]
    rw [At, ← List.append_assoc, List.drop_left' hl]
    rfl
  · have hcur := C.split
    have hx := C.behind
    cases b with
    | nil => exact absurd (by rwa [List.append_nil] at hcur) ht
    | cons y b =>
      rw [List.cons_append] at hx
      obtain ⟨-, rfl⟩ := List.cons.inj hx
      have hl : (st.buf.take st.start ++ (A ++ NUL :: b)).length = st.p := by
        have hlen := congrArg List.length hcur
        rw [List.length_append, List.length_cons] at hlen
        rw [List.length_append, List.length_append, C.front, hA, C.p, List.length_cons, hlen]
      refine ⟨T, N, ?_, ?_, ?_⟩
      · have : st.buf.take st.start ++ (A ++ NUL :: (b ++ (rest ++ NUL :: T))) =
            (st.buf.take st.start ++ (A ++ NUL :: b)) ++ (rest ++ NUL :: T) := by simp
        rw [At, this, List.drop_left' hl]
      · exact fun hm => C.unread.nul (List.mem_append_right _ hm)
      · have := C.unread.len
        rw [List.length_append] at this
        rw [C.p]
        omega

/-- The end of a run from a state in which the segments `ran` had been run. -/
def Result (ran : List Nat) (r : Option St) (t : Option (Int × List Nat × Shell)) : Prop :=
  (r.map fun st => (st.rc, st.ran, st.σ)) = t.map fun t => (t.1, ran ++ t.2.1, t.2.2)

theorem Scanning.at_p (S : Scanning st cur rest) : ∃ T N, Tokenize.Unread T N st.buf st.p rest := by
  obtain ⟨T, N, U, hp⟩ := S
  have := U.drop (k := cur.length) (by simp)
  rw [← hp, List.drop_left] at this
  exact ⟨T, N, this⟩

theorem isSeparator_append {c : Char} {s T : List Char} :
    isSeparator (c :: s ++ NUL :: T) = isSeparator (c :: s) := by
  rcases s with _ | ⟨d, s⟩
  · have hamp : NUL ≠ '&' := by decide
    have hbar : NUL ≠ '|' := by decide
    unfold isSeparator
    split <;> simp_all
  · simp only [List.cons_append]
    unfold isSeparator
    split <;> simp_all

/-- What comes after a segment that leaves the array intact from the operator on. -/
theorem advance_next (st : St) (skip : Nat) {buf : Buf} {T : List Char} {N p : Nat} {c : Char}
    {s : List Char}
    (U : Tokenize.Unread T N buf p (c :: s)) (hs : skip ≤ s.length + 1) (h : st.buf = buf)
    (hp : st.p = p) : ∃ st', advance st skip = some (.inl st') ∧
      Scanning st' [] (((c :: s).drop skip).dropWhile isBlank) ∧
      st'.rc = st.rc ∧ st'.σ = st.σ ∧ st'.seen = st.seen ∧ st'.ran = st.ran := by
  subst h hp
  rw [advance, U.text.get_cons]
  simp only [U.ne_nul, if_false]
  exact ⟨_, rfl, ⟨T, N, (U.drop hs).skipBlanks, rfl⟩, rfl, rfl, rfl, rfl⟩

theorem isSeparator_skip {s : List Char} {op : Op} {skip : Nat}
    (h : isSeparator s = some (op, skip)) : 1 ≤ skip ∧ skip ≤ s.length := by
  unfold isSeparator at h
  split at h
  · obtain ⟨-, rfl⟩ : Op.seq = op ∧ 1 = skip := by simpa using h
    simp
  · obtain ⟨-, rfl⟩ : Op.and = op ∧ 2 = skip := by simpa using h
    simp
  · obtain ⟨-, rfl⟩ : Op.or = op ∧ 2 = skip := by simpa using h
    simp
  · cases h

theorem step_separator {c : Char} {s : List Char} {op : Op} {skip : Nat}
    (S : Scanning st cur (c :: s)) (h : isSeparator (c :: s) = some (op, skip)) :
    step commands st = match segment commands st (some op) with
      | none => none
      | some st => advance st skip := by
  obtain ⟨T, N, U⟩ := S.at_p
  rw [step, U.text.get_cons]
  simp only [U.ne_nul, if_false]
  have hsep : isSeparator (st.buf.drop st.p) = some (op, skip) := by
    rw [U.text, isSeparator_append, h]
  cases hs : segment commands st (some op) <;> simp only [hsep, hs]

theorem step_end (S : Scanning st cur []) :
    step commands st = match segment commands st none with
      | none => none
      | some st => advance st 0 := by
  obtain ⟨T, N, U⟩ := S.at_p
  rw [step, U.text.get_nil]
  rfl

/-- A `#` ends the line. -/
theorem step_comment (commands : Commands) {s : List Char} (S : Scanning st cur ('#' :: s)) :
    ∃ buf, step commands st = some (.inl { st with buf }) ∧ Scanning { st with buf } cur [] := by
  obtain ⟨T, N, U⟩ := S.at_p
  refine ⟨st.buf.set st.p NUL, ?_, ?_⟩
  · rw [step, U.text.get_cons]
    simp only [U.ne_nul, if_false]
    rw [U.text, isSeparator_append]
    rfl
  · obtain ⟨T, N, U, hp⟩ := S
    refine ⟨s ++ NUL :: T, st.p, ⟨?_, ?_, ?_⟩, hp⟩
    · rw [At, hp, U.set_nul, List.drop_left' U.take_length, List.append_nil]
    · rw [List.append_nil]
      exact fun hm => U.nul (List.mem_append_left _ hm)
    · rw [List.append_nil, hp]

theorem step_char (commands : Commands) {c : Char} {s : List Char} (S : Scanning st cur (c :: s))
    (h : isSeparator (c :: s) = none) (hc : c ≠ '#') :
    step commands st = some (.inl { st with p := st.p + 1 }) ∧
      Scanning { st with p := st.p + 1 } (cur ++ [c]) s := by
  obtain ⟨T, N, U⟩ := S.at_p
  refine ⟨?_, ?_⟩
  · rw [step, U.text.get_cons]
    simp only [U.ne_nul, if_false]
    rw [U.text, isSeparator_append, h]
    simp only [hc, if_false]
  · obtain ⟨T, N, U, hp⟩ := S
    refine ⟨T, N, ?_, ?_⟩
    · rw [List.append_assoc]
      exact U
    · simp only [hp, List.length_append, List.length_singleton, Nat.add_assoc]

theorem Result.none {ran : List Nat} {r : Option St} {t : Option (Int × List Nat × Shell)}
    (hr : r = none) (ht : t = none) : Result ran r t := by
  rw [Result, hr, ht]
  rfl

theorem advance_end (h : st.buf[st.p]? = some NUL) (skip : Nat) :
    advance st skip = some (.inr st) := by
  rw [advance, h]
  rfl

/-- An empty segment. -/
theorem segment_empty (S : Scanning st cur rest) (h : trimBlanks cur = []) :
    segment commands st kind = some st := by
  rw [segment_eq commands kind S, h]
  rfl

/-- A segment that is not run. -/
theorem segment_skip (S : Scanning st cur rest) (h : trimBlanks cur ≠ [])
    (hk : runsWith kind st.rc ≠ true) : segment commands st kind =
      some { st with σ := st.σ.shSetExit st.rc, seen := st.seen + 1 } := by
  have hlen : (trimBlanks cur).length ≠ 0 := fun h0 => h (List.length_eq_zero_iff.mp h0)
  rw [segment_eq commands kind S, if_neg hlen, if_neg hk]

/-- The round at the end of the line. -/
theorem Scanning.run_end (commands : Commands) (S : Scanning st cur []) (n : Nat) :
    Result st.ran (Loop.run (step commands) (n + 1) st)
      (st.σ.runSegments commands (segmentsFrom cur []) st.rc st.seen) := by
  obtain ⟨T, N, U⟩ := S.at_p
  rw [Loop.run, step_end S, segmentsFrom, Shell.runSegments, Segment.of]
  simp only
  rcases eq_or_ne (trimBlanks cur) [] with ht | ht
  · rw [segment_empty S ht, if_pos ht]
    simp only
    rw [advance_end U.text.get_nil]
    simp [Result, Shell.runSegments]
  have hk : runsWith none st.rc = true := rfl
  rw [if_neg ht, if_pos hk]
  cases hr : st.σ.runPipeline commands (trimBlanks cur) with
  | none => exact .none (by rw [segment_none S ht hk hr]) rfl
  | some r =>
    obtain ⟨buf, hseg, htight, hloose⟩ := segment_some S ht hk hr
    rw [hseg]
    simp only [decide_eq_true_eq]
    rcases eq_or_ne (trimBlanks cur) cur with hc | hc
    · rw [if_pos hc, advance_end (htight hc)]
      rfl
    · obtain ⟨T, N, U⟩ := hloose hc
      rw [if_neg hc, advance_end U.text.get_nil]
      rfl

/-- A round at an operator, with what `n` rounds do from the next segment on. -/
theorem Scanning.run_separator (commands : Commands) {n : Nat} {c : Char} {s : List Char}
    (S : Scanning st cur (c :: s)) (hn : s.length < n) {op : Op} {skip : Nat}
    (hsep : isSeparator (c :: s) = some (op, skip))
    (ih : ∀ {st cur rest}, Scanning st cur rest → rest.length < n →
      Result st.ran (Loop.run (step commands) n st)
        (st.σ.runSegments commands (segmentsFrom cur rest) st.rc st.seen)) :
    Result st.ran (Loop.run (step commands) (n + 1) st)
      (st.σ.runSegments commands (segmentsFrom cur (c :: s)) st.rc st.seen) := by
  obtain ⟨T, N, U⟩ := S.at_p
  obtain ⟨hs1, hs2⟩ := isSeparator_skip hsep
  have hdrop : (c :: s).drop skip = s.drop (skip - 1) := by
    cases skip with
    | zero => omega
    | succ skip => rfl
  have hrest : ((s.drop (skip - 1)).dropWhile isBlank).length < n := by
    have := (List.dropWhile_suffix isBlank (l := s.drop (skip - 1))).length_le
    rw [List.length_drop] at this
    omega
  rw [Loop.run, step_separator S hsep, segmentsFrom, hsep]
  simp only
  rw [Shell.runSegments, Segment.of]
  simp only
  rcases eq_or_ne (trimBlanks cur) [] with ht | ht
  · rw [segment_empty S ht, if_pos ht]
    simp only
    obtain ⟨st', hst, S', hrc, hσ, hseen, hran⟩ := advance_next st skip U hs2 rfl rfl
    rw [hst, ← hrc, ← hσ, ← hseen, ← hran]
    exact ih (hdrop ▸ S') hrest
  rw [if_neg ht]
  cases hk : runsWith (some op) st.rc with
  | false =>
    have hne : runsWith (some op) st.rc ≠ true := by simp [hk]
    rw [segment_skip S ht hne]
    simp only [Bool.false_eq_true, if_false]
    obtain ⟨st', hst, S', hrc, hσ, hseen, hran⟩ :=
      advance_next { st with σ := st.σ.shSetExit st.rc, seen := st.seen + 1 } skip U hs2 rfl rfl
    have := ih (hdrop ▸ S') hrest
    rw [hrc, hσ, hseen, hran] at this
    rw [hst]
    exact this
  | true =>
    cases hr : st.σ.runPipeline commands (trimBlanks cur) with
    | none => exact .none (by rw [segment_none S ht hk hr]) rfl
    | some r =>
      obtain ⟨buf, hseg, htight, hloose⟩ := segment_some S ht hk hr
      rw [hseg]
      simp only [if_true, decide_eq_true_eq]
      rcases eq_or_ne (trimBlanks cur) cur with hc | hc
      · rw [if_pos hc, advance_end (htight hc)]
        rfl
      · obtain ⟨T, N, U⟩ := hloose hc
        obtain ⟨st', hst, S', hrc, hσ, hseen, hran⟩ :=
          advance_next { st with
            buf, rc := r.1, σ := r.2.shSetExit r.1, seen := st.seen + 1
            ran := st.ran ++ [st.seen] } skip U hs2 rfl rfl
        have := ih (hdrop ▸ S') hrest
        rw [hrc, hσ, hseen, hran] at this
        rw [hst, if_neg hc]
        rw [Result] at this ⊢
        simp only [this, Option.map_map, Function.comp_def, List.append_assoc,
          List.singleton_append]

/-- The rounds of the loop from there on. -/
theorem Scanning.run (commands : Commands) {n : Nat} (S : Scanning st cur rest)
    (hn : rest.length < n) : Result st.ran (Loop.run (step commands) n st)
      (st.σ.runSegments commands (segmentsFrom cur rest) st.rc st.seen) := by
  induction n generalizing st cur rest with
  | zero => omega
  | succ n ih =>
    cases rest with
    | nil => exact S.run_end commands n
    | cons c s =>
      rw [List.length_cons] at hn
      cases hsep : isSeparator (c :: s) with
      | some r => exact S.run_separator commands (Nat.lt_of_succ_lt_succ hn) hsep ih
      | none =>
        rw [Loop.run, segmentsFrom, hsep]
        rcases eq_or_ne c '#' with rfl | hc
        · obtain ⟨buf, hs, S'⟩ := step_comment commands S
          rw [hs, if_pos rfl]
          have := ih S' (by simp; omega)
          rw [segmentsFrom] at this
          exact this
        · obtain ⟨hs, S'⟩ := step_char commands S hsep hc
          rw [hs, if_neg hc]
          exact ih S' (by omega)

end ExecLine

/-- `shell_exec_line` is `runLine`, a function of the text. -/
theorem shellExecLine_text (commands : Commands) (T : List Char) (σ : Shell) (h : NUL ∉ text) :
    shellExecLine commands (text ++ NUL :: T) σ = σ.runLine commands text := by
  have U : Tokenize.Unread T text.length (text ++ NUL :: T) (skipBlanks (text ++ NUL :: T) 0)
      (text.dropWhile isBlank) :=
    Tokenize.Unread.skipBlanks ⟨rfl, h, Nat.zero_add _⟩
  rw [shellExecLine, Shell.runLine]
  generalize skipBlanks (text ++ NUL :: T) 0 = start at U
  rw [U.text.get]
  cases hd : text.dropWhile isBlank with
  | nil => rfl
  | cons c s =>
    rw [hd] at U
    simp only [List.headD_cons, U.ne_nul, false_or]
    split
    · rfl
    · have S : ExecLine.Scanning ⟨text ++ NUL :: T, start, start, 0, σ, 0, []⟩ [] (c :: s) :=
        ⟨T, text.length, U, rfl⟩
      have hfuel : (c :: s).length <
          ExecLine.measure ⟨text ++ NUL :: T, start, start, 0, σ, 0, []⟩ + 1 := by
        have := U.text.lt
        simp only [ExecLine.measure]
        omega
      have := S.run commands hfuel
      rw [Loop.exec]
      simpa [ExecLine.Result] using this

end BojanOS
