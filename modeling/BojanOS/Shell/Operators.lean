import BojanOS.Shell.LineText
import Mathlib.Data.List.Infix

/-!
# Lists of commands

`cmd1 ; cmd2 && cmd3 || cmd4`: what a reader of the line expects (`runList`, where an operator
decides about the command behind it) against what `shell_exec_line` does, which asks the operator
behind a command.
-/

namespace BojanOS

/-! ## Lines of commands -/

def Op.text : Op → List Char
  | .seq => [';']
  | .and => ['&', '&']
  | .or => ['|', '|']

/-- A command of a line: not empty, without blanks at its ends, operators and comments. -/
structure IsCommand (c : List Char) : Prop where
  ne : c ≠ []
  nul : NUL ∉ c
  first : c.head?.any isBlank = false
  last : c.getLast?.any isBlank = false
  seq : ';' ∉ c
  and : ¬ ['&', '&'] <:+: c
  or : ¬ ['|', '|'] <:+: c
  comment : '#' ∉ c

def Blanks (s : List Char) : Prop := ∀ c ∈ s, isBlank c = true

instance : DecidablePred Blanks := fun s => List.decidableBAll _ s

/-- An operator with the blanks around it, and the command behind it. -/
structure Link where
  before : List Char
  op : Op
  after : List Char
  cmd : List Char

def Link.text (l : Link) : List Char := l.before ++ (l.op.text ++ (l.after ++ l.cmd))

/-- The line of a command and the links behind it, with blanks at its end. -/
def lineOf (c : List Char) (links : List Link) (trail : List Char) : List Char :=
  c ++ (links.flatMap Link.text ++ trail)

/-- The blanks and the commands are ones. An operator that follows its command directly must not
be read together with the end of that command. -/
def WellSpaced : List Char → List Link → Prop
  | c, [] => IsCommand c
  | c, l :: links => IsCommand c ∧ Blanks l.before ∧ Blanks l.after ∧
      (l.before = [] → c.getLast? ≠ some '&' ∧ c.getLast? ≠ some '|') ∧ WellSpaced l.cmd links

/-- The segments of the line. -/
def segmentsOf (trail : List Char) : List Char → List Link → List Segment
  | c, [] => [⟨c, none, decide (trail = [])⟩]
  | c, l :: links => ⟨c, some l.op, decide (l.before = [])⟩ :: segmentsOf trail l.cmd links

theorem trimBlanks_append {c b : List Char} (hb : Blanks b)
    (hc : c.getLast?.any isBlank = false) : trimBlanks (c ++ b) = c := by
  have hrev : ∀ x ∈ b.reverse, isBlank x = true := fun x hx => hb x (List.mem_reverse.mp hx)
  rw [trimBlanks, List.rdropWhile, List.reverse_append, List.dropWhile_append_of_pos hrev]
  rcases hr : c.reverse with _ | ⟨x, s⟩
  · rw [List.reverse_eq_nil_iff.mp hr]
    rfl
  · have hlast : c.getLast? = some x := by
      rw [List.getLast?_eq_head?_reverse, hr, List.head?_cons]
    rw [hlast, Option.any_some] at hc
    rw [List.dropWhile_cons_of_neg (by simp [hc]), ← hr, List.reverse_reverse]

theorem Segment.of_command {c b : List Char} (hb : Blanks b) (hc : IsCommand c) (op : Option Op) :
    Segment.of (c ++ b) op = ⟨c, op, decide (b = [])⟩ := by
  have htight : (c = c ++ b) = (b = []) := propext List.self_eq_append_right
  simp only [Segment.of, trimBlanks_append hb hc.last, htight]

/-- Nothing is found inside `a`. -/
theorem segmentsFrom_append {cur a rest : List Char}
    (h : ∀ u x v, a = u ++ x :: v → isSeparator (x :: v ++ rest) = none ∧ x ≠ '#') :
    segmentsFrom cur (a ++ rest) = segmentsFrom (cur ++ a) rest := by
  induction a generalizing cur with
  | nil => rw [List.nil_append, List.append_nil]
  | cons x v ih =>
    obtain ⟨hsep, hne⟩ := h [] x v rfl
    rw [List.cons_append] at hsep ⊢
    rw [segmentsFrom, hsep]
    simp only [hne, if_false]
    rw [ih fun u y w hv => h (x :: u) y w (by rw [hv]; rfl), List.append_assoc]
    rfl

theorem IsCommand.no_separator {c u v rest : List Char} {x : Char} (hc : IsCommand c)
    (hend : ∀ y, c.getLast? = some y → y = '&' ∨ y = '|' → rest.head? ≠ some y)
    (h : c = u ++ x :: v) : isSeparator (x :: v ++ rest) = none := by
  have hlast : v = [] → c.getLast? = some x := by
    rintro rfl
    rw [h]
    simp
  -- the two bytes of `&&` and `||`
  have htwo : ∀ y, (y = '&' ∨ y = '|') → ¬ [y, y] <:+: c → ∀ t, x :: v ++ rest ≠ y :: y :: t := by
    intro y hy hinfix t he
    obtain ⟨rfl, he⟩ := List.cons.inj (List.cons_append ▸ he)
    cases v with
    | nil => exact hend x (hlast rfl) hy (by rw [show rest = _ from he]; rfl)
    | cons z v =>
      obtain ⟨rfl, -⟩ := List.cons.inj he
      exact hinfix ⟨u, v, by rw [h]; simp⟩
  unfold isSeparator
  split
  · rename_i he
    obtain ⟨rfl, -⟩ := List.cons.inj he
    exact absurd (h ▸ List.mem_append_right _ List.mem_cons_self) hc.seq
  · rename_i he
    exact absurd he (htwo '&' (.inl rfl) hc.and _)
  · rename_i he
    exact absurd he (htwo '|' (.inr rfl) hc.or _)
  · rfl

theorem isSeparator_blank {x : Char} (hx : isBlank x = true) (s : List Char) :
    isSeparator (x :: s) = none := by
  unfold isSeparator
  split
  · rename_i he
    obtain ⟨rfl, -⟩ := List.cons.inj he
    exact absurd hx (by decide)
  · rename_i he
    obtain ⟨rfl, -⟩ := List.cons.inj he
    exact absurd hx (by decide)
  · rename_i he
    obtain ⟨rfl, -⟩ := List.cons.inj he
    exact absurd hx (by decide)
  · rfl

theorem segmentsFrom_blanks {cur b rest : List Char} (hb : Blanks b) :
    segmentsFrom cur (b ++ rest) = segmentsFrom (cur ++ b) rest := by
  refine segmentsFrom_append fun u x v h => ?_
  have hx := hb x (h ▸ List.mem_append_right _ List.mem_cons_self)
  refine ⟨isSeparator_blank hx _, ?_⟩
  rintro rfl
  exact absurd hx (by decide)

theorem segmentsFrom_op (cur : List Char) (op : Op) (s : List Char) :
    segmentsFrom cur (op.text ++ s) =
      .of cur (some op) :: segmentsFrom [] (s.dropWhile isBlank) := by
  cases op <;> exact segmentsFrom.eq_2 _ _ _

/-- A command is read as one segment. -/
theorem segmentsFrom_command {c b rest : List Char} (hc : IsCommand c) (hb : Blanks b)
    (hend : b = [] → ∀ y, c.getLast? = some y → y = '&' ∨ y = '|' → rest.head? ≠ some y) :
    segmentsFrom [] (c ++ (b ++ rest)) = segmentsFrom (c ++ b) rest := by
  rw [← segmentsFrom_blanks hb]
  refine segmentsFrom_append fun u x v h => ⟨hc.no_separator (fun y hy hop => ?_) h, ?_⟩
  · cases b with
    | nil => exact hend rfl y hy hop
    | cons z b =>
      rintro he
      obtain rfl : z = y := Option.some.inj he
      have := hb z List.mem_cons_self
      rcases hop with rfl | rfl <;> exact absurd this (by decide)
  · rintro rfl
    exact hc.comment (h ▸ List.mem_append_right _ List.mem_cons_self)

theorem segmentsFrom_lineOf {c trail : List Char} {links : List Link} (W : WellSpaced c links)
    (ht : Blanks trail) : segmentsFrom [] (lineOf c links trail) = segmentsOf trail c links := by
  induction links generalizing c with
  | nil =>
    rw [lineOf, List.flatMap_nil, List.nil_append]
    have hend : segmentsFrom [] (c ++ (trail ++ [])) = segmentsFrom (c ++ trail) [] :=
      segmentsFrom_command W ht (by simp)
    rw [List.append_nil] at hend
    rw [hend, segmentsFrom, Segment.of_command ht W]
    rfl
  | cons l links ih =>
    obtain ⟨hc, hb, ha, hend, W⟩ := W
    have hsplit : lineOf c (l :: links) trail =
        c ++ (l.before ++ (l.op.text ++ (l.after ++ lineOf l.cmd links trail))) := by
      simp [lineOf, Link.text]
    have hcmd : IsCommand l.cmd := by
      cases links with
      | nil => exact W
      | cons => exact W.1
    have hdrop : (l.after ++ lineOf l.cmd links trail).dropWhile isBlank =
        lineOf l.cmd links trail := by
      rw [List.dropWhile_append_of_pos ha]
      obtain ⟨x, s, hx⟩ := List.exists_cons_of_ne_nil hcmd.ne
      have hblank : isBlank x = false := by
        have := hcmd.first
        rwa [hx] at this
      rw [lineOf, hx, List.cons_append, List.dropWhile_cons_of_neg (by simp [hblank])]
    rw [hsplit, segmentsFrom_command hc hb, segmentsFrom_op, hdrop, ih W,
      Segment.of_command hb hc]
    · rfl
    · rintro h y hy (rfl | rfl) he
      · exact (hend h).1 hy
      · exact (hend h).2 hy

theorem WellSpaced.command {c : List Char} {links : List Link} (W : WellSpaced c links) :
    IsCommand c := by
  cases links with
  | nil => exact W
  | cons => exact W.1

theorem Blanks.nul {s : List Char} (h : Blanks s) : NUL ∉ s :=
  fun hm => absurd (h NUL hm) (by decide)

theorem WellSpaced.nul {c trail : List Char} {links : List Link} (W : WellSpaced c links)
    (ht : Blanks trail) : NUL ∉ lineOf c links trail := by
  rw [lineOf, List.mem_append, List.mem_append, not_or, not_or]
  refine ⟨W.command.nul, ?_, ht.nul⟩
  induction links generalizing c with
  | nil => exact List.not_mem_nil
  | cons l links ih =>
    obtain ⟨-, hb, ha, -, W⟩ := W
    have hop : NUL ∉ l.op.text := by cases l.op <;> decide
    simp only [List.flatMap_cons, Link.text, List.mem_append, not_or]
    exact ⟨⟨hb.nul, hop, ha.nul, W.command.nul⟩, ih W⟩

theorem runLine_lineOf {commands : Commands} {σ : Shell} {lead c trail : List Char}
    {links : List Link} (hl : Blanks lead) (W : WellSpaced c links) (ht : Blanks trail) :
    σ.runLine commands (lead ++ lineOf c links trail) =
      σ.runSegments commands (segmentsOf trail c links) 0 0 := by
  have hc := W.command
  obtain ⟨x, s, hx⟩ := List.exists_cons_of_ne_nil hc.ne
  have hblank : isBlank x = false := by
    have := hc.first
    rwa [hx] at this
  have hne : x ≠ '#' := fun he => hc.comment (by rw [hx, he]; exact List.mem_cons_self)
  have hdrop : (lead ++ lineOf c links trail).dropWhile isBlank = lineOf c links trail := by
    rw [List.dropWhile_append_of_pos hl, lineOf, hx, List.cons_append,
      List.dropWhile_cons_of_neg (by simp [hblank])]
  obtain ⟨t, hxt⟩ : ∃ t, lineOf c links trail = x :: t := ⟨_, by rw [lineOf, hx, List.cons_append]⟩
  rw [← segmentsFrom_lineOf W ht, Shell.runLine, hdrop, hxt]
  simp only [hne, if_false]

/-! ## What a reader expects -/

/-- Whether the command behind the operator is to be run, from the status. -/
def Op.admits : Op → Int → Bool
  | .seq, _ => true
  | .and, rc => rc = 0
  | .or, rc => rc ≠ 0

namespace Shell

/-- A command, with `$?` set behind it. -/
def runCommand (commands : Commands) (c : List Char) (σ : Shell) : Option (Int × Shell) :=
  (σ.runPipeline commands c).map fun (rc, σ) => (rc, σ.shSetExit rc)

/-- The commands from number `k` on, each behind an operator. The status, the numbers of those
that are run, and the state. -/
def runList (commands : Commands) : List (Op × List Char) → Nat → Int → Shell →
    Option (Int × List Nat × Shell)
  | [], _, rc, σ => some (rc, [], σ)
  | (op, c) :: rest, k, rc, σ =>
    if op.admits rc then
      match σ.runCommand commands c with
      | none => none
      | some (rc, σ) => (runList commands rest (k + 1) rc σ).map fun (rc, ran, σ) => (rc, k :: ran, σ)
    else runList commands rest (k + 1) rc σ

end Shell

def Link.pair (l : Link) : Op × List Char := (l.op, l.cmd)

/-- What is expected of a line: the first command is run, and each other one as its operator says. -/
def expected (commands : Commands) (c : List Char) (links : List Link) (σ : Shell) :
    Option (Int × List Nat × Shell) :=
  σ.runList commands ((.seq, c) :: links.map Link.pair) 0 0

/-- What can be seen of a run: the status and which commands were run, in order. -/
def seen (r : Option (Int × List Nat × Shell)) : Option (Int × List Nat) :=
  r.map fun (rc, ran, _) => (rc, ran)

/-- Each operator is passed by the status before the command in front of it and by the status of
that command. -/
def Passes (commands : Commands) : List Char → List (Op × List Char) → Int → Shell → Prop
  | _, [], _, _ => True
  | c, (op, c') :: rest, rc, σ => op.admits rc = true ∧
      ∃ rc' σ', σ.runCommand commands c = some (rc', σ') ∧ op.admits rc' = true ∧
        Passes commands c' rest rc' σ'

section
variable {commands : Commands} {c trail : List Char} {links : List Link} {σ σ' : Shell} {rc : Int}
  {k : Nat}

/-- The numbers of the commands that are run begin at the counter. -/
theorem runList_le {rest : List (Op × List Char)} {out : Int × List Nat × Shell}
    (h : σ.runList commands rest k rc = some out) : ∀ i ∈ out.2.1, k ≤ i := by
  induction rest generalizing k rc σ out with
  | nil =>
    obtain rfl := Option.some.inj h
    simp
  | cons p rest ih =>
    obtain ⟨op, c⟩ := p
    rw [Shell.runList] at h
    split at h
    · cases hc : σ.runCommand commands c with
      | none => rw [hc] at h; cases h
      | some r =>
        rw [hc] at h
        obtain ⟨out', h', rfl⟩ := Option.map_eq_some_iff.mp h
        intro i hi
        rcases List.mem_cons.mp hi with rfl | hi
        · exact Nat.le_refl _
        · exact Nat.le_of_succ_le (ih h' i hi)
    · exact fun i hi => Nat.le_of_succ_le (ih h i hi)

theorem runsWith_eq_admits (op : Op) (rc : Int) : runsWith (some op) rc = op.admits rc := by
  cases op <;> rfl

/-- The last command is always run. -/
theorem runSegments_last (hc : c ≠ []) : σ.runSegments commands (segmentsOf trail c []) rc k =
    (σ.runCommand commands c).map fun (rc, σ) => (rc, [k], σ) := by
  have hrun : runsWith none rc = true := rfl
  rw [segmentsOf, Shell.runSegments, if_neg hc, if_pos hrun, Shell.runCommand]
  cases σ.runPipeline commands c with
  | none => rfl
  | some r =>
    simp only [Option.map_some]
    split <;> rfl

/-- The operator behind a command decides about it. -/
theorem runSegments_link {l : Link} (hc : c ≠ []) :
    σ.runSegments commands (segmentsOf trail c (l :: links)) rc k =
      if l.op.admits rc then
        match σ.runCommand commands c with
        | none => none
        | some (rc, σ) =>
          if l.before = [] then some (rc, [k], σ)
          else (σ.runSegments commands (segmentsOf trail l.cmd links) rc (k + 1)).map
            fun (rc, ran, σ) => (rc, k :: ran, σ)
      else (σ.shSetExit rc).runSegments commands (segmentsOf trail l.cmd links) rc (k + 1) := by
  rw [segmentsOf, Shell.runSegments, if_neg hc, runsWith_eq_admits, Shell.runCommand]
  cases σ.runPipeline commands c with
  | none => rfl
  | some r => simp only [Option.map_some, decide_eq_true_eq]

/-- The command is run, alone or with the rest behind it, or it is skipped. -/
theorem runSegments_link_cases {l : Link} {out : Int × List Nat × Shell} (hc : c ≠ [])
    (h : σ.runSegments commands (segmentsOf trail c (l :: links)) rc k = some out) :
    (l.op.admits rc = true ∧ ∃ r, σ.runCommand commands c = some r ∧ (out = (r.1, [k], r.2) ∨
      ∃ out', r.2.runSegments commands (segmentsOf trail l.cmd links) r.1 (k + 1) = some out' ∧
        out = (out'.1, k :: out'.2.1, out'.2.2))) ∨
    (l.op.admits rc ≠ true ∧
      (σ.shSetExit rc).runSegments commands (segmentsOf trail l.cmd links) rc (k + 1) =
        some out) := by
  rw [runSegments_link hc] at h
  split at h
  · rename_i hop
    refine .inl ⟨hop, ?_⟩
    cases hr : σ.runCommand commands c with
    | none => rw [hr] at h; cases h
    | some r =>
      rw [hr] at h
      simp only at h
      refine ⟨r, rfl, ?_⟩
      split at h
      · exact .inl (Option.some.inj h).symm
      · obtain ⟨out', h', rfl⟩ := Option.map_eq_some_iff.mp h
        exact .inr ⟨out', h', rfl⟩
  · rename_i hop
    exact .inr ⟨hop, h⟩

theorem runSegments_le {out : Int × List Nat × Shell} (W : WellSpaced c links)
    (h : σ.runSegments commands (segmentsOf trail c links) rc k = some out) :
    out.2.1 ≠ [] ∧ ∀ i ∈ out.2.1, k ≤ i := by
  have hc := W.command.ne
  induction links generalizing c k rc σ out with
  | nil =>
    rw [runSegments_last hc] at h
    obtain ⟨r, -, rfl⟩ := Option.map_eq_some_iff.mp h
    simp
  | cons l links ih =>
    have W' : WellSpaced l.cmd links := W.2.2.2.2
    rcases runSegments_link_cases hc h with ⟨-, r, -, rfl | ⟨out', h', rfl⟩⟩ | ⟨-, h⟩
    · simp
    · refine ⟨List.cons_ne_nil _ _, fun i hi => ?_⟩
      rcases List.mem_cons.mp hi with rfl | hi
      · exact Nat.le_refl _
      · exact Nat.le_of_succ_le ((ih W' h' W'.command.ne).2 i hi)
    · have := ih W' h W'.command.ne
      exact ⟨this.1, fun i hi => Nat.le_of_succ_le (this.2 i hi)⟩

/-! ## When the line is run as expected -/

/-- The commands from `c` on are all run, as expected. -/
theorem runSegments_of_passes (W : WellSpaced c links) (hb : ∀ l ∈ links, l.before ≠ [])
    (hp : Passes commands c (links.map Link.pair) rc σ) :
    σ.runSegments commands (segmentsOf trail c links) rc k =
      match σ.runCommand commands c with
      | none => none
      | some (rc, σ) => (σ.runList commands (links.map Link.pair) (k + 1) rc).map
          fun (rc, ran, σ) => (rc, k :: ran, σ) := by
  have hc := W.command.ne
  induction links generalizing c k rc σ with
  | nil =>
    rw [runSegments_last hc]
    cases σ.runCommand commands c <;> rfl
  | cons l links ih =>
    obtain ⟨hrc, rc', σ', hr, hrc', hp⟩ := hp
    have W' : WellSpaced l.cmd links := W.2.2.2.2
    rw [runSegments_link hc, if_pos hrc, hr]
    simp only
    rw [if_neg (hb l List.mem_cons_self),
      ih W' (fun l hl => hb l (List.mem_cons_of_mem _ hl)) hp W'.command.ne,
      List.map_cons, Link.pair, Shell.runList, if_pos hrc']

/-- Once a command is skipped that is not expected, or the other way round, the numbers differ: the
last command is always run. -/
theorem ran_ne_of_skip {out out' : Int × List Nat × Shell} {τ : Shell} (W : WellSpaced c links)
    (h : σ.runSegments commands (segmentsOf trail c links) rc k = some out)
    (h' : τ.runList commands (links.map Link.pair) (k + 1) rc = some out') :
    out.2.1 ≠ out'.2.1 := by
  have hc := W.command.ne
  induction links generalizing c k σ out with
  | nil =>
    rw [runSegments_last hc] at h
    obtain ⟨r, -, rfl⟩ := Option.map_eq_some_iff.mp h
    obtain rfl := Option.some.inj h'
    simp
  | cons l links ih =>
    have W' : WellSpaced l.cmd links := W.2.2.2.2
    rcases runSegments_link_cases hc h with ⟨-, r, -, hout⟩ | ⟨hop, h⟩
    · -- the command is run, and its number is not among the expected ones
      have hk : k ∈ out.2.1 := by
        rcases hout with rfl | ⟨out', -, rfl⟩
        · exact List.mem_singleton.mpr rfl
        · exact List.mem_cons_self
      intro he
      have := runList_le h' k (he ▸ hk)
      omega
    · rw [List.map_cons, Link.pair, Shell.runList, if_neg hop] at h'
      exact ih W' h h' W'.command.ne

/-- A line whose commands are run as expected passes. -/
theorem passes_of_ran_eq {out out' : Int × List Nat × Shell} (W : WellSpaced c links)
    (hb : ∀ l ∈ links, l.before ≠ [])
    (h : σ.runSegments commands (segmentsOf trail c links) rc k = some out)
    {rc' : Int} {σ' : Shell} (hr : σ.runCommand commands c = some (rc', σ'))
    (h' : σ'.runList commands (links.map Link.pair) (k + 1) rc' = some out')
    (he : out.2.1 = k :: out'.2.1) : Passes commands c (links.map Link.pair) rc σ := by
  have hc := W.command.ne
  induction links generalizing c k rc σ rc' σ' out out' with
  | nil => trivial
  | cons l links ih =>
    have W' : WellSpaced l.cmd links := W.2.2.2.2
    rw [runSegments_link hc] at h
    split at h
    · rename_i hop
      rw [hr] at h
      simp only at h
      rw [if_neg (hb l List.mem_cons_self)] at h
      obtain ⟨out₁, h₁, rfl⟩ := Option.map_eq_some_iff.mp h
      obtain ⟨-, he⟩ := List.cons.inj he
      rw [List.map_cons, Link.pair, Shell.runList] at h'
      split at h'
      · rename_i hop'
        refine ⟨hop, rc', σ', hr, hop', ?_⟩
        cases hr' : σ'.runCommand commands l.cmd with
        | none => rw [hr'] at h'; cases h'
        | some r =>
          rw [hr'] at h'
          obtain ⟨out₂, h₂, rfl⟩ := Option.map_eq_some_iff.mp h'
          exact ih W' (fun l hl => hb l (List.mem_cons_of_mem _ hl)) h₁ hr' h₂ he W'.command.ne
      · exact absurd he (ran_ne_of_skip W' h₁ h')
    · have hle := (runSegments_le W' h).2 k (he ▸ List.mem_cons_self)
      omega

end

/-- A line in which blanks stand before the operators, and whose commands return as far as they are
to be run: `shell_exec_line` does what is expected exactly when all operators pass. -/
theorem execLine_expected_iff {commands : Commands} {σ : Shell} {lead c trail T : List Char}
    {links : List Link} (hl : Blanks lead) (W : WellSpaced c links) (ht : Blanks trail)
    (hb : ∀ l ∈ links, l.before ≠ []) (hret : (expected commands c links σ).isSome) :
    seen (shellExecLine commands (lead ++ lineOf c links trail ++ NUL :: T) σ) =
      seen (expected commands c links σ) ↔ Passes commands c (links.map Link.pair) 0 σ := by
  have hnul : NUL ∉ lead ++ lineOf c links trail := by
    rw [List.mem_append, not_or]
    exact ⟨hl.nul, W.nul ht⟩
  obtain ⟨out, hout⟩ := Option.isSome_iff_exists.mp hret
  rw [shellExecLine_text commands T σ hnul, runLine_lineOf hl W ht]
  have hseq : Op.seq.admits 0 = true := rfl
  rw [expected, Shell.runList, if_pos hseq] at hout ⊢
  constructor
  · intro h
    cases hr : σ.runCommand commands c with
    | none => rw [hr] at hout; cases hout
    | some r =>
      rw [hr] at hout h
      obtain ⟨out', h', rfl⟩ := Option.map_eq_some_iff.mp hout
      simp only [h', Option.map_some] at h
      obtain ⟨out₁, h₁, he⟩ := Option.map_eq_some_iff.mp h
      exact passes_of_ran_eq W hb h₁ hr h' (congrArg Prod.snd he)
  · intro hp
    rw [runSegments_of_passes W hb hp]

/-! ## Two commands -/

/-- `true` and `false`. -/
def exitCommands : Commands := fun name =>
  if name = "true".toList then some fun _ => pure 0
  else if name = "false".toList then some fun _ => pure 1
  else none

theorem true_isCommand : IsCommand "true".toList :=
  ⟨by decide, by decide, by decide, by decide, by decide, by decide, by decide, by decide⟩

theorem false_isCommand : IsCommand "false".toList :=
  ⟨by decide, by decide, by decide, by decide, by decide, by decide, by decide, by decide⟩

def trueAndTrue : List Link := [⟨[' '], .and, [' '], "true".toList⟩]

theorem trueAndTrue_wellSpaced : WellSpaced "true".toList trueAndTrue :=
  ⟨true_isCommand, by decide, by decide, by decide, true_isCommand⟩

/-- `true && true` passes. -/
theorem trueAndTrue_expected :
    WellSpaced "true".toList trueAndTrue ∧
      seen (shellExecLine exitCommands ([] ++ lineOf "true".toList trueAndTrue [] ++ [NUL])
        bootShell) = seen (expected exitCommands "true".toList trueAndTrue bootShell) ∧
      seen (expected exitCommands "true".toList trueAndTrue bootShell) = some (0, [0, 1]) := by
  have h : (bootShell.runCommand exitCommands "true".toList).any (fun r => r.1 = 0) ∧
      seen (expected exitCommands "true".toList trueAndTrue bootShell) = some (0, [0, 1]) := by
    rw [bootShell_spelled]
    decide +kernel
  obtain ⟨hfirst, hseen⟩ := h
  obtain ⟨⟨rc, σ⟩, hrun, rfl⟩ := exists_of_any hfirst
  have hret : (expected exitCommands "true".toList trueAndTrue bootShell).isSome := by
    obtain ⟨r, hr, -⟩ := Option.map_eq_some_iff.mp hseen
    exact Option.isSome_of_eq_some hr
  have hpass : Passes exitCommands "true".toList (trueAndTrue.map Link.pair) 0 bootShell :=
    ⟨rfl, _, _, hrun, rfl, trivial⟩
  have h0 : Blanks [] := by decide
  exact ⟨trueAndTrue_wellSpaced,
    (execLine_expected_iff h0 trueAndTrue_wellSpaced h0 (by decide) hret).mpr hpass, hseen⟩

/-- `false && true` runs both commands, although the first one fails. -/
theorem falseAndTrue_not_expected :
    WellSpaced "false".toList trueAndTrue ∧
      seen (shellExecLine exitCommands (lineOf "false".toList trueAndTrue [] ++ [NUL]) bootShell) =
        some (0, [0, 1]) ∧
      seen (expected exitCommands "false".toList trueAndTrue bootShell) = some (1, [0]) := by
  refine ⟨⟨false_isCommand, by decide, by decide, by decide, true_isCommand⟩, ?_⟩
  rw [bootShell_spelled]
  decide +kernel

end BojanOS
