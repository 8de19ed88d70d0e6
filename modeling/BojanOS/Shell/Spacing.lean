import BojanOS.Shell.Operators

/-!
# Blanks around operators

The renderings of one list of commands, with any blanks around the operators. Where no blank stands
behind a command that is run, `exec_pipeline` writes its terminator over the operator, and the
line ends there; so the blanks do not matter only on lines that run nothing but their last command.
-/

namespace BojanOS

/-- A command that no operator can be read together with. -/
structure IsClosed (c : List Char) : Prop extends IsCommand c where
  amp : c.getLast? ≠ some '&'
  bar : c.getLast? ≠ some '|'

/-- The spacings of a list of commands. -/
structure Spacing (rest : List (Op × List Char)) (links : List Link) : Prop where
  pairs : links.map Link.pair = rest
  blanks : ∀ l ∈ links, Blanks l.before ∧ Blanks l.after

/-- Whether the blanks around the operators make no difference to what can be seen of the run. -/
def SpacingFree (commands : Commands) (c : List Char) (rest : List (Op × List Char)) (σ : Shell) :
    Prop :=
  ∀ lead trail T links links', Blanks lead → Blanks trail → Spacing rest links →
    Spacing rest links' →
    seen (shellExecLine commands (lead ++ lineOf c links trail ++ NUL :: T) σ) =
      seen (shellExecLine commands (lead ++ lineOf c links' trail ++ NUL :: T) σ)

/-- The first command that is not in front of a `||` does not return. -/
def Stuck (commands : Commands) : List Char → List (Op × List Char) → Shell → Prop
  | _, [], _ => False
  | c, (op, c') :: rest, σ =>
    if op = .or then Stuck commands c' rest (σ.shSetExit 0) else σ.runPipeline commands c = none

variable {commands : Commands} {c trail : List Char} {rest : List (Op × List Char)}
  {links links' : List Link} {σ : Shell} {k : Nat}

theorem Spacing.wellSpaced (S : Spacing rest links) (hc : IsClosed c)
    (hr : ∀ p ∈ rest, IsClosed p.2) : WellSpaced c links := by
  obtain ⟨rfl, hb⟩ := S
  induction links generalizing c with
  | nil => exact hc.toIsCommand
  | cons l links ih =>
    obtain ⟨hb₁, hb₂⟩ := hb l List.mem_cons_self
    refine ⟨hc.toIsCommand, hb₁, hb₂, fun _ => ⟨hc.amp, hc.bar⟩, ?_⟩
    exact ih (hr l.pair List.mem_cons_self) (fun l hl => hb l (List.mem_cons_of_mem _ hl))
      fun p hp => hr p (List.mem_cons_of_mem _ hp)

theorem Spacing.runLine {lead T : List Char} (S : Spacing rest links) (hc : IsClosed c)
    (hr : ∀ p ∈ rest, IsClosed p.2) (hl : Blanks lead) (ht : Blanks trail) :
    shellExecLine commands (lead ++ lineOf c links trail ++ NUL :: T) σ =
      σ.runSegments commands (segmentsOf trail c links) 0 0 := by
  have W := S.wellSpaced hc hr
  have hnul : NUL ∉ lead ++ lineOf c links trail := by
    rw [List.mem_append, not_or]
    exact ⟨hl.nul, W.nul ht⟩
  rw [shellExecLine_text commands T σ hnul, runLine_lineOf hl W ht]

/-- A status of 0 passes every operator but `||`. -/
theorem Op.admits_zero {op : Op} : op.admits 0 = true ↔ op ≠ .or := by
  cases op <;> decide

/-- Nothing but the last command is run, however the line is spaced. -/
theorem runSegments_spacing (hc : c ≠ []) (hr : ∀ p ∈ rest, p.2 ≠ [])
    (h : (∀ p ∈ rest, p.1 = .or) ∨ Stuck commands c rest σ)
    (hl : links.map Link.pair = rest) (hl' : links'.map Link.pair = rest) :
    σ.runSegments commands (segmentsOf trail c links) 0 k =
      σ.runSegments commands (segmentsOf trail c links') 0 k := by
  induction rest generalizing c links links' σ k with
  | nil => rw [List.map_eq_nil_iff.mp hl, List.map_eq_nil_iff.mp hl']
  | cons p rest ih =>
    obtain ⟨l, links, rfl, rfl, hls⟩ := List.map_eq_cons_iff.mp hl
    obtain ⟨l', links', rfl, hp, hls'⟩ := List.map_eq_cons_iff.mp hl'
    obtain ⟨hop, hcmd⟩ := Prod.mk.inj hp
    rw [runSegments_link hc, runSegments_link hc, hop, hcmd]
    rcases eq_or_ne l.op .or with hor | hor
    · have hno : ¬ l.op.admits 0 = true := by rw [Op.admits_zero, not_not]; exact hor
      rw [if_neg hno, if_neg hno]
      refine ih (hr _ List.mem_cons_self) (fun p hp => hr p (List.mem_cons_of_mem _ hp)) ?_ hls hls'
      rcases h with h | h
      · exact .inl fun p hp => h p (List.mem_cons_of_mem _ hp)
      · rw [Link.pair, Stuck, if_pos hor] at h
        exact .inr h
    · rcases h with h | h
      · exact absurd (h _ List.mem_cons_self) hor
      · rw [Link.pair, Stuck, if_neg hor] at h
        have hnone : σ.runCommand commands c = none := by rw [Shell.runCommand, h]; rfl
        have hyes := Op.admits_zero.mpr hor
        rw [hnone, if_pos hyes, if_pos hyes]

def tightLink (p : Op × List Char) : Link := ⟨[], p.1, [], p.2⟩

def looseLink (p : Op × List Char) : Link := ⟨[' '], p.1, [' '], p.2⟩

theorem tight_spacing (rest : List (Op × List Char)) : Spacing rest (rest.map tightLink) where
  pairs := by rw [List.map_map]; exact List.map_id _
  blanks := by
    intro l hl
    obtain ⟨p, -, rfl⟩ := List.mem_map.mp hl
    exact ⟨by simp [tightLink, Blanks], by simp [tightLink, Blanks]⟩

theorem loose_spacing (rest : List (Op × List Char)) : Spacing rest (rest.map looseLink) where
  pairs := by rw [List.map_map]; exact List.map_id _
  blanks := by
    intro l hl
    obtain ⟨p, -, rfl⟩ := List.mem_map.mp hl
    exact ⟨by simp [looseLink, Blanks, isBlank], by simp [looseLink, Blanks, isBlank]⟩

/-- The first command that is run ends the tight line, and not the loose one. -/
theorem tight_ne_loose (trail : List Char) (hc : IsClosed c) (hr : ∀ p ∈ rest, IsClosed p.2)
    (hor : ¬ ∀ p ∈ rest, p.1 = .or) (hstuck : ¬ Stuck commands c rest σ) :
    ∃ out, σ.runSegments commands (segmentsOf trail c (rest.map tightLink)) 0 k = some out ∧
      ∀ out', σ.runSegments commands (segmentsOf trail c (rest.map looseLink)) 0 k = some out' →
        out.2.1 ≠ out'.2.1 := by
  induction rest generalizing c σ k with
  | nil => exact absurd (by simp) hor
  | cons p rest ih =>
    have hr' : ∀ p ∈ rest, IsClosed p.2 := fun p hp => hr p (List.mem_cons_of_mem _ hp)
    have hp : IsClosed p.2 := hr p List.mem_cons_self
    rw [List.map_cons, List.map_cons, runSegments_link hc.ne, runSegments_link hc.ne]
    simp only [tightLink, looseLink, reduceCtorEq, if_true, if_false]
    rcases eq_or_ne p.1 .or with hop | hop
    · have hno : ¬ p.1.admits 0 = true := by rw [Op.admits_zero, not_not]; exact hop
      rw [if_neg hno, if_neg hno]
      rw [Stuck, if_pos hop] at hstuck
      refine ih hp hr' (fun h => hor fun q hq => ?_) hstuck
      rcases List.mem_cons.mp hq with rfl | hq
      · exact hop
      · exact h q hq
    · rw [Stuck, if_neg hop] at hstuck
      obtain ⟨r, hrun⟩ := Option.ne_none_iff_exists'.mp hstuck
      have hcmd : σ.runCommand commands c = some (r.1, r.2.shSetExit r.1) := by
        rw [Shell.runCommand, hrun]
        rfl
      have hyes := Op.admits_zero.mpr hop
      rw [if_pos hyes, if_pos hyes, hcmd]
      refine ⟨_, rfl, fun out' h => ?_⟩
      obtain ⟨out₁, h₁, rfl⟩ := Option.map_eq_some_iff.mp h
      have hne := (runSegments_le ((loose_spacing rest).wellSpaced hp hr') h₁).1
      simpa using hne.symm

/-- The blanks around the operators do not matter exactly on the lines in which every operator is a
`||`, or the first command that is run does not return. -/
theorem spacingFree_iff (hc : IsClosed c) (hr : ∀ p ∈ rest, IsClosed p.2) :
    SpacingFree commands c rest σ ↔ (∀ p ∈ rest, p.1 = .or) ∨ Stuck commands c rest σ := by
  constructor
  · intro h
    rw [or_iff_not_imp_left]
    intro hor
    by_contra hstuck
    obtain ⟨out, hout, hne⟩ := tight_ne_loose (k := 0) [] hc hr hor hstuck
    have h0 : Blanks [] := by simp [Blanks]
    have := h [] [] [] _ _ h0 h0 (tight_spacing rest) (loose_spacing rest)
    rw [(tight_spacing rest).runLine hc hr h0 h0, (loose_spacing rest).runLine hc hr h0 h0,
      hout] at this
    obtain ⟨out', hout', he⟩ := Option.map_eq_some_iff.mp this.symm
    exact hne out' hout' (congrArg Prod.snd he).symm
  · intro h lead trail T links links' hl ht S S'
    rw [S.runLine hc hr hl ht, S'.runLine hc hr hl ht,
      runSegments_spacing hc.ne (fun p hp => (hr p hp).ne) h S.pairs S'.pairs]

/-! ## Two commands -/

theorem true_isClosed : IsClosed "true".toList := ⟨true_isCommand, by decide, by decide⟩

theorem false_isClosed : IsClosed "false".toList := ⟨false_isCommand, by decide, by decide⟩

/-- `false||true` and its other spacings. -/
theorem falseOrTrue_spacingFree :
    IsClosed "false".toList ∧ (∀ p ∈ [(Op.or, "true".toList)], IsClosed p.2) ∧
      SpacingFree exitCommands "false".toList [(.or, "true".toList)] bootShell := by
  have hr : ∀ p ∈ [(Op.or, "true".toList)], IsClosed p.2 := by
    intro p hp
    rw [List.mem_singleton.mp hp]
    exact true_isClosed
  have hor : ∀ p ∈ [(Op.or, "true".toList)], p.1 = .or := by decide
  exact ⟨false_isClosed, hr, (spacingFree_iff false_isClosed hr).mpr (.inl hor)⟩

/-- `false;true` runs one command, `false ; true` runs two. -/
theorem falseThenTrue_not_spacingFree :
    ¬ SpacingFree exitCommands "false".toList [(.seq, "true".toList)] bootShell := by
  intro h
  have h0 : Blanks [] := by decide
  have hs := h [] [] [] _ _ h0 h0 (tight_spacing _) (loose_spacing _)
  have hne : seen (shellExecLine exitCommands ("false;true".toList ++ [NUL]) bootShell) ≠
      seen (shellExecLine exitCommands ("false ; true".toList ++ [NUL]) bootShell) := by
    rw [bootShell_spelled]
    decide +kernel
  exact hne hs

end BojanOS
