import BojanOS.Cmds.Sort
import BojanOS.Lib.EditDistance
import BojanOS.Lib.Loop

/-!
# The difference of two files (`cmd_diff`)

`cmd_diff` fills a table with the distances of the ends of the two lists of lines, each cell a
`uint16_t`, and then walks through it from the first lines on. As long as no list has more lines
than a cell can count, the table is the one of `EditDistance.lev` and the walk is a script of least
cost. The verdict is in the first cell, and that can be zero for lists that are not equal.
-/

namespace BojanOS

open Prog EditDistance

/-! ## The table -/

/-- A `uint16_t` goes up to `CELL - 1`. -/
def CELL : Nat := 2 ^ 16

/-- `i * (nb + 1) + j`. It is below the length of the table, which the heap bounds by 2²³, and so an
`int`. -/
def cellIndex (nb i j : Nat) : Nat := i * (nb + 1) + j

def setCell (d : Nat → Nat) (k v : Nat) : Nat → Nat := Function.update d k (v % CELL)

/-- The two loops over the last column and the last row. -/
def tableBorders (na nb : Nat) (d : Nat → Nat) : Nat → Nat :=
  let d := Loop.countUp (fun i d => setCell d (cellIndex nb i nb) (na - i)) (na + 1) d
  Loop.countUp (fun j d => setCell d (cellIndex nb na j) (nb - j)) (nb + 1) d

/-- The body of the loops over the other cells. -/
def tableCell (la lb : List (List Char)) (i j : Nat) (d : Nat → Nat) : Nat → Nat :=
  let nb := lb.length
  let best := d (cellIndex nb (i + 1) (j + 1)) +
    if strcmp (la.getD i []) (lb.getD j []) ≠ 0 then 1 else 0
  let del := d (cellIndex nb (i + 1) j) + 1
  let ins := d (cellIndex nb i (j + 1)) + 1
  let best := if del < best then del else best
  let best := if ins < best then ins else best
  setCell d (cellIndex nb i j) best

/-- The table, out of a block of memory with anything in it. -/
def diffTable (la lb : List (List Char)) (d : Nat → Nat) : Nat → Nat :=
  Loop.countDown (fun i => Loop.countDown (tableCell la lb i) lb.length) la.length
    (tableBorders la.length lb.length d)

section table

variable {na nb i j i' j' : Nat} {C : Nat → Nat → Nat} {S T : Nat → Nat → Prop} {d : Nat → Nat}

theorem cellIndex_inj (hj : j ≤ nb) (hj' : j' ≤ nb)
    (h : cellIndex nb i j = cellIndex nb i' j') : i = i' ∧ j = j' := by
  have hrow : ∀ i {j}, j ≤ nb → cellIndex nb i j / (nb + 1) = i := by
    intro i j hj
    rw [cellIndex, Nat.mul_comm, Nat.mul_add_div (Nat.succ_pos nb),
      Nat.div_eq_of_lt (Nat.lt_succ_of_le hj), Nat.add_zero]
  have hi : i = i' := by rw [← hrow i hj, ← hrow i' hj', h]
  subst hi
  exact ⟨rfl, Nat.add_left_cancel h⟩

/-- The cells of `S` have the values that they should have. -/
def Good (na nb : Nat) (C : Nat → Nat → Nat) (S : Nat → Nat → Prop) (d : Nat → Nat) : Prop :=
  ∀ i j, i ≤ na → j ≤ nb → S i j → d (cellIndex nb i j) = C i j

theorem Good.mono (H : Good na nb C S d) (h : ∀ i j, i ≤ na → j ≤ nb → T i j → S i j) :
    Good na nb C T d := fun i j hi hj hT => H i j hi hj (h i j hi hj hT)

/-- One more cell. -/
theorem Good.set (H : Good na nb C S d) (hj : j ≤ nb) {v : Nat} (hv : v % CELL = C i j) :
    Good na nb C (fun i' j' => S i' j' ∨ i' = i ∧ j' = j) (setCell d (cellIndex nb i j) v) := by
  intro i' j' hi' hj' hS
  by_cases he : i' = i ∧ j' = j
  · obtain ⟨rfl, rfl⟩ := he
    rw [setCell, Function.update_self, hv]
  · have hne : cellIndex nb i' j' ≠ cellIndex nb i j := fun h => he (cellIndex_inj hj' hj h)
    rw [setCell, Function.update_of_ne hne]
    exact H i' j' hi' hj' (hS.resolve_right he)

theorem tableBorders_good (hA : ∀ i ≤ na, C i nb = (na - i) % CELL)
    (hB : ∀ j ≤ nb, C na j = (nb - j) % CELL) (d : Nat → Nat) :
    Good na nb C (fun i j => j = nb ∨ i = na) (tableBorders na nb d) := by
  have hcolumn : Good na nb C (fun i j => j = nb ∧ i < na + 1)
      (Loop.countUp (fun i d => setCell d (cellIndex nb i nb) (na - i)) (na + 1) d) := by
    apply Loop.countUp_inv (I := fun k => Good na nb C fun i j => j = nb ∧ i < k)
    · intro i d hi H
      refine (H.set (Nat.le_refl nb) (hA i (by omega)).symm).mono ?_
      rintro i' j' - - ⟨rfl, hlt⟩
      omega
    · rintro i j - - ⟨-, hlt⟩
      omega
  have hrow := Loop.countUp_inv
    (f := fun j d => setCell d (cellIndex nb na j) (nb - j)) (n := nb + 1)
    (I := fun k => Good na nb C fun i j => j = nb ∨ i = na ∧ j < k) ?_
    (hcolumn.mono fun i j hi _ h => ⟨by omega, by omega⟩)
  · refine hrow.mono ?_
    rintro i j - hj (rfl | rfl)
    · exact .inl rfl
    · exact .inr ⟨rfl, by omega⟩
  · intro j d hj H
    refine (H.set (by omega) (hB j (by omega)).symm).mono ?_
    rintro i' j' - - (rfl | ⟨rfl, hlt⟩)
    · exact .inl (.inl rfl)
    · omega

end table

/-- The strings of the lines. -/
def strings (lines : List (List Char)) : List (List Char) := lines.map untilNul

@[simp] theorem length_strings (lines : List (List Char)) :
    (strings lines).length = lines.length :=
  List.length_map _

/-- A line and the string behind it. -/
theorem strings_drop {lines : List (List Char)} {i : Nat} (hi : i < lines.length) :
    (strings lines).drop i = untilNul (lines.getD i []) :: (strings lines).drop (i + 1) := by
  have hi' : i < (strings lines).length := by rwa [length_strings]
  rw [List.drop_eq_getElem_cons hi', List.getD_eq_getElem _ _ hi]
  simp only [strings, List.getElem_map]

theorem strings_drop_end {lines : List (List Char)} {i : Nat} (hi : lines.length ≤ i) :
    (strings lines).drop i = [] := by
  apply List.drop_eq_nil_iff.mpr
  rwa [length_strings]

/-- The least of the three. -/
theorem tableCell_eq (la lb : List (List Char)) (i j : Nat) (d : Nat → Nat) :
    tableCell la lb i j d = setCell d (cellIndex lb.length i j)
      (min (min (d (cellIndex lb.length (i + 1) (j + 1)) +
          if untilNul (la.getD i []) = untilNul (lb.getD j []) then 0 else 1)
        (d (cellIndex lb.length (i + 1) j) + 1)) (d (cellIndex lb.length i (j + 1)) + 1)) := by
  have hif : (if strcmp (la.getD i []) (lb.getD j []) ≠ 0 then 1 else 0) =
      if untilNul (la.getD i []) = untilNul (lb.getD j []) then 0 else 1 := by
    simp only [ne_eq, strcmp_eq_zero, ite_not]
  rw [tableCell, hif]
  generalize d (cellIndex lb.length (i + 1) (j + 1)) + _ = best
  congr 1
  split_ifs <;> omega

/-- Every cell has the distance of the ends of the lists modulo `CELL`, whatever was in the block. -/
theorem diffTable_eq (la lb : List (List Char)) (d : Nat → Nat) {i j : Nat} (hi : i ≤ la.length)
    (hj : j ≤ lb.length) : diffTable la lb d (cellIndex lb.length i j) =
      cell CELL ((strings la).drop i) ((strings lb).drop j) := by
  let C i j := cell CELL ((strings la).drop i) ((strings lb).drop j)
  have hborders : Good la.length lb.length C (fun i j => j = lb.length ∨ i = la.length)
      (tableBorders la.length lb.length d) := by
    apply tableBorders_good
    · intro i _
      simp only [C]
      rw [strings_drop_end (Nat.le_refl _), cell_nil, List.length_drop, length_strings]
    · intro j _
      simp only [C]
      rw [strings_drop_end (Nat.le_refl _), nil_cell, List.length_drop, length_strings]
  have hrows := Loop.countDown_inv (s := tableBorders la.length lb.length d)
    (f := fun i => Loop.countDown (tableCell la lb i) lb.length) (n := la.length)
    (I := fun k => Good la.length lb.length C fun i j => j = lb.length ∨ k ≤ i) ?_
    (hborders.mono fun i j hi _ h => h.imp_right fun h => by omega)
  · exact hrows i j hi hj (.inr (Nat.zero_le i))
  · intro i d hi H
    -- the row of `i`, from its end
    have hrow := Loop.countDown_inv (s := d) (f := tableCell la lb i) (n := lb.length)
      (I := fun k => Good la.length lb.length C fun i' j =>
        j = lb.length ∨ i < i' ∨ i' = i ∧ k ≤ j) ?_
      (H.mono fun i' j _ _ h => by omega)
    · exact hrow.mono fun i' j _ _ h => by omega
    · intro j d hj H
      have hcell : min (min (d (cellIndex lb.length (i + 1) (j + 1)) +
            if untilNul (la.getD i []) = untilNul (lb.getD j []) then 0 else 1)
          (d (cellIndex lb.length (i + 1) j) + 1)) (d (cellIndex lb.length i (j + 1)) + 1) % CELL =
          C i j := by
        have hdiag := H (i + 1) (j + 1) (by omega) (by omega) (by omega)
        have hdel := H (i + 1) j (by omega) (by omega) (by omega)
        have hins := H i (j + 1) (by omega) (by omega) (by omega)
        simp only [C] at hdiag hdel hins ⊢
        rw [strings_drop hj] at hdel
        rw [strings_drop hi] at hins
        rw [strings_drop hi, strings_drop hj, cell_cons, hdiag, hdel, hins]
      rw [tableCell_eq]
      exact (H.set hj.le hcell).mono fun i' j' _ _ h => by omega

/-! ## The walk -/

/-- `sh_printf("> %s\\n", line)`, or with a `<`. -/
def putDiff (mark : Char) (line : List Char) : Prog Unit :=
  puts (mark :: ' ' :: untilNul line ++ ['\n'])

/-- The walk from `i` and `j` on. Every round makes one of them greater, so the fuel of `cmdDiff` is
enough. -/
def walkLoop (la lb : List (List Char)) (d : Nat → Nat) : Nat → Nat → Nat → Prog Unit
  | 0, _, _ => .fault
  | k + 1, i, j =>
    let na := la.length
    let nb := lb.length
    let x := la.getD i []
    let y := lb.getD j []
    if i < na ∨ j < nb then
      if i < na ∧ j < nb ∧ strcmp x y = 0 then walkLoop la lb d k (i + 1) (j + 1)
      else if j < nb ∧ (na ≤ i ∨ d (cellIndex nb i j) = d (cellIndex nb i (j + 1)) + 1) then do
        putDiff '>' y
        walkLoop la lb d k i (j + 1)
      else if i < na ∧ (nb ≤ j ∨ d (cellIndex nb i j) = d (cellIndex nb (i + 1) j) + 1) then do
        putDiff '<' x
        walkLoop la lb d k (i + 1) j
      else if i < na ∧ j < nb then do
        putDiff '<' x
        putDiff '>' y
        walkLoop la lb d k (i + 1) (j + 1)
      else if i < na then do
        putDiff '<' x
        walkLoop la lb d k (i + 1) j
      else do
        putDiff '>' y
        walkLoop la lb d k i (j + 1)
    else pure ()

/-- What is printed for a step. -/
def stepText : Step (List Char) → List Char
  | .same _ => []
  | .ins y => '>' :: ' ' :: y ++ ['\n']
  | .del x => '<' :: ' ' :: x ++ ['\n']
  | .rep x y => '<' :: ' ' :: x ++ ['\n'] ++ '>' :: ' ' :: y ++ ['\n']

@[simp] theorem emits_putDiff (mark : Char) (line : List Char) :
    (putDiff mark line).emits = some (mark :: ' ' :: untilNul line ++ ['\n'], ()) :=
  emits_puts _

/-- The table has the distances of the ends. -/
def Exact (la lb : List (List Char)) (d : Nat → Nat) : Prop := ∀ i j, i ≤ la.length →
  j ≤ lb.length → d (cellIndex lb.length i j) = lev ((strings la).drop i) ((strings lb).drop j)

section exact

variable {la lb : List (List Char)} {d : Nat → Nat} {i j : Nat}

/-- An insertion of the walk is a step of a script of least cost. -/
theorem Exact.ins (E : Exact la lb d) (hi : i ≤ la.length) (hjb : j < lb.length)
    (hbest : la.length ≤ i ∨
      d (cellIndex lb.length i j) = d (cellIndex lb.length i (j + 1)) + 1) :
    lev ((strings la).drop i) ((strings lb).drop j) =
      lev ((strings la).drop i) ((strings lb).drop (j + 1)) + 1 := by
  rcases hbest with hia | hbest
  · rw [strings_drop_end hia, nil_lev, nil_lev, strings_drop hjb, List.length_cons]
  · rwa [E i j hi hjb.le, E i (j + 1) hi hjb] at hbest

theorem Exact.del (E : Exact la lb d) (hia : i < la.length) (hj : j ≤ lb.length)
    (hbest : lb.length ≤ j ∨
      d (cellIndex lb.length i j) = d (cellIndex lb.length (i + 1) j) + 1) :
    lev ((strings la).drop i) ((strings lb).drop j) =
      lev ((strings la).drop (i + 1)) ((strings lb).drop j) + 1 := by
  rcases hbest with hjb | hbest
  · rw [strings_drop_end hjb, lev_nil, lev_nil, strings_drop hia, List.length_cons]
  · rwa [E i j hia.le hj, E (i + 1) j hia hj] at hbest

/-- Where neither of the other two steps is one of least cost. -/
theorem Exact.rep (E : Exact la lb d) (hia : i < la.length) (hjb : j < lb.length)
    (hne : ¬ untilNul (la.getD i []) = untilNul (lb.getD j []))
    (hins : ¬ d (cellIndex lb.length i j) = d (cellIndex lb.length i (j + 1)) + 1)
    (hdel : ¬ d (cellIndex lb.length i j) = d (cellIndex lb.length (i + 1) j) + 1) :
    lev ((strings la).drop i) ((strings lb).drop j) =
      lev ((strings la).drop (i + 1)) ((strings lb).drop (j + 1)) + 1 := by
  have hlev := lev_cons (untilNul (la.getD i [])) (untilNul (lb.getD j []))
    ((strings la).drop (i + 1)) ((strings lb).drop (j + 1))
  rw [if_neg hne, ← strings_drop hia, ← strings_drop hjb] at hlev
  rw [E i j hia.le hjb.le, E i (j + 1) hia.le hjb] at hins
  rw [E i j hia.le hjb.le, E (i + 1) j hia hjb.le] at hdel
  omega

end exact

/-- The walk through any table is a script, and through an exact one it is a script of least
cost. -/
theorem walkLoop_turns (la lb : List (List Char)) (d : Nat → Nat) {k i j : Nat}
    (hi : i ≤ la.length) (hj : j ≤ lb.length) (hk : la.length - i + (lb.length - j) < k) :
    ∃ script, (walkLoop la lb d k i j).emits = some (script.flatMap stepText, ()) ∧
      Turns script ((strings la).drop i) ((strings lb).drop j) ∧
      (Exact la lb d → cost script = lev ((strings la).drop i) ((strings lb).drop j)) := by
  induction k generalizing i j with
  | zero => omega
  | succ k ih =>
    rw [walkLoop]
    split_ifs with hend hsame hins hdel hrep hdel'
    · obtain ⟨hia, hjb, heq⟩ := hsame
      rw [strcmp_eq_zero] at heq
      obtain ⟨script, he, H, hc⟩ := ih (i := i + 1) (j := j + 1) hia hjb (by omega)
      rw [strings_drop hia, strings_drop hjb, ← heq]
      refine ⟨.same _ :: script, he, H.cons (.same _), fun E => ?_⟩
      rw [cost_cons, hc E, lev_same, Step.cost, Nat.zero_add]
    · obtain ⟨hjb, hbest⟩ := hins
      obtain ⟨script, he, H, hc⟩ := ih (j := j + 1) hi hjb (by omega)
      refine ⟨.ins (untilNul (lb.getD j [])) :: script, by simp [he, stepText], ?_, fun E => ?_⟩
      · rw [strings_drop hjb]
        exact H.cons (.ins _)
      · rw [cost_cons, hc E, E.ins hi hjb hbest, Step.cost, Nat.add_comm]
    · obtain ⟨hia, hbest⟩ := hdel
      obtain ⟨script, he, H, hc⟩ := ih (i := i + 1) hia hj (by omega)
      refine ⟨.del (untilNul (la.getD i [])) :: script, by simp [he, stepText], ?_, fun E => ?_⟩
      · rw [strings_drop hia]
        exact H.cons (.del _)
      · rw [cost_cons, hc E, E.del hia hj hbest, Step.cost, Nat.add_comm]
    · obtain ⟨hia, hjb⟩ := hrep
      obtain ⟨script, he, H, hc⟩ := ih (i := i + 1) (j := j + 1) hia hjb (by omega)
      refine ⟨.rep (untilNul (la.getD i [])) (untilNul (lb.getD j [])) :: script,
        by simp [he, stepText], ?_, fun E => ?_⟩
      · rw [strings_drop hia, strings_drop hjb]
        exact H.cons (.rep _ _)
      · have hne : ¬ untilNul (la.getD i []) = untilNul (lb.getD j []) := fun he =>
          hsame ⟨hia, hjb, strcmp_eq_zero.mpr he⟩
        have hlev := E.rep hia hjb hne (fun h => hins ⟨hjb, .inr h⟩) fun h => hdel ⟨hia, .inr h⟩
        rw [cost_cons, hc E, hlev, Step.cost, Nat.add_comm]
    · -- the walk is at the end of the second list, and has deleted
      exact absurd ⟨hdel', .inl (Nat.not_lt.mp fun hjb => hrep ⟨hdel', hjb⟩)⟩ hdel
    · exact absurd ⟨hend.resolve_left hdel', .inl (Nat.not_lt.mp hdel')⟩ hins
    · obtain ⟨hia, hjb⟩ := not_or.mp hend
      rw [strings_drop_end (Nat.not_lt.mp hia), strings_drop_end (Nat.not_lt.mp hjb)]
      exact ⟨[], rfl, .nil, fun _ => by simp [cost]⟩

/-! ## `diff` -/

/-- What `cmd_diff` does in front of its loops: the lines of both files, and the table; `none` if one
of the files is not there. -/
def diffStart (p q : List Char) :
    Prog (Option (List (List Char) × List (List Char) × Option Nat)) := do
  match ← openInput 0 (some p) with
  | none => pure none
  | some a =>
    match ← openInput 0 (some q) with
    | none => pure none
    | some b => do
      let la ← splitInput a
      let lb ← splitInput b
      let d ← fs fun v =>
        let (d, ram) := v.ram.kmalloc (2 * (la.length + 1) * (lb.length + 1))
        some (d, { v with ram })
      pure (some (la, lb, d))

def cmdDiff (argv : List (List Char)) : Prog Int :=
  if argv.length < 3 then do
    puts "diff: two files required\n".toList
    pure 2
  else do
    match ← diffStart (argv.getD 1 []) (argv.getD 2 []) with
    | none => pure 2
    | some (_, _, none) => fail "diff: out of memory\n"
    | some (la, lb, some _) =>
      -- every cell that is read has been written
      let d := diffTable la lb fun _ => 0
      if d 0 = 0 then do
        puts "Files are identical\n".toList
        pure 0
      else do
        walkLoop la lb d (la.length + lb.length + 1) 0 0
        pure 1

section

variable {σ σ₁ : Shell} {p q : List Char} {la lb : List (List Char)} {block : Nat}

/-- The first cell. -/
theorem diffTable_zero (la lb : List (List Char)) (d : Nat → Nat) :
    diffTable la lb d 0 = cell CELL (strings la) (strings lb) := by
  have h := diffTable_eq la lb d (Nat.zero_le _) (Nat.zero_le _)
  rwa [cellIndex, Nat.zero_mul, List.drop_zero, List.drop_zero] at h

/-- The table decides about the verdict. -/
theorem cmdDiff_prints (name : List Char) (rest : List (List Char))
    (h : (diffStart p q).run σ = some (some (la, lb, some block), σ₁)) :
    (cell CELL (strings la) (strings lb) = 0 →
      Prints (cmdDiff (name :: p :: q :: rest)) σ σ₁ "Files are identical\n".toList 0) ∧
    (cell CELL (strings la) (strings lb) ≠ 0 → ∃ script,
      Prints (cmdDiff (name :: p :: q :: rest)) σ σ₁ (script.flatMap stepText) 1 ∧
      Turns script (strings la) (strings lb) ∧
      (Exact la lb (diffTable la lb fun _ => 0) →
        cost script = lev (strings la) (strings lb))) := by
  have hrun : (cmdDiff (name :: p :: q :: rest)).run σ =
      (if diffTable la lb (fun _ => 0) 0 = 0 then do
        puts "Files are identical\n".toList
        pure 0
      else do
        walkLoop la lb (diffTable la lb fun _ => 0) (la.length + lb.length + 1) 0 0
        pure 1 : Prog Int).run σ₁ := by
    have hargc : ¬ (name :: p :: q :: rest).length < 3 := by simp
    rw [cmdDiff, if_neg hargc, run_bind]
    simp only [List.getD_cons_succ, List.getD_cons_zero, h, Option.bind_some]
  rw [← diffTable_zero la lb fun _ => 0]
  constructor
  · intro hz
    refine ⟨σ₁.vfs.ram, ?_⟩
    rw [hrun, if_pos hz]
    exact run_say _ _ _
  · intro hz
    obtain ⟨script, he, H, hc⟩ := walkLoop_turns la lb (diffTable la lb fun _ => 0)
      (k := la.length + lb.length + 1) (Nat.zero_le _) (Nat.zero_le _) (by omega)
    refine ⟨script, ⟨σ₁.vfs.ram, ?_⟩, H, hc⟩
    rw [hrun, if_neg hz]
    apply run_of_emits
    rw [emits_bind, he]
    simp

/-- For lists of at most 65535 lines that are not equal, `diff` prints a script of least cost. -/
theorem diff_script (name : List Char) (rest : List (List Char))
    (h : (diffStart p q).run σ = some (some (la, lb, some block), σ₁))
    (hla : la.length ≤ 65535) (hlb : lb.length ≤ 65535) (hne : strings la ≠ strings lb) :
    ∃ script, Prints (cmdDiff (name :: p :: q :: rest)) σ σ₁ (script.flatMap stepText) 1 ∧
      script.flatMap Step.old = strings la ∧ script.flatMap Step.new = strings lb ∧
      cost script = lev (strings la) (strings lb) ∧
      IsLeast {c | ∃ script, Turns script (strings la) (strings lb) ∧ cost script = c}
        (cost script) := by
  have hcell : ∀ i j, cell CELL ((strings la).drop i) ((strings lb).drop j) =
      lev ((strings la).drop i) ((strings lb).drop j) := by
    intro i j
    apply cell_eq_lev
    · rw [List.length_drop, length_strings, CELL]
      omega
    · rw [List.length_drop, length_strings, CELL]
      omega
  have hz : cell CELL (strings la) (strings lb) ≠ 0 := by
    have h0 := hcell 0 0
    rw [List.drop_zero, List.drop_zero] at h0
    rw [h0]
    exact fun h => hne (lev_eq_zero.mp h)
  obtain ⟨script, hprint, H, hc⟩ := (cmdDiff_prints name rest h).2 hz
  have hcost := hc fun i j hi hj => (diffTable_eq la lb _ hi hj).trans (hcell i j)
  refine ⟨script, hprint, H.old, H.new, hcost, ?_⟩
  rw [hcost]
  exact isLeast_lev _ _

end

/-- Two files that are there after the boot. -/
theorem diffStart_boot : ∃ la lb block σ₁,
    (diffStart "/etc/hostname".toList "/etc/os-release".toList).run bootShell =
      some (some (la, lb, some block), σ₁) ∧
    la.length ≤ 65535 ∧ lb.length ≤ 65535 ∧ strings la ≠ strings lb := by
  have h : ((diffStart "/etc/hostname".toList "/etc/os-release".toList).run bootShell).any fun r =>
      r.1.any fun (la, lb, d) => d.isSome ∧ la.length ≤ 65535 ∧ lb.length ≤ 65535 ∧
        strings la ≠ strings lb := by
    rw [bootShell_spelled]
    decide +kernel
  obtain ⟨⟨o, σ₁⟩, hrun, hx⟩ := (Option.any_eq_true _ _).mp h
  obtain ⟨⟨la, lb, d⟩, rfl, hd, hrest⟩ := exists_of_any hx
  obtain ⟨block, rfl⟩ := Option.isSome_iff_exists.mp hd
  exact ⟨la, lb, block, σ₁, hrun, hrest⟩

theorem diff_script_boot : ∃ la lb block σ₁,
    (diffStart "/etc/hostname".toList "/etc/os-release".toList).run bootShell =
      some (some (la, lb, some block), σ₁) ∧
    ∃ script, Prints (cmdDiff ["diff".toList, "/etc/hostname".toList, "/etc/os-release".toList])
        bootShell σ₁ (script.flatMap stepText) 1 ∧
      script.flatMap Step.old = strings la ∧ script.flatMap Step.new = strings lb ∧
      cost script = lev (strings la) (strings lb) := by
  obtain ⟨la, lb, block, σ₁, h, hla, hlb, hne⟩ := diffStart_boot
  obtain ⟨script, hp, hold, hnew, hc, -⟩ := diff_script "diff".toList [] h hla hlb hne
  exact ⟨la, lb, block, σ₁, h, script, hp, hold, hnew, hc⟩

end BojanOS
