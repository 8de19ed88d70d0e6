import BojanOS.Cmds.Sort

/-!
# Options behind the file name (`cmd_sort`)

The option loop stops at the first operand. What is behind it is neither an option nor read, so two
arrangements of the same options sort alike when the same letters are in front of the operand.
-/

namespace BojanOS

open Prog

/-- A cluster of the options of `sort`. -/
def IsSortOption (w : List Char) : Prop :=
  ∃ letters, w = '-' :: letters ∧ letters ≠ [] ∧ ∀ c ∈ letters, c ∈ ['r', 'n', 'u']

/-- The letters of the options. -/
def sortLetters (ws : List (List Char)) : List Char := ws.flatMap fun w => w.drop 1

/-- The options `pre` in front of the operand and `post` behind it, and the same options in another
order and in other clusters. -/
structure Rearranged (pre post pre' post' : List (List Char)) : Prop where
  isOption : ∀ w ∈ pre ++ post ++ (pre' ++ post'), IsSortOption w
  letters : (sortLetters (pre ++ post)).Perm (sortLetters (pre' ++ post'))

/-- With any operand and in any state the two arrangements do the same. -/
def SortsAlike (pre post pre' post' : List (List Char)) : Prop :=
  ∀ path, isOption path = false → ∀ fuel σ,
    (cmdSort fuel ("sort".toList :: (pre ++ path :: post))).run σ =
      (cmdSort fuel ("sort".toList :: (pre' ++ path :: post'))).run σ

theorem IsSortOption.isOption {w : List Char} (h : IsSortOption w) : isOption w = true := by
  obtain ⟨letters, rfl, hne, -⟩ := h
  have hpos := List.length_pos_iff.mpr hne
  rw [BojanOS.isOption, List.length_cons]
  simp only [List.head?_cons, true_and, decide_eq_true_eq]
  omega

/-- The loop takes the options up to the operand. -/
theorem options_append {pre post : List (List Char)} {path : List Char}
    (hpre : ∀ w ∈ pre, IsSortOption w) (hpath : isOption path = false) :
    options (pre ++ path :: post) = (sortLetters pre, path :: post) := by
  induction pre with
  | nil =>
    rw [List.nil_append, options, hpath]
    rfl
  | cons w pre ih =>
    rw [List.forall_mem_cons] at hpre
    rw [List.cons_append, options, if_pos hpre.1.isOption, ih hpre.2]
    rfl

/-- What is done with the lines. -/
def sortBody (rev num uniq : Bool) (lines : List (List Char)) : Prog Int :=
  match sortLines rev num lines with
  | none => .fault
  | some lines => do
    sortPrint uniq none lines
    pure 0

theorem cmdSort_arranged {pre post : List (List Char)} {path : List Char} (fuel : Nat)
    (hpre : ∀ w ∈ pre, IsSortOption w) (hpath : isOption path = false) :
    cmdSort fuel ("sort".toList :: (pre ++ path :: post)) =
      onLines fuel (some path) 2 (sortBody ('r' ∈ sortLetters pre) ('n' ∈ sortLetters pre)
        ('u' ∈ sortLetters pre)) := by
  rw [cmdSort, List.drop_succ_cons, List.drop_zero, options_append hpre hpath]
  rfl

/-! ## Numbers to sort -/

def numbersText : List Char := "1\n10\n2\n2\n".toList

/-- With numbers in `/etc/os-release`. -/
def numbersShell : Shell :=
  { bootShell with
    vfs := (bootVfs.vfsWriteFile 11 (.ext numbersText) numbersText.length).2 }

theorem opens_numbers :
    Opens 0 (some "/etc/os-release".toList) numbersShell numbersText numbersShell ∧
      GrantsLines numbersText numbersShell ∧ numbersShell.outFile = none ∧
      numbersShell.pipeWriting = false := by
  have h : numbersShell.vfs.vfsResolve "/etc/os-release".toList = some 11 ∧
      (numbersShell.vfs.node 11).type = .file ∧
      numbersShell.vfs.contents 11 = numbersText ∧ GrantsLines numbersText numbersShell := by
    rw [numbersShell, bootVfs_spelled]
    decide +kernel
  obtain ⟨hn, hf, htext, hgrants⟩ := h
  refine ⟨?_, hgrants, rfl, rfl⟩
  rw [← htext]
  exact opens_file hn hf

/-- Each choice of options prints the numbers in another way. -/
theorem numbers_emits : ∃ out : Bool → Bool → Bool → List Char,
    (∀ r n u, (sortBody r n u (lineTexts [] numbersText)).emits = some (out r n u, 0)) ∧
    ∀ r n u r' n' u', out r n u = out r' n' u' → r = r' ∧ n = n' ∧ u = u' := by
  refine ⟨fun r n u => ((sortBody r n u (lineTexts [] numbersText)).emits.map Prod.fst).getD [],
    ?_, ?_⟩
  · decide +kernel
  · decide +kernel

/-! ## The two arrangements -/

theorem mem_sortLetters {ws : List (List Char)} (hws : ∀ w ∈ ws, IsSortOption w) {c : Char}
    (hc : c ∈ sortLetters ws) : c = 'r' ∨ c = 'n' ∨ c = 'u' := by
  obtain ⟨w, hw, hc⟩ := List.mem_flatMap.mp hc
  obtain ⟨letters, rfl, -, hletters⟩ := hws w hw
  simpa using hletters c hc

/-- On the numbers it can be seen which options were found. -/
theorem numbers_prints {pre : List (List Char)} (post : List (List Char))
    (hpre : ∀ w ∈ pre, IsSortOption w) {out : List Char} {rc : Int}
    (h : (sortBody ('r' ∈ sortLetters pre) ('n' ∈ sortLetters pre) ('u' ∈ sortLetters pre)
      (lineTexts [] numbersText)).emits = some (out, rc)) :
    Prints (cmdSort 0 ("sort".toList :: (pre ++ "/etc/os-release".toList :: post))) numbersShell
      numbersShell out rc := by
  obtain ⟨hopen, hgrants, -⟩ := opens_numbers
  rw [cmdSort_arranged 0 hpre (by decide)]
  exact onLines_prints hopen hgrants h

/-- The numbers tell two choices of options apart. -/
theorem SortsAlike.same {pre post pre' post' : List (List Char)} (hpre : ∀ w ∈ pre, IsSortOption w)
    (hpre' : ∀ w ∈ pre', IsSortOption w) (H : SortsAlike pre post pre' post') (c : Char) :
    c ∈ sortLetters pre ↔ c ∈ sortLetters pre' := by
  obtain ⟨out, hemits, hinj⟩ := numbers_emits
  obtain ⟨-, -, hout, hpipe⟩ := opens_numbers
  have hl := numbers_prints post hpre (hemits _ _ _)
  have hr := numbers_prints post' hpre' (hemits _ _ _)
  rw [Prints, H _ (by decide)] at hl
  obtain ⟨hrev, hnum, huniq⟩ := hinj _ _ _ _ _ _ (Prints.unique hout hpipe hl hr).1
  rw [decide_eq_decide] at hrev hnum huniq
  constructor
  · intro hc
    rcases mem_sortLetters hpre hc with rfl | rfl | rfl
    · exact hrev.mp hc
    · exact hnum.mp hc
    · exact huniq.mp hc
  · intro hc
    rcases mem_sortLetters hpre' hc with rfl | rfl | rfl
    · exact hrev.mpr hc
    · exact hnum.mpr hc
    · exact huniq.mpr hc

namespace Rearranged

variable {pre post pre' post' : List (List Char)}

theorem left (R : Rearranged pre post pre' post') : ∀ w ∈ pre, IsSortOption w := fun w hw =>
  R.isOption w (List.mem_append_left _ (List.mem_append_left _ hw))

theorem right (R : Rearranged pre post pre' post') : ∀ w ∈ pre', IsSortOption w := fun w hw =>
  R.isOption w (List.mem_append_right _ (List.mem_append_left _ hw))

theorem of_words
    (h : ∀ w ∈ pre ++ post ++ (pre' ++ post'), w.head? = some '-' ∧ w.drop 1 ≠ [] ∧
      (w.drop 1).all (· ∈ ['r', 'n', 'u']) = true)
    (hperm : (sortLetters (pre ++ post)).Perm (sortLetters (pre' ++ post'))) :
    Rearranged pre post pre' post' := by
  refine ⟨?_, hperm⟩
  intro w hw
  obtain ⟨hhead, hne, hletters⟩ := h w hw
  cases w with
  | nil => cases hhead
  | cons c letters =>
    obtain rfl := Option.some.inj hhead
    exact ⟨letters, rfl, hne, fun c hc => of_decide_eq_true (List.all_eq_true.mp hletters c hc)⟩

end Rearranged

/-- Options behind the operand are lost: two arrangements do the same exactly when they have the
same letters in front of it. -/
theorem sortsAlike_iff {pre post pre' post' : List (List Char)}
    (R : Rearranged pre post pre' post') :
    SortsAlike pre post pre' post' ↔ ∀ c, c ∈ sortLetters pre ↔ c ∈ sortLetters pre' := by
  constructor
  · exact fun H => H.same R.left R.right
  · intro h path hpath fuel σ
    rw [cmdSort_arranged fuel R.left hpath, cmdSort_arranged fuel R.right hpath]
    simp only [h]

/-- `-rn` and `-n -r` in front of the operand. -/
theorem sortsAlike_iff_cluster : SortsAlike ["-rn".toList] [] ["-n".toList, "-r".toList] [] := by
  have R : Rearranged ["-rn".toList] [] ["-n".toList, "-r".toList] [] :=
    .of_words (by decide) (by decide)
  refine (sortsAlike_iff R).mpr fun c => ?_
  simp [sortLetters, or_comm]

/-- With `-r` behind the file name nothing is sorted backwards. -/
theorem not_sortsAlike_behind : Rearranged [] ["-r".toList] ["-r".toList] [] ∧
    ¬ SortsAlike [] ["-r".toList] ["-r".toList] [] := by
  have R : Rearranged [] ["-r".toList] ["-r".toList] [] :=
    .of_words (by decide) (by decide)
  refine ⟨R, fun H => ?_⟩
  have hmem : 'r' ∈ sortLetters ["-r".toList] := by decide
  exact absurd ((H.same R.left R.right 'r').mpr hmem) List.not_mem_nil

end BojanOS
