import BojanOS.Cmds.Move
import BojanOS.Lib.CString

/-!
# Paths put together from the tree (`vfs_update_pwd`, `cmd_find`)

Both functions add one name after another to a text in `char [1024]`, going up from the working
directory or down from the directory that `find` starts in. Nothing bounds the depth of the tree.
The sums of the lengths say which directories they have room for.
-/

namespace BojanOS

namespace Vfs

variable {s : Vfs} {n : Nat} {names names' : List (List Char)}

/-! ## The working directory -/

/-- `vfs_update_pwd` with its arrays. -/
def updatePwdInto (s : Vfs) : Option Vfs :=
  if s.cwd = s.root then (CString.strcpy PATH_MAX ['/']).map fun pwd => { s with pwd := pwd.text }
  else do
    let names := s.climb 64 s.cwd
    let buf ← CString.strcats (n := PATH_MAX) ⟨[], by decide⟩
      (names.reverse.flatMap fun name => [['/'], name])
    let buf ← if buf.text = [] then CString.strcpy PATH_MAX ['/'] else some buf
    let pwd ← CString.strcpy PATH_MAX buf.text
    some { s with pwd := pwd.text }

/-- The names of a node and of all nodes above it below the root. -/
inductive Above (s : Vfs) : List (List Char) → Nat → Prop
  | root : Above s [] s.root
  | up {names : List (List Char)} {n p : Nat} :
    n ≠ s.root → s.par n = some p → Above s names p → Above s (s.nameOf n :: names) n

theorem Above.climb (H : Above s names n) (k : Nat) : s.climb k n = names.take k := by
  induction H generalizing k with
  | root =>
    cases k with
    | zero => rfl
    | succ k => rw [Vfs.climb, if_pos rfl, List.take_nil]
  | @up names n p hr hp _ ih =>
    cases k with
    | zero => rfl
    | succ k =>
      have hp : (s.node n).parent = some p := hp
      rw [Vfs.climb, if_neg hr, hp, List.take_succ_cons, ← ih k]
      rfl

theorem Above.unique (H : Above s names n) (H' : Above s names' n) : names = names' := by
  have h := H.climb (names.length + names'.length)
  rw [H'.climb, List.take_of_length_le (Nat.le_add_left ..),
    List.take_of_length_le (Nat.le_add_right ..)] at h
  exact h.symm

/-- What the names and a slash for each of them take. -/
def pathLength (names : List (List Char)) : Nat := (names.map fun x => x.length + 1).sum

theorem pathLength_append (xs ys : List (List Char)) :
    pathLength (xs ++ ys) = pathLength xs + pathLength ys := by
  rw [pathLength, List.map_append, List.sum_append]
  rfl

theorem length_le_pathLength (xs : List (List Char)) : xs.length ≤ pathLength xs := by
  induction xs with
  | nil => exact Nat.le_refl _
  | cons x xs ih =>
    rw [pathLength, List.map_cons, List.sum_cons, List.length_cons]
    rw [pathLength] at ih
    omega

theorem length_pwdText (names : List (List Char)) :
    (pwdText names).length = pathLength names := by
  rw [pwdText, List.length_flatMap]
  rfl

theorem pathLength_reverse (names : List (List Char)) :
    pathLength names.reverse = pathLength names := by
  rw [pathLength, List.map_reverse, List.sum_reverse]
  rfl

theorem flatten_parts (names : List (List Char)) :
    (names.flatMap fun name => [['/'], name]).flatten = pwdText names := by
  induction names with
  | nil => rfl
  | cons x xs ih =>
    rw [List.flatMap_cons, List.flatten_append, ih, pwdText, pwdText, List.flatMap_cons]
    simp

/-- With the arrays it computes the same. -/
theorem updatePwdInto_eq (s : Vfs) : s.updatePwdInto = s.vfsUpdatePwd := by
  have hslash : CString.strcpy PATH_MAX ['/'] = some ⟨['/'], by decide⟩ :=
    CString.strcpy_eq_some.mpr rfl
  rw [updatePwdInto, vfsUpdatePwd]
  split
  · rw [hslash]
    rfl
  simp only
  split
  · rename_i h
    cases hb : CString.strcats (n := PATH_MAX) ⟨[], by decide⟩
        ((s.climb 64 s.cwd).reverse.flatMap fun name => [['/'], name]) with
    | none => rfl
    | some buf =>
      have hfits := buf.fits
      rw [CString.strcats_eq_some.mp hb, flatten_parts] at hfits
      exact absurd hfits (Nat.not_lt.mpr h)
  · rename_i h
    have hb : CString.strcats (n := PATH_MAX) ⟨[], by decide⟩
        ((s.climb 64 s.cwd).reverse.flatMap fun name => [['/'], name]) =
          some ⟨pwdText (s.climb 64 s.cwd).reverse, Nat.not_le.mp h⟩ :=
      CString.strcats_eq_some.mpr (flatten_parts _).symm
    rw [hb, Option.bind_eq_bind, Option.bind_some]
    simp only
    split
    · rw [hslash, Option.bind_some, hslash]
      rfl
    · have hpwd : CString.strcpy PATH_MAX (pwdText (s.climb 64 s.cwd).reverse) =
          some ⟨_, Nat.not_le.mp h⟩ := CString.strcpy_eq_some.mpr rfl
      rw [Option.bind_some, hpwd]
      rfl

/-- The text fits and has the working directory and all directories above it. -/
def PwdOk (s : Vfs) : Prop :=
  ∃ names v, Above s names s.cwd ∧ s.updatePwdInto = some v ∧
    v.pwd = if names = [] then ['/'] else pwdText names.reverse

def PwdFits (s : Vfs) : Prop :=
  ∃ names, Above s names s.cwd ∧ names.length ≤ 64 ∧ pathLength names < PATH_MAX

/-- Names that are left out are missing in the text. -/
theorem pwdText_take_ne {k : Nat} (h : k < names.length) :
    pwdText (names.take k).reverse ≠ pwdText names.reverse := by
  intro he
  have hlen := congrArg List.length he
  rw [length_pwdText, length_pwdText, pathLength_reverse, pathLength_reverse] at hlen
  have hsplit := pathLength_append (names.take k) (names.drop k)
  have hdrop := length_le_pathLength (names.drop k)
  rw [List.take_append_drop] at hsplit
  rw [List.length_drop] at hdrop
  omega

theorem Above.eq_nil_iff (H : Above s names n) : names = [] ↔ n = s.root := by
  cases H with
  | root => exact iff_of_true rfl rfl
  | up hr => exact iff_of_false (List.cons_ne_nil _ _) hr

/-- `vfs_update_pwd` writes the last 64 names. -/
theorem updatePwdInto_above (H : Above s names s.cwd) :
    s.updatePwdInto = if pathLength (names.take 64) < PATH_MAX then
      some { s with pwd := if names = [] then ['/'] else pwdText (names.take 64).reverse }
    else none := by
  rw [updatePwdInto_eq, vfsUpdatePwd]
  split
  · rename_i hroot
    obtain rfl := H.eq_nil_iff.mpr hroot
    rfl
  rename_i hroot
  have hne : names ≠ [] := fun h => hroot (H.eq_nil_iff.mp h)
  have htext : pwdText (names.take 64).reverse ≠ [] := by
    intro h
    have hlen := length_pwdText (names.take 64).reverse
    have hle := length_le_pathLength (names.take 64)
    have hpos := List.length_pos_iff.mpr hne
    rw [h, pathLength_reverse] at hlen
    rw [List.length_take] at hle
    rw [List.length_nil] at hlen
    omega
  simp only
  rw [H.climb, length_pwdText, pathLength_reverse, if_neg hne, if_neg htext]
  split
  · rename_i h
    rw [if_neg (Nat.not_lt.mpr h)]
  · rename_i h
    rw [if_pos (Nat.not_le.mp h)]

/-- The working directory is in the root. -/
theorem PwdFits.of_par_root (hr : s.cwd ≠ s.root) (hp : s.par s.cwd = some s.root)
    (hlen : (s.nameOf s.cwd).length + 1 < PATH_MAX) : s.PwdFits :=
  ⟨_, .up hr hp .root, by simp, hlen⟩

theorem pwdOk_iff : s.PwdOk ↔ s.PwdFits := by
  rw [PwdOk, PwdFits]
  apply exists_congr
  intro names
  constructor
  · rintro ⟨v, H, hv, hpwd⟩
    rw [updatePwdInto_above H] at hv
    split at hv
    · rename_i hfits
      obtain rfl := Option.some.inj hv
      have hlen : names.length ≤ 64 := by
        by_contra hlt
        have hne : names ≠ [] := by
          rintro rfl
          exact hlt (Nat.zero_le _)
        rw [if_neg hne, if_neg hne] at hpwd
        exact pwdText_take_ne (Nat.not_le.mp hlt) hpwd
      rw [List.take_of_length_le hlen] at hfits
      exact ⟨H, hlen, hfits⟩
    · cases hv
  · rintro ⟨H, hlen, hfits⟩
    have hv := updatePwdInto_above H
    rw [List.take_of_length_le hlen, if_pos hfits] at hv
    exact ⟨_, H, hv, rfl⟩

end Vfs

/-! ## `find` -/

/-- `glob_match(pat + 1, s) || (*s && glob_match(pat, s + 1))` with `f` for the rest of the
pattern. -/
def globStar (f : List Char → Bool) : List Char → Bool
  | [] => f []
  | c :: s => f (c :: s) || globStar f s

def globMatch : List Char → List Char → Bool
  | [], s => s = []
  | p :: pat, s =>
    if p = '*' then globStar (globMatch pat) s
    else match s with
      | [] => false
      | c :: s => (p = '?' || c = p) && globMatch pat s

/-- The loop over `argv`, with `start` and `namepat` as they are so far. -/
def findArgs : List (List Char) → List Char → Option (List Char) → List Char × Option (List Char)
  | [], start, pat => (start, pat)
  | [w], start, pat => (if w.head? = some '-' then start else w, pat)
  | w :: p :: ws, start, pat =>
    if w = "-name".toList then findArgs ws start (some p)
    else findArgs (p :: ws) (if w.head? = some '-' then start else w) pat

/-- `np` of `find_rec`. -/
def findPrefix (pre name : List Char) : Option (CString Char PATH_MAX) := do
  let np ← CString.strcpy PATH_MAX pre
  let np ← np.strcat name
  np.strcat ['/']

open Prog

/-- The line of `c`. -/
def findLine (v : Vfs) (pat : Option (List Char)) (pre : List Char) (c : Nat) : Prog Unit :=
  if pat.all fun p => globMatch p (v.nameOf c) then
    puts (pre ++ v.nameOf c ++ (if (v.node c).type = .dir then ['/'] else []) ++ ['\n'])
  else pure ()

/-- `find_rec`, with fuel for the depth. What it prints may go into a file, which leaves the
children and their names alone. -/
def findRec (pat : Option (List Char)) : Nat → Nat → List Char → Prog Unit
  | 0, _, _ => .fault
  | k + 1, dir, pre => do
    let v ← vfs
    (v.kids dir).forM fun c => do
      findLine v pat pre c
      if (v.node c).type = .dir then
        match findPrefix pre (v.nameOf c) with
        | none => .fault
        | some np => findRec pat k c np.text
      else pure ()

def cmdFind (argv : List (List Char)) : Prog Int := do
  let (start, pat) := findArgs (argv.drop 1) ['.'] none
  let v ← vfs
  match v.vfsResolve start with
  | none => do
    puts ("find: ".toList ++ start ++ ": no such directory\n".toList)
    pure 1
  | some n =>
    if (v.node n).type ≠ .dir then do
      puts ("find: ".toList ++ start ++ ": no such directory\n".toList)
      pure 1
    else do
      puts "./\n".toList
      findRec pat v.next n "./".toList
      pure 0

namespace Prog

variable {α : Type} {I : Shell → Prop} {Q R : Prop}

/-- From a state with `I` the program comes to its end in one with `I` if `Q`, and is undefined
otherwise. -/
def EndsIf (I : Shell → Prop) (Q : Prop) (p : Prog α) : Prop :=
  ∀ σ, I σ → (Q → ∃ a σ', p.run σ = some (a, σ') ∧ I σ') ∧ (¬ Q → p.run σ = none)

theorem EndsIf.pure (a : α) : EndsIf I True (pure a : Prog α) :=
  fun σ hI => ⟨fun _ => ⟨a, σ, rfl, hI⟩, fun h => absurd trivial h⟩

theorem EndsIf.fault : EndsIf I False (Prog.fault : Prog α) :=
  fun _ _ => ⟨fun h => h.elim, fun _ => rfl⟩

theorem EndsIf.congr {p : Prog α} (h : EndsIf I Q p) (hQ : Q ↔ R) : EndsIf I R p :=
  propext hQ ▸ h

theorem EndsIf.then {β : Type} {p : Prog α} {q : Prog β} (hp : EndsIf I Q p) (hq : EndsIf I R q) :
    EndsIf I (Q ∧ R) (p >>= fun _ => q) := by
  intro σ hI
  rw [run_bind]
  obtain ⟨hp₁, hp₀⟩ := hp σ hI
  by_cases hQ : Q
  · obtain ⟨a, σ', hr, hI'⟩ := hp₁ hQ
    rw [hr, Option.bind_some]
    exact ⟨fun h => (hq σ' hI').1 h.2, fun h => (hq σ' hI').2 fun hR => h ⟨hQ, hR⟩⟩
  · rw [hp₀ hQ]
    exact ⟨fun h => absurd h.1 hQ, fun _ => rfl⟩

/-- The rule for a loop over a list. -/
theorem EndsIf.forM {ι : Type} {P : ι → Prop} {f : ι → Prog Unit} {xs : List ι}
    (h : ∀ x ∈ xs, EndsIf I (P x) (f x)) : EndsIf I (∀ x ∈ xs, P x) (xs.forM f) := by
  induction xs with
  | nil => exact (EndsIf.pure ()).congr ⟨fun _ x hx => (by cases hx), fun _ => trivial⟩
  | cons x xs ih =>
    rw [List.forall_mem_cons] at h
    exact (EndsIf.then h.1 (ih h.2)).congr List.forall_mem_cons.symm

/-- The tree is that of `s`, and output does not go through a null pointer. -/
def Quiet (s : Vfs) (σ : Shell) : Prop := s.SameTree σ.vfs ∧ ¬ σ.NullOut

theorem EndsIf.vfs {s : Vfs} {f : Vfs → Prog α} (h : ∀ v, s.SameTree v → EndsIf (Quiet s) Q (f v)) :
    EndsIf (Quiet s) Q (vfs >>= f) := by
  intro σ hI
  rw [run_bind, run_vfs, Option.bind_some]
  exact h σ.vfs hI.1 σ hI

theorem EndsIf.puts {s : Vfs} (m : List Char) : EndsIf (Quiet s) True (puts m) := by
  intro σ hI
  have h : ∃ σ', σ.shPuts m = some σ' ∧ Quiet s σ' := by
    induction m generalizing σ with
    | nil => exact ⟨σ, rfl, hI⟩
    | cons c m ih =>
      obtain ⟨τ, hτ⟩ := Option.ne_none_iff_exists'.mp fun hn => hI.2 (Shell.outRaw_eq_none.mp hn)
      obtain ⟨σ', hσ', hI'⟩ := ih τ
        ⟨hI.1.trans (Shell.outRaw_sameTree hτ), Shell.outRaw_not_nullOut hI.2 hτ⟩
      refine ⟨σ', ?_, hI'⟩
      rw [Shell.shPuts, List.foldlM_cons, hτ]
      exact hσ'
  obtain ⟨σ', hσ', hI'⟩ := h
  refine ⟨fun _ => ⟨(), σ', ?_, hI'⟩, fun h => absurd trivial h⟩
  rw [run_puts, hσ']
  rfl

end Prog

/-! ## The prefixes -/

theorem findPrefix_eq_some {pre name : List Char} {np : CString Char PATH_MAX} :
    findPrefix pre name = some np ↔ np.text = pre ++ name ++ ['/'] := by
  constructor
  · intro h
    obtain ⟨a, ha, h₁⟩ := Option.bind_eq_some_iff.mp h
    obtain ⟨b, hb, h₂⟩ := Option.bind_eq_some_iff.mp h₁
    rw [CString.strcat_eq_some.mp h₂, CString.strcat_eq_some.mp hb, CString.strcpy_eq_some.mp ha]
  · intro h
    have hfits := np.fits
    rw [h, List.length_append] at hfits
    have hb : (pre ++ name).length < PATH_MAX := by omega
    have ha : pre.length < PATH_MAX := by
      rw [List.length_append] at hb
      omega
    have hpre : CString.strcpy PATH_MAX pre = some ⟨_, ha⟩ := CString.strcpy_eq_some.mpr rfl
    have hname : CString.strcat ⟨pre, ha⟩ name = some ⟨_, hb⟩ := CString.strcat_eq_some.mpr rfl
    apply Option.bind_eq_some_iff.mpr ⟨_, hpre, ?_⟩
    exact Option.bind_eq_some_iff.mpr ⟨_, hname, CString.strcat_eq_some.mpr h⟩

namespace Vfs

variable {s : Vfs} {n : Nat}

/-- `find_rec` has room for the prefix of every directory below `n`. -/
def PrefixesFit (s : Vfs) (n : Nat) (len : Nat) : Prop :=
  ∀ l c, Forest.Path s.kids n l c → l ≠ [] → (s.node c).type = .dir →
    len + pathLength (l.map s.nameOf) < PATH_MAX

/-- For each directory in it, and from there. -/
theorem prefixesFit_iff (W : s.Wf) (len : Nat) : s.PrefixesFit n len ↔
    ∀ c ∈ s.kids n, (s.node c).type = .dir →
      len + (s.nameOf c).length + 1 < PATH_MAX ∧
        s.PrefixesFit c (len + (s.nameOf c).length + 1) := by
  have hlast : ∀ l c, len + pathLength ((l ++ [c]).map s.nameOf) =
      len + (s.nameOf c).length + 1 + pathLength (l.map s.nameOf) := by
    intro l c
    rw [List.map_append, pathLength_append]
    simp only [pathLength, List.map_cons, List.map_nil, List.sum_cons, List.sum_nil]
    omega
  constructor
  · intro h c hc hd
    refine ⟨?_, fun l d hl hne hty => ?_⟩
    · have hself := h [c] c (.snoc .nil hc) (List.cons_ne_nil _ _) hd
      rw [← List.nil_append [c], hlast] at hself
      exact hself
    · have hdown := h (l ++ [c]) d (.cons hc hl) (by simp) hty
      rwa [hlast] at hdown
  · intro h l d hl hne hty
    obtain ⟨c, hc, l', hl', rfl⟩ := hl.exists_cons hne
    rw [hlast]
    rcases eq_or_ne l' [] with rfl | hne'
    · cases hl'
      exact (h d hc hty).1
    · have hdir : (s.node c).type = .dir := by
        obtain ⟨e, he, -⟩ := hl'.exists_cons hne'
        cases ht : (s.node c).type with
        | dir => rfl
        | file =>
          rw [W.file_leaf c ht] at he
          cases he
      exact (h c hc hdir).2 l' d hl' hne' hty

/-- A name takes at most 64 bytes with its slash. -/
theorem pathLength_le (W : s.Wf) {l : List Nat} {c : Nat} (h : Forest.Path s.kids n l c) :
    pathLength (l.map s.nameOf) ≤ VFS_NAME_MAX * l.length := by
  induction h with
  | nil => exact Nat.le_refl _
  | @snoc l p c _ hc ih =>
    have hname : (s.nameOf c).length < VFS_NAME_MAX := (W.name_ok hc).2
    rw [List.map_cons, List.length_cons, pathLength, List.map_cons, List.sum_cons, Nat.mul_succ]
    rw [pathLength] at ih
    omega

/-- With few nodes in all there is no way down that is too long. -/
theorem PrefixesFit.of_next (W : s.Wf) {len : Nat} (h : len + VFS_NAME_MAX * s.next ≤ PATH_MAX) :
    s.PrefixesFit n len := by
  intro l c hl hne _
  have hlen : n + l.length ≤ c := Forest.Path.length_le W.kid_gt hl
  have hlt : c < s.next := by
    cases hl with
    | nil => exact absurd rfl hne
    | snoc _ hc => exact W.kid_lt hc
  have hnames := pathLength_le W hl
  rw [VFS_NAME_MAX] at h hnames
  omega

/-- Below a directory without directories nothing has to fit. -/
theorem PrefixesFit.of_flat (W : s.Wf) {len : Nat} (h : ∀ c ∈ s.kids n, (s.node c).type ≠ .dir) :
    s.PrefixesFit n len :=
  (prefixesFit_iff W len).mpr fun c hc hd => absurd hd (h c hc)

end Vfs

section

variable {s : Vfs} (W : s.Wf)

include W

/-- The fuel is enough, and nothing but a prefix that does not fit stops the recursion. -/
theorem findRec_ends (pat : Option (List Char)) {k n : Nat} {pre : List Char} (hn : n < s.next)
    (hk : s.next ≤ k + n) :
    EndsIf (Quiet s) (s.PrefixesFit n pre.length) (findRec pat k n pre) := by
  induction k generalizing n pre with
  | zero => omega
  | succ k ih =>
    rw [findRec]
    apply EndsIf.vfs
    intro v S
    rw [S.kids]
    refine (EndsIf.forM fun c hc => ?_).congr (Vfs.prefixesFit_iff W pre.length).symm
    refine (EndsIf.then (R := (s.node c).type = .dir → pre.length + (s.nameOf c).length + 1 <
      PATH_MAX ∧ s.PrefixesFit c (pre.length + (s.nameOf c).length + 1)) ?_ ?_).congr
        (and_iff_right trivial)
    · rw [findLine]
      split
      · exact EndsIf.puts _
      · exact EndsIf.pure ()
    · rw [S.type, S.nameOf]
      split
      · rename_i hd
        have hlt : n < c := W.kid_gt hc
        cases hnp : findPrefix pre (s.nameOf c) with
        | none =>
          refine EndsIf.fault.congr (iff_of_false id fun h => ?_)
          have hfits : (pre ++ s.nameOf c ++ ['/']).length < PATH_MAX := by
            rw [List.length_append, List.length_append]
            exact (h hd).1
          have hsome : findPrefix pre (s.nameOf c) = some ⟨_, hfits⟩ :=
            findPrefix_eq_some.mpr rfl
          rw [hsome] at hnp
          cases hnp
        | some np =>
          have ht := findPrefix_eq_some.mp hnp
          have hlen : np.text.length = pre.length + (s.nameOf c).length + 1 := by
            rw [ht, List.length_append, List.length_append]
            rfl
          have hfits := np.fits
          refine (ih (W.kid_lt hc) (by omega)).congr ?_
          rw [hlen]
          exact ⟨fun h _ => ⟨hlen ▸ hfits, h⟩, fun h => (h hd).2⟩
      · rename_i hd
        exact (EndsIf.pure ()).congr (iff_of_true trivial fun h => absurd h hd)

end

/-- `find` has room for the prefix of every directory below the one it starts in. -/
def FindFits (s : Vfs) (argv : List (List Char)) : Prop :=
  ∀ n, s.vfsResolve (findArgs (argv.drop 1) ['.'] none).1 = some n → (s.node n).type = .dir →
    s.PrefixesFit n "./".length

/-- There is no directory in the one that `find` starts in. -/
theorem FindFits.of_flat {s : Vfs} (W : s.Wf) {argv : List (List Char)} {n : Nat}
    (hn : s.vfsResolve (findArgs (argv.drop 1) ['.'] none).1 = some n)
    (h : ((s.kids n).all fun c => (s.node c).type ≠ .dir) = true) : FindFits s argv := by
  intro m hm _
  obtain rfl : n = m := Option.some.inj (hn.symm.trans hm)
  exact .of_flat W fun c hc => of_decide_eq_true (List.all_eq_true.mp h c hc)

theorem cmdFind_ends {s : Vfs} (W : s.Wf) (argv : List (List Char)) :
    EndsIf (Quiet s) (FindFits s argv) (cmdFind argv) := by
  rw [cmdFind, FindFits]
  rcases findArgs (argv.drop 1) ['.'] none with ⟨start, pat⟩
  have hsay : ∀ {P : Prop}, P →
      EndsIf (Quiet s) P (puts ("find: ".toList ++ start ++ ": no such directory\n".toList) >>=
        fun _ => (pure 1 : Prog Int)) := fun hP =>
    ((EndsIf.puts _).then (EndsIf.pure 1)).congr (iff_of_true ⟨trivial, trivial⟩ hP)
  apply EndsIf.vfs
  intro v S
  simp only
  rw [S.vfsResolve]
  cases hn : s.vfsResolve start with
  | none => exact hsay fun n h => by cases h
  | some n =>
    simp only
    rw [S.type]
    split
    · rename_i hd
      refine hsay fun m hm h => absurd ?_ hd
      rwa [Option.some.inj hm]
    · rename_i hd
      have hlt := W.vfsResolve_lt hn
      have hrec : EndsIf (Quiet s) (s.PrefixesFit n "./".length)
          (findRec pat v.next n "./".toList) :=
        findRec_ends W pat hlt (S.next ▸ Nat.le_add_right ..)
      refine ((EndsIf.puts _).then (hrec.then (EndsIf.pure 0))).congr ?_
      constructor
      · intro h m hm _
        exact Option.some.inj hm ▸ h.2.1
      · intro h
        exact ⟨trivial, h n rfl (Classical.not_not.mp hd), trivial⟩

/-- Wherever its output goes, if that is not a null pointer, `find` comes to its end. -/
def FindOk (s : Vfs) (argv : List (List Char)) : Prop :=
  ∀ σ : Shell, σ.vfs = s → ¬ σ.NullOut → ((cmdFind argv).run σ).isSome

theorem findOk_iff {s : Vfs} (W : s.Wf) (argv : List (List Char)) :
    FindOk s argv ↔ FindFits s argv := by
  constructor
  · intro h
    have hnull : ¬ ({ bootShell with vfs := s } : Shell).NullOut := by
      rintro ⟨-, hw, -⟩
      rw [bootShell] at hw
      cases hw
    by_contra hfits
    have hrun := (cmdFind_ends W argv { bootShell with vfs := s } ⟨.rfl', hnull⟩).2 hfits
    have hsome := h { bootShell with vfs := s } rfl hnull
    rw [hrun] at hsome
    cases hsome
  · rintro h σ rfl hnull
    obtain ⟨rc, σ', hrun, -⟩ := (cmdFind_ends W argv σ ⟨.rfl', hnull⟩).1 h
    rw [hrun]
    rfl

/-- The two functions put together what they are for exactly when the working directory is at most
64 levels down and the lengths of the names, with a slash for each, stay below the size of the
array. -/
theorem deepPaths_iff {s : Vfs} (hrun : Running s) (argv : List (List Char)) :
    (s.PwdOk ↔ s.PwdFits) ∧ (FindOk s argv ↔ FindFits s argv) :=
  ⟨Vfs.pwdOk_iff, findOk_iff hrun.wf argv⟩

/-- `find /` in the initial state, and the working directory there. -/
theorem deepPaths_boot : bootVfs.PwdOk ∧ FindOk bootVfs ["find".toList, "/".toList] := by
  have W := bootVfs_booted.wf
  obtain ⟨hpwd, hfind⟩ := deepPaths_iff (.boot bootVfs_booted) ["find".toList, "/".toList]
  have h : (bootVfs.cwd ≠ bootVfs.root ∧ bootVfs.par bootVfs.cwd = some bootVfs.root ∧
      (bootVfs.nameOf bootVfs.cwd).length + 1 < PATH_MAX) ∧
      "./".length + VFS_NAME_MAX * bootVfs.next ≤ PATH_MAX := by
    rw [bootVfs_spelled]
    decide +kernel
  obtain ⟨⟨hr, hp, hlen⟩, hnext⟩ := h
  exact ⟨hpwd.mpr (.of_par_root hr hp hlen), hfind.mpr fun n _ _ => .of_next W hnext⟩

/-! ## A tree that is too deep -/

/-- The way down to a node, and its names from the bottom up. -/
theorem Vfs.Wf.above_path {s : Vfs} (W : s.Wf) {l : List Nat} {n : Nat}
    (h : Forest.Path s.kids s.root l n) : s.Above (l.map s.nameOf) n := by
  induction h with
  | nil => exact .root
  | @snoc l p c _ hc ih =>
    have hr : c ≠ s.root := fun h => W.forest.root_not_mem p (h ▸ hc)
    exact .up hr (W.forest.par_eq hc) ih

/-- Only `vfs_mkdir` and the assignment to `vfs_cwd`. -/
def FsOp.builds : FsOp → Bool
  | mkdir _ | chdir _ => true
  | _ => false

/-- A tree that `mkdir` and `cd` build, `cd` up to its call of `vfs_update_pwd`. -/
def Built (s : Vfs) : Prop :=
  ∃ s₀ tr, Booted s₀ ∧ Trace.Run FsOp.step s₀ tr s ∧ tr.all fun e => e.1.builds

/-- A name of 63 bytes. -/
def longName : List Char := List.replicate 63 'd'

/-- `mkdir` and `cd`, 16 times. -/
def deepOps : List FsOp := (List.replicate 16 [.mkdir longName, .chdir longName]).flatten

/-- The directory at the bottom. -/
def deepPath : List Char := "/root".toList ++ (List.replicate 16 ('/' :: longName)).flatten

/-- 16 names of 63 bytes under `/root`: `vfs_update_pwd` and `find /` leave their arrays. -/
theorem deepPaths_left :
    (¬ ∀ s, Built s → s.PwdOk) ∧ ¬ ∀ s argv, Built s → FindOk s argv := by
  have h : (Trace.exec FsOp.step deepOps bootVfs).any fun r =>
      (r.1.all fun e => e.1.builds) ∧ r.2.vfsResolve deepPath = some r.2.cwd ∧
        PATH_MAX ≤ Vfs.pathLength (r.2.climb 64 r.2.cwd) := by
    rw [bootVfs_spelled]
    decide +kernel
  obtain ⟨⟨tr, s⟩, hs, htr, hres, hlong⟩ := exists_of_any h
  have hrun := Trace.Run.of_exec _ hs
  have hbuilt : Built s := ⟨_, tr, bootVfs_booted, hrun, htr⟩
  have W : s.Wf := (bootVfs_reachable.run hrun).wf
  have hin : s.InTree s.cwd := Vfs.Named.inTree_of_absolute W (by decide) hres
  obtain ⟨l, hl⟩ := hin.exists_path
  have H := W.above_path hl
  have hle : PATH_MAX ≤ Vfs.pathLength (l.map s.nameOf) := by
    rw [← List.take_append_drop 64 (l.map s.nameOf), Vfs.pathLength_append, ← H.climb]
    exact hlong.trans (Nat.le_add_right ..)
  refine ⟨fun hok => ?_, fun hok => ?_⟩
  · obtain ⟨names, H', -, hfits⟩ := Vfs.pwdOk_iff.mp (hok s hbuilt)
    rw [H'.unique H] at hfits
    exact Nat.not_lt.mpr hle hfits
  · have hfits := (findOk_iff W _).mp (hok s ["find".toList, "/".toList] hbuilt)
    have hne : l ≠ [] := by
      rintro rfl
      rw [List.map_nil] at hle
      exact absurd hle (by decide)
    have hdeep := hfits s.root rfl W.root_dir l s.cwd hl hne W.cwd_dir
    exact Nat.not_lt.mpr (hle.trans (Nat.le_add_left ..)) hdeep

end BojanOS
