import BojanOS.Cmds.DeepPaths
import BojanOS.Cmds.Input

/-!
# What `find` prints (`find_rec`, `cmd_find`)

The lines are the ways down from the start, a directory in front of what is in it. Each begins with
`./`, also when the start is not the working directory, so it names what the same way down leads to
from there. If the two directories differ, then below a matching node there would always have to be
another one (`exists_longer`).
-/

namespace BojanOS

open Prog

namespace Prog

variable {α β : Type} {s : Vfs} {t t' : List Char} {a : α}

/-- On the tree of `s` the program does what writing the text does, and answers `a`. -/
def Says (s : Vfs) (text : List Char) (a : α) (p : Prog α) : Prop :=
  ∀ σ : Shell, s.SameTree σ.vfs → p.run σ = (σ.shPuts text).map fun σ => (a, σ)

theorem Says.pure (a : α) : Says s [] a (pure a : Prog α) := fun _ _ => rfl

theorem Says.puts (text : List Char) : Says s text () (puts text) := fun σ _ => run_puts text σ

theorem Says.then {b : β} {p : Prog α} {q : Prog β} (hp : Says s t a p) (hq : Says s t' b q) :
    Says s (t ++ t') b (p >>= fun _ => q) := by
  intro σ S
  have happ : σ.shPuts (t ++ t') = (σ.shPuts t).bind fun τ => τ.shPuts t' := List.foldlM_append ..
  rw [run_bind, hp σ S, happ]
  cases h : σ.shPuts t with
  | none => rfl
  | some τ => exact hq τ (S.trans (Shell.shPuts_sameTree h))

theorem Says.forM {ι : Type} {f : ι → Prog Unit} {text : ι → List Char} {xs : List ι}
    (h : ∀ x ∈ xs, Says s (text x) () (f x)) : Says s (xs.flatMap text) () (xs.forM f) := by
  induction xs with
  | nil => exact .pure ()
  | cons x xs ih =>
    rw [List.forall_mem_cons] at h
    exact h.1.then (ih h.2)

theorem Says.vfs {f : Vfs → Prog α} (h : ∀ v, s.SameTree v → Says s t a (f v)) :
    Says s t a (vfs >>= f) := by
  intro σ S
  rw [run_bind, run_vfs, Option.bind_some]
  exact h σ.vfs S σ S

end Prog

/-! ## The lines -/

namespace Vfs

variable {s : Vfs} {n c k : Nat} {l : List Nat} {pat : Option (List Char)}

/-- `!namepat || glob_match(namepat, c->name)` -/
def findMatches (s : Vfs) (pat : Option (List Char)) (c : Nat) : Bool :=
  pat.all fun p => globMatch p (s.nameOf c)

/-- The prefix in the directory at the end of a way down, the last node first. -/
def findPre (s : Vfs) (l : List Nat) : List Char :=
  "./".toList ++ l.reverse.flatMap fun d => s.nameOf d ++ ['/']

/-- The line of the node at the end of a way down. -/
def findText (s : Vfs) : List Nat → List Char
  | [] => "./".toList
  | c :: l => s.findPre l ++ s.nameOf c ++ if (s.node c).type = .dir then ['/'] else []

/-- The ways down of at most `k` levels to the matching nodes, behind the way `l` to `n`. -/
def findWays (s : Vfs) (pat : Option (List Char)) (k n : Nat) (l : List Nat) : List (List Nat) :=
  (Forest.preorder s.kids k n l).filter fun z => z.head?.any (s.findMatches pat)

/-- The lines for what is below `n`. -/
def findLines (s : Vfs) (pat : Option (List Char)) (n : Nat) : List (List Char) :=
  (s.findWays pat s.next n []).map s.findText

theorem findPre_cons (l : List Nat) : s.findPre (c :: l) = s.findPre l ++ s.nameOf c ++ ['/'] := by
  simp [findPre]

theorem findWays_succ (l : List Nat) : s.findWays pat (k + 1) n l =
    (s.kids n).flatMap fun c =>
      (if s.findMatches pat c then [c :: l] else []) ++ s.findWays pat k c (c :: l) := by
  rw [findWays, Forest.preorder, List.filter_flatMap]
  congr 1
  funext c
  rw [List.filter_cons, findWays]
  cases h : s.findMatches pat c with
  | true => simp [h]
  | false => simp [h]

theorem findWays_leaf (h : s.kids n = []) : s.findWays pat k n l = [] := by
  cases k with
  | zero => rfl
  | succ k => rw [findWays_succ, h, List.flatMap_nil]

end Vfs

section

open Vfs

variable {s : Vfs} (W : s.Wf)

include W

/-- The recursion prints the lines, where there is room for the prefixes. -/
theorem findRec_says (pat : Option (List Char)) {k n : Nat} {l : List Nat} (hn : n < s.next)
    (hk : s.next ≤ k + n) (hfits : s.PrefixesFit n (s.findPre l).length) :
    Says s (unlines ((s.findWays pat k n l).map s.findText)) ()
      (findRec pat k n (s.findPre l)) := by
  induction k generalizing n l with
  | zero => omega
  | succ k ih =>
    have htext : unlines ((s.findWays pat (k + 1) n l).map s.findText) =
        (s.kids n).flatMap fun c =>
          (if s.findMatches pat c then s.findText (c :: l) ++ ['\n'] else []) ++
            unlines ((s.findWays pat k c (c :: l)).map s.findText) := by
      rw [findWays_succ, List.map_flatMap, unlines, List.flatMap_assoc]
      congr 1
      funext c
      rw [List.map_append, List.flatMap_append]
      cases s.findMatches pat c with
      | true => simp [unlines]
      | false => simp [unlines]
    rw [htext, findRec]
    apply Says.vfs
    intro v S
    rw [S.kids]
    apply Says.forM
    intro c hc
    refine Says.then (a := ()) (b := ()) ?_ ?_
    · rw [findLine, S.nameOf, S.type]
      change Says s _ () (if s.findMatches pat c then _ else _)
      by_cases h : s.findMatches pat c = true
      · rw [if_pos h, if_pos h]
        exact .puts _
      · rw [if_neg h, if_neg h]
        exact .pure ()
    · rw [S.nameOf, S.type]
      split_ifs with hd
      · obtain ⟨hlen, hrest⟩ := (prefixesFit_iff W _).mp hfits c hc hd
        have hlt : n < c := W.kid_gt hc
        have hfit : (s.findPre (c :: l)).length < PATH_MAX := by
          rw [findPre_cons, List.length_append, List.length_append]
          exact hlen
        have hnp : findPrefix (s.findPre l) (s.nameOf c) = some ⟨s.findPre (c :: l), hfit⟩ :=
          findPrefix_eq_some.mpr (findPre_cons l)
        rw [hnp]
        apply ih (W.kid_lt hc) (by omega)
        rw [findPre_cons, List.length_append, List.length_append]
        exact hrest
      · have hleaf : s.kids c = [] := by
          cases ht : (s.node c).type with
          | dir => exact absurd ht hd
          | file => exact W.file_leaf c ht
        rw [findWays_leaf hleaf]
        exact .pure ()

theorem cmdFind_says {argv : List (List Char)} {n : Nat} (hfits : FindFits s argv)
    (hn : s.vfsResolve (findArgs (argv.drop 1) ['.'] none).1 = some n)
    (hd : (s.node n).type = .dir) :
    Says s (unlines ("./".toList :: s.findLines (findArgs (argv.drop 1) ['.'] none).2 n)) 0
      (cmdFind argv) := by
  have hroom := hfits n hn hd
  rw [cmdFind]
  generalize findArgs (argv.drop 1) ['.'] none = r at hn ⊢
  obtain ⟨start, pat⟩ := r
  apply Says.vfs
  intro v S
  simp only at hn ⊢
  rw [S.vfsResolve, hn, S.next]
  simp only
  rw [S.type, if_neg (not_not.mpr hd)]
  have hrec : Says s (unlines ((s.findWays pat s.next n []).map s.findText)) ()
      (findRec pat s.next n "./".toList) :=
    findRec_says W pat (W.vfsResolve_lt hn) (Nat.le_add_right _ _) hroom
  have htext : unlines ("./".toList :: s.findLines pat n) =
      "./\n".toList ++ (unlines ((s.findWays pat s.next n []).map s.findText) ++ []) := by
    rw [List.append_nil]
    rfl
  rw [htext]
  exact (Says.puts _).then (hrec.then (.pure 0))

end

/-! ## Where a line leads -/

/-- Names with slashes between them are read as these names. -/
theorem components_join {xs : List (List Char)} {x : List Char}
    (h : ∀ y ∈ xs ++ [x], y ≠ [] ∧ y.length < VFS_NAME_MAX ∧ '/' ∉ y) :
    components ((xs.flatMap fun y => y ++ ['/']) ++ x) = xs ++ [x] := by
  induction xs with
  | nil =>
    obtain ⟨hne, hlen, hs⟩ := h x List.mem_cons_self
    exact components_name hne hs hlen
  | cons y xs ih =>
    rw [List.cons_append, List.forall_mem_cons] at h
    obtain ⟨⟨hne, hlen, hs⟩, hxs⟩ := h
    have hsplit : ((y :: xs).flatMap fun y => y ++ ['/']) ++ x =
        y ++ '/' :: ((xs.flatMap fun y => y ++ ['/']) ++ x) := by simp
    rw [hsplit, components_append, components_name hne hs hlen, ih hxs]
    rfl

/-- A line without the slash at its end. -/
def stripSlash (line : List Char) : List Char :=
  if line.getLast? = some '/' then line.dropLast else line

namespace Vfs

variable {s : Vfs} {n m c : Nat} {l l' : List Nat} {pat : Option (List Char)}

/-- No name is one that `vfs_resolve` does not look up. -/
def PlainNames (s : Vfs) : Prop := ∀ p c, c ∈ s.kids p → Plain (s.nameOf c)

theorem kid_of_mem {r : Nat} (h : Forest.Path s.kids r l n) (hc : c ∈ l) : ∃ p, c ∈ s.kids p := by
  induction h with
  | nil => cases hc
  | @snoc l p d _ hd ih =>
    rcases List.mem_cons.mp hc with rfl | hc
    · exact ⟨p, hd⟩
    · exact ih hc

/-- The names on a way down lead to its end. -/
theorem walk_of_path (W : s.Wf) (hp : s.PlainNames) {r : Nat} (h : Forest.Path s.kids r l n) :
    s.walk r (l.map s.nameOf).reverse = some n := by
  induction h with
  | nil => rfl
  | @snoc l p c _ hc ih =>
    rw [List.map_cons, List.reverse_cons, walk_append, ih, Option.bind_some, Vfs.walk,
      List.foldlM_cons, walkStep_plain (hp p c hc), W.childOf_kid hc]
    rfl

/-- Names that are looked up lead down. -/
theorem path_of_walk {r : Nat} {xs : List (List Char)} (hxs : ∀ x ∈ xs, Plain x)
    (h : s.walk r xs = some n) :
    ∃ l, Forest.Path s.kids r l n ∧ (l.map s.nameOf).reverse = xs := by
  induction xs generalizing r with
  | nil =>
    obtain rfl : r = n := Option.some.inj h
    exact ⟨[], .nil, rfl⟩
  | cons x xs ih =>
    rw [List.forall_mem_cons] at hxs
    rw [Vfs.walk, List.foldlM_cons] at h
    obtain ⟨m, hm, h⟩ := Option.bind_eq_some_iff.mp h
    rw [walkStep_plain hxs.1] at hm
    obtain ⟨-, hc, hname⟩ := childOf_eq_some hm
    obtain ⟨l, hl, rfl⟩ := ih hxs.2 h
    exact ⟨l ++ [m], .cons hc hl, by simp [hname]⟩

/-- The line of a node without the slash for a directory. -/
def findName (s : Vfs) (c : Nat) (l : List Nat) : List Char := s.findPre l ++ s.nameOf c

theorem stripSlash_findText (hs : s.nameOf c ≠ [] ∧ '/' ∉ s.nameOf c) (l : List Nat) :
    stripSlash (s.findText (c :: l)) = s.findName c l := by
  change stripSlash (s.findName c l ++ if (s.node c).type = .dir then ['/'] else []) = _
  rw [stripSlash]
  split_ifs with hd h h
  · exact List.dropLast_concat
  · exact absurd List.getLast?_concat h
  · rw [List.append_nil, findName, List.getLast?_append_of_ne_nil _ hs.1] at h
    exact absurd (List.mem_of_getLast? h) hs.2
  · exact List.append_nil _

/-- Without its last slash, a line is walked from the working directory. -/
theorem vfsResolve_findText (W : s.Wf) (hp : s.PlainNames) {r : Nat}
    (h : Forest.Path s.kids r l n) (hne : l ≠ []) :
    s.vfsResolve (stripSlash (s.findText l)) = s.walk s.cwd (l.map s.nameOf).reverse := by
  have hok : ∀ c ∈ l, s.nameOf c ≠ [] ∧ (s.nameOf c).length < VFS_NAME_MAX ∧ '/' ∉ s.nameOf c := by
    intro c hc
    obtain ⟨p, hk⟩ := kid_of_mem h hc
    exact ⟨(W.name_ok hk).1, (W.name_ok hk).2, (hp p c hk).2.2.2⟩
  cases l with
  | nil => exact absurd rfl hne
  | cons c l =>
    obtain ⟨hc, -, hs⟩ := hok c List.mem_cons_self
    have hjoin : components ((((l.map s.nameOf).reverse).flatMap fun y => y ++ ['/']) ++
        s.nameOf c) = (l.map s.nameOf).reverse ++ [s.nameOf c] := by
      apply components_join
      intro y hy
      simp only [List.mem_append, List.mem_reverse, List.mem_map, List.mem_singleton] at hy
      rcases hy with ⟨d, hd, rfl⟩ | rfl
      · exact hok d (List.mem_cons_of_mem c hd)
      · exact hok c List.mem_cons_self
    have htext : s.findName c l = ['.'] ++ '/' :: ((((l.map s.nameOf).reverse).flatMap fun y =>
        y ++ ['/']) ++ s.nameOf c) := by
      rw [findName, findPre, ← List.map_reverse, List.flatMap_map]
      simp
    have hdot : components ['.'] = [['.']] := by decide
    rw [stripSlash_findText ⟨hc, hs⟩, htext, vfsResolve, if_neg (by simp), components_append, hdot,
      hjoin, List.map_cons, List.reverse_cons]
    rfl

/-! ## Which lines lead to what is below the start -/

/-- The lines lead to matching nodes at or below the start, and each matching node below it has one
line. -/
structure FindCorrect (s : Vfs) (n : Nat) (pat : Option (List Char)) (lines : List (List Char)) :
    Prop where
  sound : ∀ line ∈ lines, ∃ m, s.vfsResolve (stripSlash line) = some m ∧ Below s.kids n m ∧
    s.findMatches pat m = true
  once : ∀ m, Below s.kids n m → m ≠ n → s.findMatches pat m = true →
    lines.countP (fun line => s.vfsResolve (stripSlash line) = some m) = 1

/-- A way down in full: the nodes have ever larger numbers. -/
theorem Wf.path_length (W : s.Wf) (h : Forest.Path s.kids n l m) : n + l.length ≤ m :=
  Forest.Path.length_le W.kid_gt h

theorem path_ne_nil (W : s.Wf) (h : Forest.Path s.kids n l m) : l ≠ [] ↔ m ≠ n := by
  constructor
  · rintro hl rfl
    have := W.path_length h
    have := List.length_pos_iff.mpr hl
    omega
  · rintro hm rfl
    cases h
    exact hm rfl

theorem path_head (h : Forest.Path s.kids n l m) (hl : l ≠ []) : l.head? = some m := by
  cases h with
  | nil => exact absurd rfl hl
  | snoc _ _ => rfl

theorem path_lt (W : s.Wf) (hn : n < s.next) (h : Forest.Path s.kids n l m) : m < s.next := by
  cases h with
  | nil => exact hn
  | snoc _ hc => exact W.kid_lt hc

theorem mem_findWays (W : s.Wf) (hn : n < s.next) : l ∈ s.findWays pat s.next n [] ↔
    ∃ m, Forest.Path s.kids n l m ∧ m ≠ n ∧ s.findMatches pat m = true := by
  rw [findWays, List.mem_filter, Forest.mem_preorder]
  constructor
  · rintro ⟨⟨x, m, hx, hne, -, rfl⟩, hm⟩
    rw [List.append_nil] at hm ⊢
    rw [path_head hx hne] at hm
    exact ⟨m, hx, (path_ne_nil W hx).mp hne, hm⟩
  · rintro ⟨m, hl, hne, hm⟩
    have hnil := (path_ne_nil W hl).mpr hne
    have := W.path_length hl
    have := path_lt W hn hl
    refine ⟨⟨l, m, hl, hnil, by omega, (List.append_nil l).symm⟩, ?_⟩
    rw [path_head hl hnil]
    exact hm

/-- The same names from the working directory. -/
theorem path_of_findText (W : s.Wf) (hp : s.PlainNames) {r : Nat}
    (h : Forest.Path s.kids r l n) (hne : l ≠ [])
    (hm : s.vfsResolve (stripSlash (s.findText l)) = some m) :
    ∃ l', Forest.Path s.kids s.cwd l' m ∧ l'.map s.nameOf = l.map s.nameOf := by
  rw [vfsResolve_findText W hp h hne] at hm
  have hplain : ∀ x ∈ (l.map s.nameOf).reverse, Plain x := by
    intro x hx
    obtain ⟨c, hc, rfl⟩ := List.mem_map.mp (List.mem_reverse.mp hx)
    obtain ⟨p, hk⟩ := kid_of_mem h hc
    exact hp p c hk
  obtain ⟨l', hl', hnames⟩ := path_of_walk hplain hm
  exact ⟨l', hl', List.reverse_injective hnames⟩

/-- If the lines are right but the start is another directory, then below each matching node there
is another one, counted in levels. From a working directory below the start the line of the node
leads to it; from one that is not, the line that leads to the node is its line. -/
theorem exists_longer (W : s.Wf) (hp : s.PlainNames) (hn : n < s.next)
    (C : FindCorrect s n pat (s.findLines pat n)) (hcwd : n ≠ s.cwd)
    (hl : l ∈ s.findWays pat s.next n []) :
    ∃ l' ∈ s.findWays pat s.next n [], l.length < l'.length := by
  obtain ⟨m, hpath, hne, hm⟩ := (mem_findWays W hn).mp hl
  have hnil := (path_ne_nil W hpath).mpr hne
  by_cases hb : Below s.kids n s.cwd
  · obtain ⟨u, hu⟩ := hb.exists_path
    have hunil : u ≠ [] := (path_ne_nil W hu).mpr hcwd.symm
    obtain ⟨m', hres, -, -⟩ := C.sound _ (List.mem_map_of_mem hl)
    obtain ⟨l', hl', hnames⟩ := path_of_findText W hp hpath hnil hres
    have hlen : l'.length = l.length := by simpa using congrArg List.length hnames
    have hnil' : l' ≠ [] := by
      rintro rfl
      exact hnil (List.length_eq_zero_iff.mp hlen.symm)
    have hname : s.nameOf m' = s.nameOf m := by
      have hhead := congrArg List.head? hnames
      rw [List.head?_map, List.head?_map, path_head hl' hnil', path_head hpath hnil] at hhead
      exact Option.some.inj hhead
    have hfull := hu.append hl'
    refine ⟨l' ++ u, (mem_findWays W hn).mpr ⟨m', hfull, ?_, ?_⟩, ?_⟩
    · exact (path_ne_nil W hfull).mp (by simp [hnil'])
    · rw [findMatches, hname]
      exact hm
    · have := List.length_pos_iff.mpr hunil
      rw [List.length_append]
      omega
  · have hone := C.once m hpath.toBelow hne hm
    obtain ⟨line, hline, hres⟩ := List.countP_pos_iff.mp (hone ▸ Nat.one_pos)
    obtain ⟨z, hz, rfl⟩ := List.mem_map.mp hline
    obtain ⟨m₂, hz₂, hne₂, -⟩ := (mem_findWays W hn).mp hz
    obtain ⟨z', hz', hnames⟩ :=
      path_of_findText W hp hz₂ ((path_ne_nil W hz₂).mpr hne₂) (of_decide_eq_true hres)
    have hlen : z'.length = z.length := by simpa using congrArg List.length hnames
    rcases hpath.comparable W.forest hz' with ⟨x, hx, -⟩ | ⟨x, hx, rfl⟩
    · exact absurd hx.toBelow hb
    · have hxnil : x ≠ [] := (path_ne_nil W hx).mpr hcwd
      have := List.length_pos_iff.mpr hxnil
      rw [List.length_append] at hlen
      exact ⟨z, hz, by omega⟩

theorem findWays_eq_nil (W : s.Wf) (hn : n < s.next) : s.findWays pat s.next n [] = [] ↔
    ∀ m, Below s.kids n m → m ≠ n → s.findMatches pat m = false := by
  rw [List.eq_nil_iff_forall_not_mem]
  constructor
  · intro h m hb hne
    obtain ⟨l, hl⟩ := hb.exists_path
    by_contra hm
    exact h l ((mem_findWays W hn).mpr ⟨m, hl, hne, by simpa using hm⟩)
  · intro h l hl
    obtain ⟨m, hpath, hne, hm⟩ := (mem_findWays W hn).mp hl
    rw [h m hpath.toBelow hne] at hm
    cases hm

/-- From the start itself each line leads to its node. -/
theorem findCorrect_cwd (W : s.Wf) (hp : s.PlainNames) (hn : n < s.next) (hcwd : n = s.cwd) :
    FindCorrect s n pat (s.findLines pat n) := by
  have hself : ∀ {l m}, Forest.Path s.kids n l m → m ≠ n →
      s.vfsResolve (stripSlash (s.findText l)) = some m := by
    intro l m h hne
    rw [vfsResolve_findText W hp h ((path_ne_nil W h).mpr hne), ← hcwd, walk_of_path W hp h]
  refine ⟨fun line hline => ?_, fun m hb hne hm => ?_⟩
  · obtain ⟨l, hl, rfl⟩ := List.mem_map.mp hline
    obtain ⟨m, hpath, hne, hm⟩ := (mem_findWays W hn).mp hl
    exact ⟨m, hself hpath hne, hpath.toBelow, hm⟩
  · obtain ⟨l, hl⟩ := hb.exists_path
    have hmem : l ∈ s.findWays pat s.next n [] := (mem_findWays W hn).mpr ⟨m, hl, hne, hm⟩
    have hnodup : (s.findWays pat s.next n []).Nodup :=
      (Forest.nodup_preorder W.forest.nodup _ _ _).filter _
    rw [findLines, List.countP_map, ← List.count_eq_one_of_mem hnodup hmem, List.count]
    apply List.countP_congr
    intro z hz
    obtain ⟨m', hz', hne', -⟩ := (mem_findWays W hn).mp hz
    simp only [Function.comp, hself hz' hne', decide_eq_true_eq, beq_iff_eq, Option.some.injEq]
    constructor
    · rintro rfl
      exact Forest.Path.unique W.kid_gt W.forest hz' hl
    · rintro rfl
      have h := (path_head hz' ((path_ne_nil W hz').mpr hne')).symm.trans
        (path_head hl ((path_ne_nil W hl).mpr hne))
      exact Option.some.inj h

theorem findCorrect_iff (W : s.Wf) (hp : s.PlainNames) (hn : n < s.next) :
    FindCorrect s n pat (s.findLines pat n) ↔
      n = s.cwd ∨ ∀ m, Below s.kids n m → m ≠ n → s.findMatches pat m = false := by
  constructor
  · intro C
    by_contra hno
    rw [not_or, ← findWays_eq_nil W hn] at hno
    obtain ⟨hcwd, hsome⟩ := hno
    -- ways of any length
    have hlong : ∀ k, ∃ l ∈ s.findWays pat s.next n [], k ≤ l.length := by
      intro k
      induction k with
      | zero =>
        obtain ⟨l, hl⟩ := List.exists_mem_of_ne_nil _ hsome
        exact ⟨l, hl, Nat.zero_le _⟩
      | succ k ih =>
        obtain ⟨l, hl, hk⟩ := ih
        obtain ⟨l', hl', hlt⟩ := exists_longer W hp hn C hcwd hl
        exact ⟨l', hl', by omega⟩
    obtain ⟨l, hl, hk⟩ := hlong s.next
    obtain ⟨m, hpath, hne, -⟩ := (mem_findWays W hn).mp hl
    have := W.path_length hpath
    have := path_lt W hn hpath
    have := List.length_pos_iff.mpr ((path_ne_nil W hpath).mpr hne)
    omega
  · rintro (hcwd | hnone)
    · exact findCorrect_cwd W hp hn hcwd
    · have hlines : s.findLines pat n = [] := by
        rw [findLines, (findWays_eq_nil W hn).mpr hnone, List.map_nil]
      rw [hlines]
      refine ⟨fun line hline => (by cases hline), fun m hb hne hm => ?_⟩
      rw [hnone m hb hne] at hm
      cases hm

/-- The names of all nodes. -/
theorem PlainNames.of_all (W : s.Wf)
    (h : (List.range s.next).all fun p => (s.kids p).all fun c => Plain (s.nameOf c)) :
    s.PlainNames := by
  intro p c hc
  have hlt : p < s.next := (W.kid_gt hc).trans (W.kid_lt hc)
  have hkids := List.all_eq_true.mp h p (List.mem_range.mpr hlt)
  exact of_decide_eq_true (List.all_eq_true.mp hkids c hc)

end Vfs

/-- `find` prints `./` and the lines of what is below the start. These are right for the working
directory exactly when it is the start, or nothing below the start matches. -/
theorem find_iff {s : Vfs} {argv : List (List Char)} {n : Nat} (hs : Running s)
    (hp : s.PlainNames) (hfits : FindFits s argv)
    (hn : s.vfsResolve (findArgs (argv.drop 1) ['.'] none).1 = some n)
    (hd : (s.node n).type = .dir) :
    (∀ σ : Shell, σ.vfs = s → (cmdFind argv).run σ = (σ.shPuts (unlines ("./".toList ::
      s.findLines (findArgs (argv.drop 1) ['.'] none).2 n))).map fun σ => (0, σ)) ∧
    (s.FindCorrect n (findArgs (argv.drop 1) ['.'] none).2
        (s.findLines (findArgs (argv.drop 1) ['.'] none).2 n) ↔
      n = s.cwd ∨ ∀ m, Below s.kids n m → m ≠ n →
        s.findMatches (findArgs (argv.drop 1) ['.'] none).2 m = false) := by
  have W := hs.wf
  refine ⟨fun σ hσ => ?_, Vfs.findCorrect_iff W hp (W.vfsResolve_lt hn)⟩
  subst hσ
  exact cmdFind_says W hfits hn hd σ .rfl'

theorem bootVfs_plainNames : bootVfs.PlainNames := by
  apply Vfs.PlainNames.of_all bootVfs_booted.wf
  rw [bootVfs_spelled]
  decide +kernel

/-- `find -name *.txt` in the home directory. -/
theorem find_home_correct :
    bootVfs.FindCorrect 4 (some "*.txt".toList) (bootVfs.findLines (some "*.txt".toList) 4) := by
  have h : (bootVfs.vfsResolve ['.'] = some 4 ∧ (bootVfs.node 4).type = .dir ∧
      4 = bootVfs.cwd) ∧ (bootVfs.kids 4).all fun c => (bootVfs.node c).type ≠ .dir := by
    rw [bootVfs_spelled]
    decide +kernel
  obtain ⟨⟨hn, hd, hcwd⟩, hdirs⟩ := h
  have hargs : findArgs (List.drop 1 ["find".toList, "-name".toList, "*.txt".toList]) ['.'] none =
      (['.'], some "*.txt".toList) := by decide
  have hstart : bootVfs.vfsResolve (findArgs
      (List.drop 1 ["find".toList, "-name".toList, "*.txt".toList]) ['.'] none).1 = some 4 := by
    rw [hargs]
    exact hn
  have hiff := (find_iff (.boot bootVfs_booted) bootVfs_plainNames
    (.of_flat bootVfs_booted.wf hstart hdirs) hstart hd).2
  rw [hargs] at hiff
  exact hiff.mpr (.inl hcwd)

/-- `find /etc -name motd` in the home directory prints `./motd`. -/
theorem find_etc_not_correct : ¬ ∀ (s : Vfs) (argv : List (List Char)) (n : Nat), Running s →
    s.PlainNames → FindFits s argv →
    s.vfsResolve (findArgs (argv.drop 1) ['.'] none).1 = some n → (s.node n).type = .dir →
    s.FindCorrect n (findArgs (argv.drop 1) ['.'] none).2
      (s.findLines (findArgs (argv.drop 1) ['.'] none).2 n) := by
  intro H
  have h : (bootVfs.vfsResolve "/etc".toList = some 2 ∧ (bootVfs.node 2).type = .dir) ∧
      ((bootVfs.kids 2).all fun c => (bootVfs.node c).type ≠ .dir) ∧
      (bootVfs.findLines (some "motd".toList) 2).any fun line =>
        line = "./motd".toList ∧ bootVfs.vfsResolve (stripSlash line) = none := by
    rw [bootVfs_spelled]
    decide +kernel
  obtain ⟨⟨hn, hd⟩, hdirs, hlines⟩ := h
  have hargs : findArgs (List.drop 1 ["find".toList, "/etc".toList, "-name".toList,
      "motd".toList]) ['.'] none = ("/etc".toList, some "motd".toList) := by decide
  have hstart : bootVfs.vfsResolve (findArgs (List.drop 1 ["find".toList, "/etc".toList,
      "-name".toList, "motd".toList]) ['.'] none).1 = some 2 := by
    rw [hargs]
    exact hn
  have C := H _ _ 2 (.boot bootVfs_booted) bootVfs_plainNames
    (.of_flat bootVfs_booted.wf hstart hdirs) hstart hd
  rw [hargs] at C
  obtain ⟨line, hline, hbad⟩ := List.any_eq_true.mp hlines
  obtain ⟨m, hm, -⟩ := C.sound line hline
  rw [(of_decide_eq_true hbad).2] at hm
  cases hm

end BojanOS
