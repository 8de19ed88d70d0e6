import BojanOS.Lib.Totals
import BojanOS.Cmds.Find
import BojanOS.Shell.Printf
import BojanOS.Vfs.RemoveTree

/-!
# What is below a directory (`tree`, `du`)

`tree_rec` and `count_rec` go down the same tree as `find_rec`. The lines of `tree` and of `find` are
those of the same ways down, in the same order, where `find` has room for its prefixes, and `du`
counts one more, the start itself. What it adds up is a sum over the set of nodes below the start: a
removal takes from it what `du` of the removed node was.
-/

namespace BojanOS

open Prog

/-! ## `tree` -/

/-- The line of `c`. -/
def treeLine (v : Vfs) (depth c : Nat) : List Char :=
  (List.replicate depth "    ".toList).flatten ++ "|-- ".toList ++ v.nameOf c ++
    (if (v.node c).type = .dir then ['/'] else []) ++ ['\n']

/-- `tree_rec`, with fuel for the depth. Output leaves the children and their names alone. -/
def treeRec : Nat → Nat → Nat → Prog Unit
  | 0, _, _ => .fault
  | k + 1, dir, depth => do
    let v ← vfs
    (v.kids dir).forM fun c => do
      puts (treeLine v depth c)
      if (v.node c).type = .dir then treeRec k c (depth + 1) else pure ()

/-- `vnode_t* n` of `cmd_tree`. -/
def Vfs.treeStart (v : Vfs) (argv : List (List Char)) : Option Nat :=
  if 2 ≤ argv.length then v.vfsResolve (argv.getD 1 []) else some v.cwd

def cmdTree (argv : List (List Char)) : Prog Int := do
  let v ← vfs
  match (v.treeStart argv).filter fun n => (v.node n).type = .dir with
  | none => fail "tree: no such directory\n"
  | some n => do
    puts ((if v.nameOf n = [] then ['/'] else v.nameOf n) ++ ['\n'])
    treeRec v.next n 0
    pure 0

/-! ## `du` -/

/-- `files`, `dirs` and `bytes` of `cmd_du`. -/
structure Usage where
  files : Nat
  dirs : Nat
  bytes : Nat

namespace Vfs

/-- `count_rec`, with fuel for the depth. The sizes of all files fit in a `size_t`
(`bytesBelow_le`). -/
def countRec (s : Vfs) : Nat → Nat → Usage → Option Usage
  | 0, _, _ => none
  | k + 1, n, u =>
    if (s.node n).type = .dir then
      (s.kids n).foldlM (fun u c => s.countRec k c u) { u with dirs := u.dirs + 1 }
    else some { u with files := u.files + 1, bytes := u.bytes + (s.node n).size }

/-- `vnode_t* n` of `cmd_du`. -/
def duStart (v : Vfs) (argv : List (List Char)) : Option Nat :=
  if 2 ≤ argv.length ∧ (argv.getD 1 []).head? ≠ some '-' then v.vfsResolve (argv.getD 1 [])
  else some v.cwd

end Vfs

def cmdDu (argv : List (List Char)) : Prog Int := do
  let v ← vfs
  match v.duStart argv with
  | none => fail "du: no such file or directory\n"
  | some n =>
    match v.countRec v.next n ⟨0, 0, 0⟩ with
    | none => .fault
    | some u => do
      putf "%u\t%s\n".toList [.num (.int (BitVec.ofNat 32 ((u.bytes + 1023) / 1024))),
        .str (some (if 2 ≤ argv.length then argv.getD 1 [] else ['.']))]
      pure 0

/-! ## The lines of `tree` -/

namespace Vfs

variable {s s' : Vfs} {n m c k : Nat} {l : List Nat}

/-- The ways down from `n`. -/
def ways (s : Vfs) (n : Nat) : List (List Nat) := Forest.preorder s.kids s.next n []

/-- The line of the node at the end of a way down, without the newline. -/
def treeText (s : Vfs) (l : List Nat) : List Char :=
  (List.replicate (l.length - 1) "    ".toList).flatten ++ "|-- ".toList ++ s.nameOf (l.headD 0) ++
    if (s.node (l.headD 0)).type = .dir then ['/'] else []

theorem findLines_ways (s : Vfs) (n : Nat) : s.findLines none n = (s.ways n).map s.findText := by
  have hall : (Forest.preorder s.kids s.next n []).filter
      (fun z => z.head?.any (s.findMatches none)) = s.ways n := by
    refine List.filter_eq_self.mpr fun z hz => ?_
    obtain ⟨x, c, hx, hne, -, rfl⟩ := Forest.mem_preorder.mp hz
    rw [List.append_nil, path_head hx hne]
    rfl
  rw [findLines, findWays, hall]

theorem preorder_leaf (h : s.kids n = []) : Forest.preorder s.kids k n l = [] := by
  cases k with
  | zero => rfl
  | succ k => rw [Forest.preorder, h, List.flatMap_nil]

end Vfs

open Vfs in
/-- The recursion prints the lines of the ways behind `l`, which leads to `n`. -/
theorem treeRec_says {s : Vfs} (W : s.Wf) {k n : Nat} {l : List Nat} (hn : n < s.next)
    (hk : s.next ≤ k + n) :
    Says s (unlines ((Forest.preorder s.kids k n l).map s.treeText)) () (treeRec k n l.length) := by
  induction k generalizing n l with
  | zero => omega
  | succ k ih =>
    have htext : unlines ((Forest.preorder s.kids (k + 1) n l).map s.treeText) =
        (s.kids n).flatMap fun c => (s.treeText (c :: l) ++ ['\n']) ++
          unlines ((Forest.preorder s.kids k c (c :: l)).map s.treeText) := by
      rw [Forest.preorder, List.map_flatMap, unlines, List.flatMap_assoc]
      rfl
    rw [htext, treeRec]
    apply Says.vfs
    intro v S
    rw [S.kids]
    apply Says.forM
    intro c hc
    refine Says.then (a := ()) (b := ()) ?_ ?_
    · have hline : treeLine v l.length c = s.treeText (c :: l) ++ ['\n'] := by
        rw [treeLine, S.nameOf, S.type]
        rfl
      rw [hline]
      exact .puts _
    · rw [S.type]
      split_ifs with hd
      · have hlt := W.kid_gt hc
        exact ih (l := c :: l) (W.kid_lt hc) (by omega)
      · have hleaf : s.kids c = [] := by
          cases ht : (s.node c).type with
          | dir => exact absurd ht hd
          | file => exact W.file_leaf c ht
        rw [preorder_leaf hleaf]
        exact .pure ()

theorem cmdTree_says {s : Vfs} (W : s.Wf) {argv : List (List Char)} {n : Nat}
    (hn : s.treeStart argv = some n) (hd : (s.node n).type = .dir) :
    Says s (unlines ((if s.nameOf n = [] then ['/'] else s.nameOf n) ::
      (s.ways n).map s.treeText)) 0 (cmdTree argv) := by
  have hlt : n < s.next := by
    rw [Vfs.treeStart] at hn
    split at hn
    · exact W.vfsResolve_lt hn
    · exact Option.some.inj hn ▸ W.cwd_lt
  rw [cmdTree]
  apply Says.vfs
  intro v S
  have hstart : v.treeStart argv = some n := by
    rw [Vfs.treeStart, S.vfsResolve, S.cwd]
    exact hn
  have hfilter : (some n).filter (fun n => (v.node n).type = .dir) = some n := by
    rw [Option.filter_some, if_pos (decide_eq_true ((S.type n).trans hd))]
  rw [hstart, hfilter, S.next, S.nameOf]
  have hrec := treeRec_says (l := []) W hlt (Nat.le_add_right _ _)
  have hall := (Says.puts (s := s) ((if s.nameOf n = [] then ['/'] else s.nameOf n) ++
    ['\n'])).then (hrec.then (Says.pure (0 : Int)))
  rw [List.append_nil] at hall
  exact hall

/-! ## What `du` adds up -/

namespace Vfs

variable {s s' : Vfs} {n m c k : Nat} {l : List Nat}

open scoped Classical in
/-- `n` and what is below it. -/
noncomputable def below (s : Vfs) (n : Nat) : Finset Nat :=
  (Finset.range s.next).filter fun m => Below s.kids n m

/-- The bytes of the files among them. -/
noncomputable def bytesBelow (s : Vfs) (n : Nat) : Nat := ∑ m ∈ s.below n, (s.contents m).length

theorem mem_below (W : s.Wf) (hn : n < s.next) : m ∈ s.below n ↔ Below s.kids n m := by
  classical
  rw [below, Finset.mem_filter, Finset.mem_range]
  refine ⟨And.right, fun h => ⟨?_, h⟩⟩
  obtain ⟨l, hl⟩ := h.exists_path
  exact path_lt W hn hl

/-- The buffers are apart from each other, so the sum stays below the end of the heap. -/
theorem bytesBelow_le (H : s.HeapOk) (n : Nat) : s.bytesBelow n ≤ s.ram.heap.used := by
  refine le_trans (Finset.sum_le_sum fun m _ => ?_) (H.arena.sum_room_le (s.below n))
  rw [H.length_contents]
  cases hd : (s.node m).data with
  | none => rw [(H.noData hd).1]; exact Nat.zero_le _
  | some d =>
    rw [block_eq hd]
    have := H.room hd
    show (s.node m).size ≤ (s.node m).cap
    omega

/-- What `count_rec` does at one node. -/
def own (s : Vfs) (u : Usage) (n : Nat) : Usage :=
  if (s.node n).type = .dir then { u with dirs := u.dirs + 1 }
  else { u with files := u.files + 1, bytes := u.bytes + (s.node n).size }

theorem countRec_nodes (W : s.Wf) (hn : n < s.next) (hk : s.next ≤ k + n) (u : Usage) :
    s.countRec k n u = some ((Forest.nodes s.kids k n).foldl s.own u) := by
  induction k generalizing n u with
  | zero => omega
  | succ k ih =>
    have hkids : ∀ (l : List Nat) (u : Usage), (∀ c ∈ l, c ∈ s.kids n) →
        l.foldlM (fun u c => s.countRec k c u) u =
          some ((l.flatMap (Forest.nodes s.kids k)).foldl s.own u) := by
      intro l
      induction l with
      | nil => exact fun u _ => rfl
      | cons c l ihl =>
        intro u hl
        rw [List.forall_mem_cons] at hl
        have hlt := W.kid_gt hl.1
        rw [List.foldlM_cons, ih (W.kid_lt hl.1) (by omega), List.flatMap_cons, List.foldl_append]
        exact ihl _ hl.2
    rw [countRec, Forest.nodes, List.foldl_cons, own]
    split_ifs with hd
    · exact hkids _ _ fun _ h => h
    · have hleaf : s.kids n = [] := by
        cases ht : (s.node n).type with
        | dir => exact absurd ht hd
        | file => exact W.file_leaf n ht
      rw [hleaf]
      rfl

theorem foldl_own (H : s.HeapOk) (l : List Nat) (u : Usage) :
    (l.foldl s.own u).files + (l.foldl s.own u).dirs = u.files + u.dirs + l.length ∧
      (l.foldl s.own u).bytes = u.bytes + (l.map fun m => (s.contents m).length).sum := by
  induction l generalizing u with
  | nil => exact ⟨rfl, rfl⟩
  | cons m l ih =>
    obtain ⟨hcount, hbytes⟩ := ih (s.own u m)
    rw [List.foldl_cons, hcount, hbytes, List.length_cons, List.map_cons, List.sum_cons, own]
    split_ifs with hd
    · rw [contents_nil (H.dirs hd)]
      exact ⟨by simp only; omega, by simp⟩
    · rw [H.length_contents]
      exact ⟨by simp only; omega, by simp only; omega⟩

/-- `count_rec` over the whole tree below a node. -/
theorem countRec_below (W : s.Wf) (H : s.HeapOk) (hn : n < s.next) :
    ∃ u, s.countRec s.next n ⟨0, 0, 0⟩ = some u ∧ u.files + u.dirs = (s.below n).card ∧
      u.bytes = s.bytesBelow n := by
  classical
  have hnodup := Forest.nodup_nodes W.forest W.not_below s.next n
  have hset : (Forest.nodes s.kids s.next n).toFinset = s.below n := by
    ext m
    rw [List.mem_toFinset, mem_below W hn]
    refine ⟨Forest.below_of_mem_nodes, fun h => ?_⟩
    obtain ⟨l, hl⟩ := h.exists_path
    have := W.path_length hl
    have := path_lt W hn hl
    exact Forest.mem_nodes_of_path hl (by omega)
  obtain ⟨hcount, hbytes⟩ := foldl_own H (Forest.nodes s.kids s.next n) ⟨0, 0, 0⟩
  refine ⟨_, countRec_nodes W hn (Nat.le_add_right _ _) _, ?_, ?_⟩
  · rw [hcount, ← hset, List.toFinset_card_of_nodup hnodup]
    exact Nat.zero_add _
  · rw [hbytes, bytesBelow, ← hset, List.sum_toFinset _ hnodup]
    exact Nat.zero_add _

theorem mem_ways (W : s.Wf) (hn : n < s.next) :
    l ∈ s.ways n ↔ ∃ m, Forest.Path s.kids n l m ∧ m ≠ n := by
  rw [ways, Forest.mem_preorder]
  constructor
  · rintro ⟨x, m, hx, hne, -, rfl⟩
    rw [List.append_nil]
    exact ⟨m, hx, (path_ne_nil W hx).mp hne⟩
  · rintro ⟨m, hl, hne⟩
    have := W.path_length hl
    have := path_lt W hn hl
    exact ⟨l, m, hl, (path_ne_nil W hl).mpr hne, by omega, (List.append_nil l).symm⟩

/-- The ways lead to all nodes below the start but itself. -/
theorem length_ways (W : s.Wf) (hn : n < s.next) : (s.ways n).length + 1 = (s.below n).card := by
  classical
  have hself : n ∈ s.below n := (mem_below W hn).mpr .refl
  have hends : ∀ l ∈ s.ways n, ∃ m, Forest.Path s.kids n l m ∧ m ≠ n ∧ l.headD 0 = m := by
    intro l hl
    obtain ⟨m, hm, hne⟩ := (mem_ways W hn).mp hl
    refine ⟨m, hm, hne, ?_⟩
    rw [List.headD_eq_head?_getD, path_head hm ((path_ne_nil W hm).mpr hne)]
    rfl
  -- a way is determined by its end
  have hnodup : ((s.ways n).map fun l => l.headD 0).Nodup := by
    refine List.Nodup.map_on ?_ (Forest.nodup_preorder W.forest.nodup _ _ _)
    intro l hl l' hl' he
    obtain ⟨m, hm, -, h⟩ := hends l hl
    obtain ⟨m', hm', -, h'⟩ := hends l' hl'
    obtain rfl : m = m' := h.symm.trans (he.trans h')
    exact hm.unique W.kid_gt W.forest hm'
  have hset : ((s.ways n).map fun l => l.headD 0).toFinset = (s.below n).erase n := by
    ext m
    rw [List.mem_toFinset, List.mem_map, Finset.mem_erase, mem_below W hn]
    constructor
    · rintro ⟨l, hl, rfl⟩
      obtain ⟨m, hm, hne, h⟩ := hends l hl
      rw [h]
      exact ⟨hne, hm.toBelow⟩
    · rintro ⟨hne, hb⟩
      obtain ⟨l, hl⟩ := hb.exists_path
      have hway := (mem_ways W hn).mpr ⟨m, hl, hne⟩
      obtain ⟨m', hm', -, h⟩ := hends l hway
      refine ⟨l, hway, ?_⟩
      rw [List.headD_eq_head?_getD, path_head hl ((path_ne_nil W hl).mpr hne)]
      rfl
  rw [← Finset.card_erase_add_one hself, ← hset, List.toFinset_card_of_nodup hnodup,
    List.length_map]

/-- A removal takes away what is below the node that goes. -/
theorem bytesBelow_cut (W : s.Wf) (C : Forest.Cut s.kids s'.kids m) (W' : s'.Wf)
    (hnext : s'.next = s.next) (hcontents : ∀ x, s'.contents x = s.contents x) (hn : n < s.next)
    (hm : Below s.kids n m) (hne : m ≠ n) :
    s'.bytesBelow n + s.bytesBelow m = s.bytesBelow n := by
  classical
  have hmn : ¬ Below s.kids m n := fun h =>
    hne (Nat.le_antisymm (W.le_of_below h) (W.le_of_below hm))
  have hlt : m < s.next := Finset.mem_range.mp (Finset.mem_filter.mp ((mem_below W hn).mpr hm)).1
  have hsub : s.below m ⊆ s.below n := by
    intro x hx
    exact (mem_below W hn).mpr (hm.trans ((mem_below W hlt).mp hx))
  have hset : s'.below n = s.below n \ s.below m := by
    ext x
    rw [Finset.mem_sdiff, mem_below W' (hnext ▸ hn), mem_below W hn, mem_below W hlt]
    exact C.below W.forest hmn
  rw [bytesBelow, bytesBelow, bytesBelow, hset,
    Finset.sum_congr rfl fun x _ => congrArg List.length (hcontents x)]
  exact Finset.sum_sdiff hsub

/-- An append below the node adds its bytes. -/
theorem bytesBelow_update (S : s.SameTree s') (text : List Char)
    (hc : s'.contents = Function.update s.contents m (s.contents m ++ text)) (n : Nat) :
    s'.bytesBelow n = s.bytesBelow n + if m ∈ s.below n then text.length else 0 := by
  have hset : s'.below n = s.below n := by
    rw [below, below, S.kids, S.next]
  have hlen : ∀ x, (s'.contents x).length = (s.contents x).length +
      if x = m then text.length else 0 := by
    intro x
    rw [hc]
    by_cases hx : x = m
    · subst hx
      rw [Function.update_self, List.length_append, if_pos rfl]
    · rw [Function.update_of_ne hx, if_neg hx, Nat.add_zero]
  rw [bytesBelow, bytesBelow, hset, Finset.sum_congr rfl fun x _ => hlen x,
    Finset.sum_add_distrib, Finset.sum_ite_eq']

end Vfs

/-- The line of `du`, in kilobytes. -/
def duText (bytes : Nat) (name : List Char) : List Char :=
  decimal ((bytes + 1023) / 1024 % 2 ^ 32 : Nat) ++ '\t' :: name ++ ['\n']

theorem shPrintf_du (k : Nat) (name : List Char) :
    shPrintf "%u\t%s\n".toList [.num (.int (BitVec.ofNat 32 k)), .str (some name)] =
      some (decimal (k % 2 ^ 32 : Nat) ++ '\t' :: name ++ ['\n']) := by
  have hfmt : "%u\t%s\n".toList = '%' :: 'u' :: (['\t'] ++ '%' :: 's' :: (['\n'] ++ [])) := by
    decide
  rw [hfmt, shPrintf_number, shPrintf_text (by decide), shPrintf_s, shPrintf_text (by decide),
    shPrintf_nil, BitVec.toNat_ofNat]
  simp

/-- `tree`, `find` and `du` see the same nodes: each one below the directory has one way down, of
which `tree` and `find` print a line, in the same order, and `count_rec` counts it. The prefixes of
`find` have to fit. -/
theorem walkers_agree {σ : Shell} (W : σ.vfs.Wf) (H : σ.vfs.HeapOk) {p : List Char} {n : Nat}
    (hp : p.head? ≠ some '-') (hn : σ.vfs.vfsResolve p = some n)
    (hd : (σ.vfs.node n).type = .dir) :
    (∀ m, Below σ.vfs.kids n m → m ≠ n → ∃! l, l ∈ σ.vfs.ways n ∧ l.head? = some m) ∧
    (cmdTree ["tree".toList, p]).run σ = (σ.shPuts (unlines
      ((if σ.vfs.nameOf n = [] then ['/'] else σ.vfs.nameOf n) ::
        (σ.vfs.ways n).map σ.vfs.treeText))).map (fun σ => (0, σ)) ∧
    (σ.vfs.PrefixesFit n 2 → (cmdFind ["find".toList, p]).run σ = (σ.shPuts (unlines
      ("./".toList :: (σ.vfs.ways n).map σ.vfs.findText))).map (fun σ => (0, σ))) ∧
    (∃ u, σ.vfs.countRec σ.vfs.next n ⟨0, 0, 0⟩ = some u ∧
      u.files + u.dirs = (σ.vfs.ways n).length + 1 ∧ u.bytes = σ.vfs.bytesBelow n) ∧
    (cmdDu ["du".toList, p]).run σ =
      (σ.shPuts (duText (σ.vfs.bytesBelow n) p)).map (fun σ => (0, σ)) := by
  have hlt := W.vfsResolve_lt hn
  obtain ⟨u, hu, hcount, hbytes⟩ := Vfs.countRec_below W H hlt
  have hword : ∀ name : List Char, [name, p].getD 1 [] = p := fun _ => rfl
  have hargs : findArgs (List.drop 1 ["find".toList, p]) ['.'] none = (p, none) := by
    show (if p.head? = some '-' then ['.'] else p, none) = _
    rw [if_neg hp]
  have hnodes := hcount.trans (Vfs.length_ways W hlt).symm
  refine ⟨fun m hm hne => ?_, ?_, fun hfits => ?_, ⟨u, hu, hnodes, hbytes⟩, ?_⟩
  · obtain ⟨l, hl⟩ := hm.exists_path
    refine ⟨l, ⟨(Vfs.mem_ways W hlt).mpr ⟨m, hl, hne⟩,
      Vfs.path_head hl ((Vfs.path_ne_nil W hl).mpr hne)⟩, ?_⟩
    rintro l' ⟨hl', hhead⟩
    obtain ⟨m', hm', hne'⟩ := (Vfs.mem_ways W hlt).mp hl'
    rw [Vfs.path_head hm' ((Vfs.path_ne_nil W hm').mpr hne')] at hhead
    exact hm'.unique W.kid_gt W.forest (Option.some.inj hhead ▸ hl)
  · have hstart : σ.vfs.treeStart ["tree".toList, p] = some n := by
      rw [Vfs.treeStart, if_pos (show 2 ≤ ["tree".toList, p].length from Nat.le_refl 2), hword]
      exact hn
    exact cmdTree_says W hstart hd σ .rfl'
  · have hfind : FindFits σ.vfs ["find".toList, p] := by
      rw [FindFits, hargs]
      intro m hm _
      exact Option.some.inj (hn.symm.trans hm) ▸ hfits
    have hnode : σ.vfs.vfsResolve (findArgs (List.drop 1 ["find".toList, p]) ['.'] none).1 =
        some n := by
      rw [hargs]
      exact hn
    have hrun := cmdFind_says W hfind hnode hd σ .rfl'
    rw [hargs] at hrun
    rwa [Vfs.findLines_ways] at hrun
  · have hstart : σ.vfs.duStart ["du".toList, p] = some n := by
      rw [Vfs.duStart, if_pos ⟨Nat.le_refl 2, hp⟩]
      exact hn
    rw [cmdDu, run_bind, run_vfs, Option.bind_some, hstart]
    simp only [hu]
    rw [if_pos (show 2 ≤ ["du".toList, p].length from Nat.le_refl 2), hword, putf, shPrintf_du,
      run_bind, run_puts, ← duText, hbytes]
    cases σ.shPuts (duText (σ.vfs.bytesBelow n) p) <;> rfl

/-- What `tree /` prints in the initial state, and `find /` behind `./`. -/
def rootTree : List (List Char) :=
  ["/".toList, "|-- bin/".toList, "|-- etc/".toList, "    |-- motd".toList,
    "    |-- hostname".toList, "    |-- os-release".toList, "|-- home/".toList,
    "    |-- user/".toList, "|-- root/".toList, "    |-- readme.txt".toList, "|-- tmp/".toList,
    "|-- usr/".toList, "    |-- bin/".toList]

def rootFind : List (List Char) :=
  ["./".toList, "./bin/".toList, "./etc/".toList, "./etc/motd".toList, "./etc/hostname".toList,
    "./etc/os-release".toList, "./home/".toList, "./home/user/".toList, "./root/".toList,
    "./root/readme.txt".toList, "./tmp/".toList, "./usr/".toList, "./usr/bin/".toList]

/-- The whole tree after the boot: 418 bytes in four files. -/
theorem walkers_agree_root :
    (cmdTree ["tree".toList, "/".toList]).run bootShell =
      (bootShell.shPuts (unlines rootTree)).map (fun σ => (0, σ)) ∧
    (cmdFind ["find".toList, "/".toList]).run bootShell =
      (bootShell.shPuts (unlines rootFind)).map (fun σ => (0, σ)) ∧
    (cmdDu ["du".toList, "/".toList]).run bootShell =
      (bootShell.shPuts "1\t/\n".toList).map (fun σ => (0, σ)) := by
  have h : bootVfs.vfsResolve "/".toList = some bootVfs.root ∧
      (bootVfs.node bootVfs.root).type = .dir ∧ bootVfs.nameOf bootVfs.root = [] ∧
      2 + VFS_NAME_MAX * bootVfs.next ≤ PATH_MAX ∧
      ['/'] :: (bootVfs.ways bootVfs.root).map bootVfs.treeText = rootTree ∧
      "./".toList :: (bootVfs.ways bootVfs.root).map bootVfs.findText = rootFind ∧
      (bootVfs.countRec bootVfs.next bootVfs.root ⟨0, 0, 0⟩).map Usage.bytes = some 418 := by
    rw [bootVfs_spelled]
    decide +kernel
  have W := bootVfs_booted.wf
  have H := bootVfs_booted.heapOk
  rw [← bootShell_vfs] at h W H
  obtain ⟨hn, hd, hname, hnext, htree, hfind, hbytes⟩ := h
  obtain ⟨-, hruns, hfinds, ⟨u, hu, -, hsum⟩, hdus⟩ :=
    walkers_agree W H (by decide) hn hd
  rw [hu, Option.map_some, Option.some_inj, hsum] at hbytes
  rw [if_pos hname, htree] at hruns
  rw [hfind] at hfinds
  rw [hbytes] at hdus
  exact ⟨hruns, hfinds (.of_next W hnext), hdus⟩

open Vfs in
/-- What `du` adds up follows the files: a recursive removal takes away what it was for the node
that goes, and an append to a file adds its bytes where the file is below the start. -/
theorem du_follows {s : Vfs} (W : s.Wf) (H : s.HeapOk) {n : Nat} (hn : n < s.next) :
    (∀ path m, s.vfsResolve path = some m → Below s.kids n m → m ≠ n →
      ∃ s', s.vfsRmRecursive path = some (true, s') ∧
        s'.bytesBelow n + s.bytesBelow m = s.bytesBelow n) ∧
    ∀ (m : Nat) (text : List Char) (s' : Vfs), m < s.next → text.length ≤ 2 ^ 60 →
      s.vfsAppendFile m (.ext text) text.length = (true, s') →
      s'.bytesBelow n = s.bytesBelow n + if m ∈ s.below n then text.length else 0 := by
  constructor
  · intro path m hp hm hne
    obtain ⟨d, -, hmd⟩ := Forest.parent_below hm hne
    have hr : m ≠ s.root := fun h => W.forest.root_not_mem d (h ▸ hmd)
    have hl : s.Linked m := ⟨d, hmd⟩
    obtain ⟨s', hrec, hs, R⟩ := vfsRmRecursive_removed W hp hl hr
    have hfuel := hrec (s.links + s.next + 1) (by omega)
    obtain ⟨-, C⟩ := vfsRmRecursiveNode_cut W hr hfuel
    have P := vfsRmRecursiveNode_pruned W hfuel
    exact ⟨s', hs, bytesBelow_cut W C (P.wf W) R.next R.contents hn hm hne⟩
  · intro m text s' hm hlen hs
    obtain ⟨-, hc⟩ := H.vfsAppendFile (show s.Sound text.length (.ext text) from trivial) hlen hm hs
    have S := s.vfsAppendFile_sameTree m (.ext text) text.length
    rw [hs] at S
    rw [if_pos rfl, Src.bytes_ext] at hc
    exact bytesBelow_update S text hc n

open Vfs in
/-- `/home/user` goes, and `du` of the root is less by it. Two bytes more in `/etc/hostname` are two
more for the root, but none for `/home/user`. -/
theorem du_follows_home : ∃ m f s' s'', bootVfs.vfsResolve "/home/user".toList = some m ∧
    bootVfs.vfsResolve "/etc/hostname".toList = some f ∧
    bootVfs.vfsRmRecursive "/home/user".toList = some (true, s') ∧
    s'.bytesBelow bootVfs.root + bootVfs.bytesBelow m = bootVfs.bytesBelow bootVfs.root ∧
    bootVfs.vfsAppendFile f (.ext ['x', '\n']) 2 = (true, s'') ∧
    s''.bytesBelow bootVfs.root = bootVfs.bytesBelow bootVfs.root + 2 ∧
    s''.bytesBelow m = bootVfs.bytesBelow m := by
  have h : bootVfs.vfsResolve "/home/user".toList = some 8 ∧
      bootVfs.vfsResolve "/etc/hostname".toList = some 10 ∧
      (8 ∈ bootVfs.kids 3 ∧ 3 ∈ bootVfs.kids bootVfs.root ∧ 8 ≠ bootVfs.root) ∧
      (10 ∈ bootVfs.kids 2 ∧ 2 ∈ bootVfs.kids bootVfs.root) ∧ bootVfs.kids 8 = [] ∧
      10 < bootVfs.next ∧ (bootVfs.vfsAppendFile 10 (.ext ['x', '\n']) 2).1 = true := by
    rw [bootVfs_spelled]
    decide +kernel
  obtain ⟨hm, hf, ⟨hk, h3, hr⟩, ⟨hc, h2⟩, hleaf, hlt, happ⟩ := h
  have W := bootVfs_booted.wf
  have H := bootVfs_booted.heapOk
  have hin : Below bootVfs.kids bootVfs.root 8 := (Below.refl.tail h3).tail hk
  obtain ⟨s', hs, hsum⟩ := (du_follows W H W.root_lt).1 _ 8 hm hin hr
  rcases happend : bootVfs.vfsAppendFile 10 (.ext ['x', '\n']) 2 with ⟨b, s''⟩
  rw [happend] at happ
  obtain rfl : b = true := happ
  have hroot := (du_follows W H W.root_lt).2 10 ['x', '\n'] s'' hlt (by decide) happend
  have hlt8 : 8 < bootVfs.next := by omega
  have huser := (du_follows W H hlt8).2 10 ['x', '\n'] s'' hlt (by decide) happend
  have htwo : ['x', '\n'].length = 2 := rfl
  rw [if_pos ((mem_below W W.root_lt).mpr ((Below.refl.tail h2).tail hc)), htwo] at hroot
  rw [if_neg fun h => absurd (((mem_below W hlt8).mp h).eq_of_leaf hleaf) (by decide),
    Nat.add_zero] at huser
  exact ⟨8, 10, s', s'', hm, hf, hs, hsum, happend, hroot, huser⟩

end BojanOS
