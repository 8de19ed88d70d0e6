import BojanOS.Vfs.Lookup
import BojanOS.Lib.Loop
import Mathlib.Data.List.TakeWhile

/-!
# Walking a path in pieces (`vfs_resolve`)

`scanStep` is one round of the outer loop of `vfs_resolve`, byte by byte: it skips slashes, copies
a name and follows it. The loop always ends, and it walks through the `components` of the path
(`vfsResolveScan_eq`), so a path in two pieces is walked as the second piece from where the first one leads.
-/

namespace BojanOS

/-- `while (*p && *p != '/') { if (i < VFS_NAME_MAX - 1) name[i++] = *p; p++; }`, with the bytes
copied so far and what is left of the path. -/
def copyName (name : List Char) : List Char → List Char × List Char
  | [] => (name, [])
  | c :: p =>
    if c = '/' then (name, c :: p)
    else copyName (if name.length < VFS_NAME_MAX - 1 then name ++ [c] else name) p

theorem copyName_eq (name p : List Char) : copyName name p =
    (name ++ (p.takeWhile (· ≠ '/')).take (VFS_NAME_MAX - 1 - name.length),
      p.dropWhile (· ≠ '/')) := by
  induction p generalizing name with
  | nil => simp [copyName]
  | cons c p ih =>
    rw [copyName]
    by_cases hc : c = '/'
    · simp [hc]
    · rw [if_neg hc, ih, List.takeWhile_cons_of_pos (by simpa using hc),
        List.dropWhile_cons_of_pos (by simpa using hc)]
      by_cases hroom : name.length < VFS_NAME_MAX - 1
      · obtain ⟨k, hk⟩ : ∃ k, VFS_NAME_MAX - 1 - name.length = k + 1 :=
          ⟨VFS_NAME_MAX - 1 - name.length - 1, by omega⟩
        have hk' : VFS_NAME_MAX - 1 - (name ++ [c]).length = k := by
          rw [List.length_append, List.length_singleton]
          omega
        rw [if_pos hroom, hk', hk, List.take_succ_cons, List.append_assoc, List.singleton_append]
      · have hzero : VFS_NAME_MAX - 1 - name.length = 0 := by omega
        rw [if_neg hroom, hzero, List.take_zero, List.take_zero]

theorem components_singleton {name : List Char} (hne : name ≠ []) (hs : '/' ∉ name) :
    components name = [name.take (VFS_NAME_MAX - 1)] := by
  rw [components, List.splitOn_eq_singleton hs]
  simp [hne]

theorem components_cons {c : Char} (hc : c ≠ '/') (p : List Char) :
    components (c :: p) = ((c :: p).takeWhile (· ≠ '/')).take (VFS_NAME_MAX - 1) ::
      components ((c :: p).dropWhile (· ≠ '/')) := by
  have hne : (c :: p).takeWhile (· ≠ '/') ≠ [] := by
    rw [List.takeWhile_cons_of_pos (by simpa using hc)]
    exact List.cons_ne_nil _ _
  have hs : '/' ∉ (c :: p).takeWhile (· ≠ '/') := fun h => by
    simpa using List.mem_takeWhile_imp h
  conv_lhs => rw [← List.takeWhile_append_dropWhile (p := (· ≠ '/')) (l := c :: p)]
  cases hrest : (c :: p).dropWhile (· ≠ '/') with
  | nil =>
    rw [List.append_nil, components_singleton hne hs]
    rfl
  | cons d r =>
    have hd : d = '/' := by
      have := List.head?_dropWhile_not (p := (· ≠ '/')) (l := c :: p)
      rw [hrest] at this
      simpa using this
    subst hd
    rw [components_append, components_singleton hne hs, List.singleton_append]
    exact congrArg _ (components_append [] r).symm

namespace Vfs

variable {s : Vfs} {cur n : Nat} {p q : List Char}

/-- A round of `while (*p)`, from the node and the rest of the path; a return is on the right. -/
def scanStep (s : Vfs) : Nat × List Char → Option ((Nat × List Char) ⊕ Option Nat)
  | (cur, p) =>
    match p.dropWhile (· = '/') with
    | [] => some (.inr (some cur))
    | p =>
      let (name, p) := copyName [] p
      match s.walkStep cur name with
      | none => some (.inr none)
      | some cur => some (.inl (cur, p))

/-- `vfs_resolve`, byte by byte. The inner `none` is the null pointer. -/
def vfsResolveScan (s : Vfs) (path : List Char) : Option (Option Nat) :=
  if path = [] then some (some s.cwd)
  else Loop.exec s.scanStep (fun st => st.2.length)
    (if path.head? = some '/' then s.root else s.cwd, path)

/-- The first component, and where the next round goes on. -/
theorem components_round (p : List Char) :
    (p.dropWhile (· = '/') = [] ∧ components p = []) ∨
    ∃ c t, p.dropWhile (· = '/') = c :: t ∧
      components p = (copyName [] (c :: t)).1 :: components (copyName [] (c :: t)).2 ∧
      (copyName [] (c :: t)).2.length < p.length := by
  induction p with
  | nil => exact .inl ⟨rfl, rfl⟩
  | cons c p ih =>
    by_cases hc : c = '/'
    · subst hc
      have hdrop : ('/' :: p).dropWhile (· = '/') = p.dropWhile (· = '/') :=
        List.dropWhile_cons_of_pos (by simp)
      have hcomp : components ('/' :: p) = components p := components_append [] p
      rw [hdrop, hcomp]
      refine ih.imp_right fun ⟨c, t, hp, hct, hlen⟩ => ⟨c, t, hp, hct, ?_⟩
      exact Nat.lt_succ_of_lt hlen
    · refine .inr ⟨c, p, List.dropWhile_cons_of_neg (by simpa using hc), ?_, ?_⟩
      · rw [copyName_eq, List.nil_append]
        exact components_cons hc p
      · rw [copyName_eq, List.dropWhile_cons_of_pos (by simpa using hc)]
        exact Nat.lt_succ_of_le (List.length_dropWhile_le _ _)

theorem scanStep_variant (s : Vfs) : Loop.Variant s.scanStep fun st => st.2.length := by
  rintro ⟨cur, p⟩ ⟨cur', p'⟩ h
  rw [scanStep] at h
  rcases components_round p with ⟨hp, -⟩ | ⟨c, t, hp, -, hlen⟩
  · rw [hp] at h
    cases h
  · rw [hp] at h
    simp only at h
    split at h
    · cases h
    · obtain ⟨-, rfl⟩ := Prod.mk.inj (Sum.inl.inj (Option.some.inj h))
      exact hlen

/-- The loop walks through the components. -/
theorem scanLoop_eq (s : Vfs) (cur : Nat) (p : List Char) :
    Loop.exec s.scanStep (fun st => st.2.length) (cur, p) = some (s.walk cur (components p)) := by
  induction hn : p.length using Nat.strong_induction_on generalizing cur p with
  | _ n ih =>
    rcases components_round p with ⟨hp, hcomp⟩ | ⟨c, t, hp, hcomp, hlen⟩
    · rw [hcomp]
      apply Loop.exec_done
      rw [scanStep, hp]
      rfl
    · rw [hcomp, walk, List.foldlM_cons]
      cases hw : s.walkStep cur (copyName [] (c :: t)).1 with
      | none =>
        apply Loop.exec_done
        rw [scanStep, hp]
        simp only [hw]
        rfl
      | some cur' =>
        have hstep : s.scanStep (cur, p) = some (.inl (cur', (copyName [] (c :: t)).2)) := by
          rw [scanStep, hp]
          simp only [hw]
        rw [Loop.exec_next s.scanStep_variant hstep]
        exact ih _ (hn ▸ hlen) cur' _ rfl

theorem vfsResolveScan_eq (s : Vfs) (path : List Char) : s.vfsResolveScan path = some (s.vfsResolve path) := by
  rw [vfsResolveScan, vfsResolve]
  split
  · rename_i h
    subst h
    rfl
  · exact scanLoop_eq s _ path

/-- A path in two pieces leads where the second piece leads from the first one. -/
theorem vfsResolve_append (s : Vfs) (hp : p ≠ []) (hq : q.head? ≠ some '/') :
    s.vfsResolve (p ++ '/' :: q) =
      (s.vfsResolve p).bind fun n => { s with cwd := n }.vfsResolve q := by
  have hhead : (p ++ '/' :: q).head? = p.head? := by
    cases p with
    | nil => exact absurd rfl hp
    | cons c p => rfl
  have hcwd : ∀ n, { s with cwd := n }.vfsResolve q = s.walk n (components q) := by
    intro n
    rw [vfsResolve, if_neg hq]
    rfl
  rw [vfsResolve, hhead, components_append, walk_append, vfsResolve]
  exact congrArg _ (funext fun n => (hcwd n).symm)

end Vfs

open Vfs in
/-- `vfs_resolve` ends on both paths, and where `p` leads nowhere neither does the whole path. -/
theorem vfsResolve_join (s : Vfs) {p q : List Char} (hp : p ≠ []) (hq : q.head? ≠ some '/') :
    ∃ o, s.vfsResolveScan p = some o ∧ s.vfsResolveScan (p ++ '/' :: q) =
      match o with
      | none => some none
      | some n => { s with cwd := n }.vfsResolveScan q := by
  refine ⟨s.vfsResolve p, vfsResolveScan_eq s p, ?_⟩
  rw [vfsResolveScan_eq, vfsResolve_append s hp hq]
  cases s.vfsResolve p with
  | none => rfl
  | some n => exact (vfsResolveScan_eq _ q).symm

/-- Through the parent of a directory, and back by the home directory. -/
theorem vfsResolve_join_dots :
    ∃ o, bootVfs.vfsResolveScan "/etc//..".toList = some o ∧
      bootVfs.vfsResolveScan ("/etc//..".toList ++ '/' :: "~/./readme.txt".toList) =
        match o with
        | none => some none
        | some n => { bootVfs with cwd := n }.vfsResolveScan "~/./readme.txt".toList :=
  vfsResolve_join bootVfs (by decide) (by decide)

end BojanOS
