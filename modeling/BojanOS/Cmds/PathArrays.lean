import BojanOS.Cmds.Files
import BojanOS.Lib.CString
import BojanOS.Vfs.Appends
import BojanOS.Vfs.Named

/-!
# The arrays that paths are copied to (`vfs_resolve_parent`, `cmd_cp`)

Elsewhere a path is a list, and the functions that copy one are undefined where it does not fit.
Here they store into `char name[VFS_NAME_MAX]` and `char full[512]` themselves, one byte after
another, and compute the same (`mknodeInto_eq`, `copyDstInto_eq`). Which paths fit is read off the
text of the arguments.
-/

namespace BojanOS

/-- What stands behind the last slash. -/
def lastName (path : List Char) : List Char :=
  (path.splitOn '/').getLast (List.splitOn_ne_nil _ _)

theorem lastName_of_not_mem {s : List Char} (h : '/' ∉ s) : lastName s = s := by
  simp only [lastName, List.splitOn_eq_singleton h, List.getLast_singleton]

theorem lastName_append {a b : List Char} (h : '/' ∉ b) : lastName (a ++ '/' :: b) = b := by
  simp only [lastName, List.splitOn_append_cons_self, List.splitOn_eq_singleton h,
    List.getLast_append_singleton]

theorem basenameLoop_spec (b s : List Char) :
    ('/' ∉ s ∧ basenameLoop b s = b) ∨
      ∃ u v, s = u ++ '/' :: v ∧ '/' ∉ v ∧ basenameLoop b s = v := by
  induction s generalizing b with
  | nil => exact .inl ⟨List.not_mem_nil, rfl⟩
  | cons x s ih =>
    rw [basenameLoop]
    rcases ih (if x = '/' then s else b) with ⟨hs, h⟩ | ⟨u, v, rfl, hv, h⟩
    · rcases eq_or_ne x '/' with rfl | hx
      · exact .inr ⟨[], s, rfl, hs, by rw [h, if_pos rfl]⟩
      · refine .inl ⟨?_, by rw [h, if_neg hx]⟩
        rw [List.mem_cons, not_or]
        exact ⟨hx.symm, hs⟩
    · exact .inr ⟨x :: u, v, rfl, hv, h⟩

theorem vfsBasename_eq (path : List Char) : vfsBasename path = lastName path := by
  rw [vfsBasename]
  rcases basenameLoop_spec path path with ⟨hs, h⟩ | ⟨u, v, hp, hv, h⟩
  · rw [h, lastName_of_not_mem hs]
  · rw [h, hp, lastName_append hv]

/-- `if (full[l - 1] != '/') { full[l] = '/'; full[l + 1] = 0; }`, where `l` is a `size_t`. -/
def addSlash (full : CString Char FULL_MAX) : Option (CString Char FULL_MAX) :=
  full.text[(full.text.length + 2 ^ 64 - 1) % 2 ^ 64]?.bind fun last =>
    if last ≠ '/' then full.strcat ['/'] else some full

/-- `full` of `cmd_cp`. -/
def copyPathInto (a d : List Char) : Option (CString Char FULL_MAX) := do
  let name ← CString.strcpy VFS_NAME_MAX (vfsBasename a)
  let full ← CString.strcpy FULL_MAX d
  let full ← addSlash full
  full.strcat name.text

namespace Vfs

/-- `vfs_resolve_parent` with the array of its callers for `out_name`. -/
def resolveParentInto (s : Vfs) (path : List Char) :
    Option (Option Nat × CString Char VFS_NAME_MAX) :=
  let buf := path.take (PATH_MAX - 1)
  match strrchr buf '/' with
  | none => (CString.strcpy VFS_NAME_MAX buf).map fun name => (some s.cwd, name)
  | some slash =>
    let name := buf.drop (slash + 1)
    (CString.strcpy VFS_NAME_MAX (if name = [] then ['/'] else name)).map fun name =>
      (if slash = 0 then some s.root else s.vfsResolve (buf.take slash), name)

/-- The common body of `vfs_mkfile` and `vfs_mkdir`. -/
def mknodeInto (s : Vfs) (type : FsType) (path : List Char) : Option (Bool × Vfs) :=
  (s.resolveParentInto path).map fun (parent, name) =>
    match parent with
    | none => (false, s)
    | some parent =>
      if (s.node parent).type ≠ .dir then (false, s)
      else if name.text = [] ∨ (s.childOf parent name.text).isSome then (false, s)
      else match s.makeNode type name.text (some parent) with
        | (none, s) => (false, s)
        | (some n, s) => s.addChild parent n

def createAtInto (s : Vfs) (path : List Char) : Option (Option Nat × Vfs) :=
  (s.mknodeInto .file path).map fun (_, s) => (s.vfsResolve path, s)

/-- `cmd_cp` up to `dst`. -/
def copyDstInto (s : Vfs) (a d : List Char) : Option (Option Nat × Vfs) :=
  match s.vfsResolve d with
  | none => s.createAtInto d
  | some n =>
    if (s.node n).type = .dir then
      match copyPathInto a d with
      | none => none
      | some full =>
        match s.vfsResolve full.text with
        | none => s.createAtInto full.text
        | some m => some (some m, s)
    else some (some n, s)

variable {s : Vfs} {a d path : List Char} {p : Option Nat} {name : CString Char VFS_NAME_MAX}

theorem resolveParentInto_eq_some :
    s.resolveParentInto path = some (p, name) ↔ s.vfsResolveParent path = (p, name.text) := by
  have key : ∀ {q : Option Nat} {src : List Char},
      (CString.strcpy VFS_NAME_MAX src).map (fun name => (q, name)) = some (p, name) ↔
        (q, src) = (p, name.text) := by
    intro q src
    rw [Option.map_eq_some_iff]
    constructor
    · rintro ⟨a, ha, he⟩
      obtain ⟨rfl, rfl⟩ := Prod.mk.inj he
      rw [CString.strcpy_eq_some.mp ha]
    · intro he
      obtain ⟨rfl, rfl⟩ := Prod.mk.inj he
      exact ⟨name, CString.strcpy_eq_some.mpr rfl, rfl⟩
  rw [resolveParentInto, vfsResolveParent]
  simp only
  cases strrchr (path.take (PATH_MAX - 1)) '/' with
  | none => exact key
  | some slash => exact key

theorem resolveParentInto_isSome :
    (s.resolveParentInto path).isSome ↔ (s.vfsResolveParent path).2.length < VFS_NAME_MAX := by
  rw [Option.isSome_iff_exists]
  constructor
  · rintro ⟨⟨p, name⟩, h⟩
    rw [resolveParentInto_eq_some.mp h]
    exact name.fits
  · exact fun h => ⟨⟨_, ⟨_, h⟩⟩, resolveParentInto_eq_some.mpr rfl⟩

/-- What is copied is what stands behind the last slash, or a slash. -/
theorem length_resolveParent :
    (s.vfsResolveParent path).2.length < VFS_NAME_MAX ↔
      (lastName (path.take (PATH_MAX - 1))).length < VFS_NAME_MAX := by
  rw [vfsResolveParent]
  simp only
  cases hs : strrchr (path.take (PATH_MAX - 1)) '/' with
  | none => rw [lastName_of_not_mem (strrchr_none hs)]
  | some slash =>
    obtain ⟨a, b, hab, hb, rfl⟩ := strrchr_some hs
    have hdrop : (a ++ '/' :: b).drop (a.length + 1) = b := by simp
    rw [hab, lastName_append hb]
    simp only [hdrop]
    split
    · rename_i h
      rw [h]
      exact iff_of_true (by decide) (by decide)
    · exact Iff.rfl

theorem mknodeInto_eq (s : Vfs) (t : FsType) (path : List Char) :
    s.mknodeInto t path = s.vfsMknode t path := by
  rw [mknodeInto, vfsMknode]
  cases h : s.resolveParentInto path with
  | none =>
    have hlen : ¬ (s.vfsResolveParent path).2.length < VFS_NAME_MAX := by
      rw [← resolveParentInto_isSome, h]
      exact Bool.false_ne_true
    rcases hr : s.vfsResolveParent path with ⟨p, name⟩
    rw [hr] at hlen
    simp only
    rw [if_pos (Nat.not_lt.mp hlen)]
    rfl
  | some r =>
    obtain ⟨p, name⟩ := r
    rw [resolveParentInto_eq_some.mp h, Option.map_some]
    simp only
    rw [if_neg (Nat.not_le.mpr name.fits)]
    cases p with
    | none => rfl
    | some p =>
      simp only
      split_ifs
      · rfl
      · rfl
      · rcases s.makeNode t name.text (some p) with ⟨_ | n, s'⟩
        · rfl
        · rfl

end Vfs

/-- The text in `full`. -/
def fullText (a d : List Char) : List Char :=
  d ++ (if d.getLast? = some '/' then [] else ['/']) ++ vfsBasename a

theorem copyPath_eq_some {a d t : List Char} : copyPath a d = some t ↔
    d ≠ [] ∧ (vfsBasename a).length < VFS_NAME_MAX ∧ (fullText a d).length < FULL_MAX ∧
      t = fullText a d := by
  have heq : copyPath a d = if d = [] ∨ VFS_NAME_MAX ≤ (vfsBasename a).length ∨
      FULL_MAX ≤ (fullText a d).length then none else some (fullText a d) := rfl
  rw [heq]
  split
  · rename_i h
    refine iff_of_false (fun h => by cases h) fun ⟨hne, hb, hfull, _⟩ => ?_
    rcases h with h | h | h
    · exact hne h
    · exact Nat.not_le.mpr hb h
    · exact Nat.not_le.mpr hfull h
  · rename_i h
    rw [not_or, not_or, Nat.not_le, Nat.not_le] at h
    exact ⟨fun ht => ⟨h.1, h.2.1, h.2.2, (Option.some.inj ht).symm⟩,
      fun ht => congrArg some ht.2.2.2.symm⟩

/-- `full[l - 1]` is the last byte, and in front of the array for the empty string. -/
theorem addSlash_eq_some {f g : CString Char FULL_MAX} :
    addSlash f = some g ↔
      f.text ≠ [] ∧ g.text = f.text ++ (if f.text.getLast? = some '/' then [] else ['/']) := by
  have hmax : FULL_MAX = 512 := rfl
  have hfits := f.fits
  rw [addSlash]
  rcases hf : f.text with _ | ⟨x, t⟩
  · exact iff_of_false (fun h => by cases h) fun h => h.1 rfl
  rw [hf] at hfits
  have hlen : (x :: t).length = t.length + 1 := rfl
  have hidx : ((x :: t).length + 2 ^ 64 - 1) % 2 ^ 64 = (x :: t).length - 1 := by omega
  obtain ⟨c, hc⟩ := Option.isSome_iff_exists.mp
    (List.getLast?_isSome.mpr (List.cons_ne_nil x t))
  rw [hidx, ← List.getLast?_eq_getElem?, hc, Option.bind_some,
    and_iff_right (List.cons_ne_nil x t)]
  by_cases h : c = '/'
  · rw [if_neg (not_not_intro h), if_pos (congrArg some h), List.append_nil, ← hf]
    exact ⟨fun h => by rw [Option.some.inj h], fun h => congrArg some (CString.text_inj h.symm)⟩
  · rw [if_pos h, if_neg fun he => h (Option.some.inj he), CString.strcat_eq_some, hf]

theorem copyPathInto_eq_some {a d : List Char} {full : CString Char FULL_MAX} :
    copyPathInto a d = some full ↔
      d ≠ [] ∧ (vfsBasename a).length < VFS_NAME_MAX ∧ full.text = fullText a d := by
  constructor
  · intro h
    obtain ⟨name, hname, h₁⟩ := Option.bind_eq_some_iff.mp h
    obtain ⟨f, hf, h₂⟩ := Option.bind_eq_some_iff.mp h₁
    obtain ⟨g, hg, h₃⟩ := Option.bind_eq_some_iff.mp h₂
    obtain rfl := CString.strcpy_eq_some.mp hf
    obtain ⟨hne, hgt⟩ := addSlash_eq_some.mp hg
    have hn := CString.strcpy_eq_some.mp hname
    exact ⟨hne, hn ▸ name.fits, by rw [CString.strcat_eq_some.mp h₃, hgt, hn, fullText]⟩
  · rintro ⟨hne, hb, ht⟩
    have hfits := full.fits
    rw [ht, fullText, List.length_append] at hfits
    have hg : (d ++ (if d.getLast? = some '/' then [] else ['/'])).length < FULL_MAX := by omega
    have hd : d.length < FULL_MAX := by
      rw [List.length_append] at hg
      omega
    have hname : CString.strcpy VFS_NAME_MAX (vfsBasename a) = some ⟨_, hb⟩ :=
      CString.strcpy_eq_some.mpr rfl
    have hf : CString.strcpy FULL_MAX d = some ⟨_, hd⟩ := CString.strcpy_eq_some.mpr rfl
    have hslash : addSlash ⟨d, hd⟩ = some ⟨_, hg⟩ := addSlash_eq_some.mpr ⟨hne, rfl⟩
    apply Option.bind_eq_some_iff.mpr ⟨_, hname, ?_⟩
    apply Option.bind_eq_some_iff.mpr ⟨_, hf, ?_⟩
    exact Option.bind_eq_some_iff.mpr ⟨_, hslash, CString.strcat_eq_some.mpr ht⟩

/-- The array holds what `copyPath` says. -/
theorem copyPathInto_text (a d : List Char) :
    (copyPathInto a d).map CString.text = copyPath a d := by
  apply Option.ext
  intro t
  rw [Option.map_eq_some_iff, copyPath_eq_some]
  constructor
  · rintro ⟨full, hf, rfl⟩
    obtain ⟨hne, hb, ht⟩ := copyPathInto_eq_some.mp hf
    exact ⟨hne, hb, ht ▸ full.fits, ht⟩
  · rintro ⟨hne, hb, hfits, rfl⟩
    exact ⟨⟨_, hfits⟩, copyPathInto_eq_some.mpr ⟨hne, hb, rfl⟩, rfl⟩

namespace Vfs

theorem createAtInto_eq (s : Vfs) (path : List Char) : s.createAtInto path = s.createAt path := by
  rw [createAtInto, mknodeInto_eq, createAt, vfsMkfile]

/-- `cmd_cp` finds the same destination with the arrays as without. -/
theorem copyDstInto_eq (s : Vfs) (a d : List Char) : s.copyDstInto a d = s.copyDst a d := by
  rw [copyDstInto, copyDst]
  cases s.vfsResolve d with
  | none => exact createAtInto_eq s d
  | some n =>
    simp only
    split
    · rw [← copyPathInto_text]
      cases copyPathInto a d with
      | none => rfl
      | some full =>
        simp only [Option.map_some]
        cases s.vfsResolve full.text with
        | none => exact createAtInto_eq s full.text
        | some m => rfl
    · rfl

end Vfs

/-! ## Which paths fit -/

theorem not_mem_lastName (s : List Char) : '/' ∉ lastName s :=
  not_mem_of_mem_splitOn (List.getLast_mem (List.splitOn_ne_nil _ _))

/-- The name behind `full` is the one that has been copied to `name`. -/
theorem lastName_fullText (a d : List Char) : lastName (fullText a d) = vfsBasename a := by
  have hb : '/' ∉ vfsBasename a := vfsBasename_eq a ▸ not_mem_lastName a
  rw [fullText]
  split
  · rename_i h
    obtain ⟨u, rfl⟩ := List.getLast?_eq_some_iff.mp h
    rw [List.append_nil, List.append_assoc]
    exact lastName_append hb
  · rw [List.append_assoc]
    exact lastName_append hb

namespace Vfs

variable {s : Vfs} {a d path : List Char}

/-- What `cp a d` needs: a name that fits, behind `d` or behind the directory that `d` leads to. -/
def CopyFits (s : Vfs) (a d : List Char) : Prop :=
  match s.vfsResolve d with
  | none => (lastName (d.take (PATH_MAX - 1))).length < VFS_NAME_MAX
  | some n => (s.node n).type = .dir →
      d ≠ [] ∧ (lastName a).length < VFS_NAME_MAX ∧
        d.length + (if d.getLast? = some '/' then 0 else 1) + (lastName a).length < FULL_MAX

theorem length_fullText (a d : List Char) : (fullText a d).length =
    d.length + (if d.getLast? = some '/' then 0 else 1) + (lastName a).length := by
  rw [fullText, List.length_append, List.length_append, vfsBasename_eq]
  split
  · rfl
  · rfl

theorem createAt_isSome : (s.createAt path).isSome ↔
    (lastName (path.take (PATH_MAX - 1))).length < VFS_NAME_MAX := by
  rw [createAt, Option.isSome_map, vfsMkfile, FsOp.vfsMknode_isSome, length_resolveParent]

theorem copyDst_isSome : (s.copyDst a d).isSome ↔ s.CopyFits a d := by
  rw [copyDst, CopyFits]
  cases s.vfsResolve d with
  | none => exact createAt_isSome
  | some n =>
    simp only
    split
    · rename_i hdir
      rw [forall_prop_of_true hdir, ← length_fullText, ← vfsBasename_eq]
      cases hc : copyPath a d with
      | none =>
        refine iff_of_false Bool.false_ne_true fun ⟨hne, hb, hfull⟩ => ?_
        rw [copyPath_eq_some.mpr ⟨hne, hb, hfull, rfl⟩] at hc
        cases hc
      | some full =>
        obtain ⟨hne, hb, hfull, rfl⟩ := copyPath_eq_some.mp hc
        refine iff_of_true ?_ ⟨hne, hb, hfull⟩
        simp only
        split
        · apply createAt_isSome.mpr
          rw [List.take_of_length_le (Nat.le_trans (Nat.le_of_lt hfull) (by decide)),
            lastName_fullText]
          exact hb
        · rfl
    · rename_i hdir
      exact iff_of_true rfl fun h => absurd h hdir

/-- Every byte of a path that is copied on the way to a new node, and by `cp`, is stored inside its
array exactly when the names and the directory in the text fit. -/
theorem pathArrays_iff (s : Vfs) (path a d : List Char) :
    ((s.resolveParentInto path).isSome ↔
      (lastName (path.take (PATH_MAX - 1))).length < VFS_NAME_MAX) ∧
    ((∀ src, s.vfsResolve a = some src → (s.node src).type = .file →
        (s.copyDstInto a d).isSome) ↔
      ∀ src, s.vfsResolve a = some src → (s.node src).type = .file → s.CopyFits a d) := by
  rw [resolveParentInto_isSome, length_resolveParent, copyDstInto_eq, copyDst_isSome]
  exact ⟨Iff.rfl, Iff.rfl⟩

/-- `mkdir` with a name of 64 bytes, and `cp /etc/motd ""`, which reads `full[-1]`. -/
theorem pathArrays_left :
    (¬ ∀ (s : Vfs) (path : List Char), Running s → (s.resolveParentInto path).isSome) ∧
    ¬ ∀ (s : Vfs) (a d : List Char), Running s → ∀ src, s.vfsResolve a = some src →
      (s.node src).type = .file → (s.copyDstInto a d).isSome := by
  refine ⟨fun H => ?_, fun H => ?_⟩
  · have h := H bootVfs (List.replicate 64 'a') (.boot bootVfs_booted)
    rw [resolveParentInto_isSome, length_resolveParent] at h
    exact absurd h (by decide)
  · have h : (bootVfs.vfsResolve "/etc/motd".toList).any fun src =>
        (bootVfs.node src).type = .file ∧ bootVfs.copyDstInto "/etc/motd".toList [] = none := by
      rw [bootVfs_spelled]
      decide +kernel
    obtain ⟨src, hsrc, hfile, hnone⟩ := exists_of_any h
    have hsome := H bootVfs _ [] (.boot bootVfs_booted) src hsrc hfile
    rw [hnone] at hsome
    cases hsome

end Vfs

end BojanOS
