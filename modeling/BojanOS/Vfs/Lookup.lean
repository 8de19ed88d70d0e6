import BojanOS.Vfs.Contents
import Mathlib.Data.List.Find

/-!
# Creating what a path names

`vfs_mkfile` and `vfs_mkdir` cut the path at its last slash (within the first 1023 bytes) and
`vfs_resolve` walks all of it. The two agree on where the parent directory is
(`vfsResolve_eq_walk`), but not on the rest: `vfs_resolve_parent` takes `.`, `..`, `~` and the
empty text after a trailing slash as names. `walkNew` looks the rest up in the tree as it will be,
and the call does what its callers expect exactly when that leads to the new node.
-/

namespace BojanOS

theorem strrchrLoop_spec (c : Char) (s : List Char) (i : Nat) (last : Option Nat) :
    (c ∉ s ∧ strrchrLoop c s i last = last) ∨
      ∃ a b, s = a ++ c :: b ∧ c ∉ b ∧ strrchrLoop c s i last = some (i + a.length) := by
  induction s generalizing i last with
  | nil => exact .inl ⟨by simp, rfl⟩
  | cons x s ih =>
    rw [strrchrLoop]
    rcases ih (i + 1) (if x = c then some i else last) with ⟨hc, h⟩ | ⟨a, b, rfl, hb, h⟩
    · rcases eq_or_ne x c with rfl | hx
      · exact .inr ⟨[], s, rfl, hc, by rw [h, if_pos rfl]; rfl⟩
      · exact .inl ⟨by simp [hc, hx.symm], by rw [h, if_neg hx]⟩
    · refine .inr ⟨x :: a, b, rfl, hb, ?_⟩
      rw [h, List.length_cons, Nat.add_assoc, Nat.add_comm 1]

theorem strrchr_none {s : List Char} {c : Char} (h : strrchr s c = none) : c ∉ s := by
  rcases strrchrLoop_spec c s 0 none with ⟨hc, -⟩ | ⟨a, b, -, -, h'⟩
  · exact hc
  · rw [strrchr, h'] at h; cases h

theorem strrchr_some {s : List Char} {c : Char} {i : Nat} (h : strrchr s c = some i) :
    ∃ a b, s = a ++ c :: b ∧ c ∉ b ∧ a.length = i := by
  rcases strrchrLoop_spec c s 0 none with ⟨-, h'⟩ | ⟨a, b, hs, hb, h'⟩
  · rw [strrchr, h'] at h; cases h
  · rw [strrchr, h', Nat.zero_add] at h
    exact ⟨a, b, hs, hb, Option.some.inj h⟩

theorem components_append (a b : List Char) :
    components (a ++ '/' :: b) = components a ++ components b := by
  rw [components, List.splitOn_append_cons_self, List.filter_append, List.map_append]
  rfl

/-- A name of at most 63 bytes is its own only component. -/
theorem components_name {name : List Char} (hne : name ≠ []) (hs : '/' ∉ name)
    (hlen : name.length < VFS_NAME_MAX) : components name = [name] := by
  rw [components, List.splitOn_eq_singleton hs]
  simp [hne, List.take_of_length_le (Nat.le_sub_one_of_lt hlen)]

namespace Vfs

variable {s s' : Vfs} {p c d n : Nat} {name path : List Char} {t : FsType} {b : Bool}

/-- The rest of the path behind the slash where `vfs_resolve_parent` cuts it. -/
def pathTail (path : List Char) : List Char :=
  match strrchr (path.take (PATH_MAX - 1)) '/' with
  | none => path
  | some slash => path.drop (slash + 1)

theorem walk_append (s : Vfs) (n : Nat) (xs ys : List (List Char)) :
    s.walk n (xs ++ ys) = (s.walk n xs).bind fun m => s.walk m ys := List.foldlM_append ..

/-- The two functions agree on where the parent directory is. -/
theorem vfsResolve_eq_walk (s : Vfs) (path : List Char) :
    s.vfsResolve path =
      (s.vfsResolveParent path).1.bind fun p => s.walk p (components (pathTail path)) := by
  rw [vfsResolveParent, pathTail]
  simp only
  cases hs : strrchr (path.take (PATH_MAX - 1)) '/' with
  | none =>
    have hhead : path.head? ≠ some '/' := by
      intro h
      obtain ⟨q, rfl⟩ := List.head?_eq_some_iff.mp h
      exact strrchr_none hs (by simp [PATH_MAX])
    rw [vfsResolve, if_neg hhead]
    rfl
  | some slash =>
    obtain ⟨a, b, hab, hb, hlen⟩ := strrchr_some hs
    obtain ⟨rest, hpath⟩ : ∃ rest, path = a ++ '/' :: rest := by
      refine ⟨b ++ path.drop (PATH_MAX - 1), ?_⟩
      conv_lhs => rw [← List.take_append_drop (PATH_MAX - 1) path, hab]
      simp
    have hdrop : path.drop (a.length + 1) = rest := by rw [hpath]; simp
    simp only [hab, ← hlen, List.take_left', hdrop]
    subst hpath
    rw [vfsResolve, components_append]
    cases a with
    | nil => rfl
    | cons x a =>
      have hne : (x :: a).length ≠ 0 := by simp
      rw [if_neg hne, vfsResolve, walk_append]
      rfl

theorem pathTail_of_resolveParent (hlen : path.length < PATH_MAX) :
    '/' ∉ pathTail path ∧ ((s.vfsResolveParent path).2 = pathTail path ∨
      pathTail path = [] ∧ (s.vfsResolveParent path).2 = ['/']) := by
  have htake : path.take (PATH_MAX - 1) = path := List.take_of_length_le (Nat.le_sub_one_of_lt hlen)
  rw [vfsResolveParent, pathTail, htake]
  simp only
  cases hs : strrchr path '/' with
  | none => exact ⟨strrchr_none hs, .inl rfl⟩
  | some slash =>
    obtain ⟨a, b, rfl, hb, rfl⟩ := strrchr_some hs
    have hdrop : (a ++ '/' :: b).drop (a.length + 1) = b := by simp
    simp only [hdrop]
    refine ⟨hb, ?_⟩
    split
    · exact .inr ⟨‹_›, rfl⟩
    · exact .inl rfl

/-! ## Looking up in the tree with the new node -/

/-- `child_of` in the tree where the directory `p` has a new last child called `name`; `none` in
the inner option stands for the new node. -/
def childNew (s : Vfs) (p : Nat) (name : List Char) (d : Nat) (x : List Char) :
    Option (Option Nat) :=
  if d = p ∧ x = name then some none else (s.childOf d x).map some

def walkNewStep (s : Vfs) (p : Nat) (name : List Char) (cur : Option Nat) (x : List Char) :
    Option (Option Nat) :=
  if x = ['.'] then some cur
  else if x = ['.', '.'] then
    match cur with
    | none => some (some p)
    | some d => some (some ((s.node d).parent.getD d))
  else if x = ['~'] then s.childNew p name s.root ['r', 'o', 'o', 't']
  else
    match cur with
    | none => none
    | some d => s.childNew p name d x

def walkNew (s : Vfs) (p : Nat) (name : List Char) (cur : Option Nat) (xs : List (List Char)) :
    Option (Option Nat) := xs.foldlM (s.walkNewStep p name) cur

/-- Where the name is missing so far, a walk that comes out at an old node is the walk of today. -/
theorem walkNew_of_walk {xs : List (List Char)} (hnone : s.childOf p name = none)
    (h : s.walk d xs = some c) : s.walkNew p name (some d) xs = some (some c) := by
  have hchild : ∀ {d x c}, s.childOf d x = some c → s.childNew p name d x = some (some c) := by
    intro d x c h
    rw [childNew, if_neg, h]
    · rfl
    · rintro ⟨rfl, rfl⟩
      rw [hnone] at h
      cases h
  induction xs generalizing d with
  | nil =>
    obtain rfl : d = c := by simpa [walk] using h
    rfl
  | cons x xs ih =>
    simp only [walk, List.foldlM_cons, Option.bind_eq_bind, Option.bind_eq_some_iff] at h
    obtain ⟨m, hm, hc⟩ := h
    have hstep : s.walkNewStep p name (some d) x = some (some m) := by
      rw [walkStep] at hm
      rw [walkNewStep]
      split_ifs at hm ⊢
      · obtain rfl := Option.some.inj hm; rfl
      · obtain rfl := Option.some.inj hm; rfl
      · exact hchild hm
      · exact hchild hm
    rw [walkNew, List.foldlM_cons, hstep]
    exact ih hc

/-- A walk that comes out at the new node fails as long as the node is not there. -/
theorem walk_of_walkNew {xs : List (List Char)} (hnone : s.childOf p name = none)
    (h : s.walkNew p name (some d) xs = some none) : s.walk d xs = none := by
  cases hw : s.walk d xs with
  | none => rfl
  | some c =>
    rw [walkNew_of_walk hnone hw] at h
    cases h

theorem childOf_dir (h : (s.node d).type = .dir) (x : List Char) :
    s.childOf d x = (s.kids d).find? fun c => s.nameOf c = x := by
  rw [childOf, if_neg (by simp [h])]
  rfl

theorem childOf_file (h : (s.node d).type = .file) (x : List Char) : s.childOf d x = none := by
  rw [childOf, if_pos (by simp [h])]

theorem Wf.walkNewStep_lt (W : Wf s) (hp : p < s.next) {cur : Option Nat}
    (hcur : ∀ d, cur = some d → d < s.next) {x : List Char}
    (h : s.walkNewStep p name cur x = some (some c)) : c < s.next := by
  have hchild : ∀ {d x c}, s.childNew p name d x = some (some c) → c < s.next := by
    intro d x c h
    rw [childNew] at h
    split at h
    · cases h
    · obtain ⟨e, hm, he⟩ := Option.map_eq_some_iff.mp h
      obtain rfl := Option.some.inj he
      exact W.kid_lt (childOf_eq_some hm).2.1
  unfold walkNewStep at h
  split_ifs at h
  · exact hcur c (Option.some.inj h)
  · cases cur with
    | none => obtain rfl := Option.some.inj (Option.some.inj h); exact hp
    | some d =>
      obtain rfl := Option.some.inj (Option.some.inj h)
      cases hpar : (s.node d).parent with
      | none => exact hcur d rfl
      | some q => exact W.par_lt_next (hcur d rfl) hpar
  · exact hchild h
  · cases cur with
    | none => cases h
    | some d => exact hchild h

theorem Wf.walkNew_lt (W : Wf s) (hp : p < s.next) {cur : Option Nat}
    (hcur : ∀ d, cur = some d → d < s.next) {xs : List (List Char)}
    (h : s.walkNew p name cur xs = some (some c)) : c < s.next := by
  induction xs generalizing cur with
  | nil => exact hcur c (Option.some.inj h)
  | cons x xs ih =>
    rw [walkNew, List.foldlM_cons] at h
    obtain ⟨cur', hstep, h⟩ := Option.bind_eq_some_iff.mp h
    refine ih (fun d hd => ?_) h
    subst hd
    exact W.walkNewStep_lt hp hcur hstep

namespace Made

theorem childOf (M : Made s s' p t name true) (W : Wf s) (hp : p < s.next)
    (hd : (s.node p).type = .dir) (hlen : name.length < VFS_NAME_MAX)
    (hnone : s.childOf p name = none) (hdn : d < s.next) (x : List Char) :
    s'.childOf d x = (s.childNew p name d x).map (·.getD s.next) := by
  have hold : ((s.kids d).find? fun c => s'.nameOf c = x) =
      (s.kids d).find? fun c => s.nameOf c = x :=
    List.find?_congr fun c hc => by rw [M.nameOf (W.kid_ne_next hc)]
  have htype := M.type (Nat.ne_of_lt hdn)
  rw [childNew]
  rcases eq_or_ne d p with rfl | hne
  · rw [childOf_dir (htype.trans hd), M.kids_eq (Nat.ne_of_lt hp) W.kids_next,
      Function.update_self, List.find?_append, hold, ← childOf_dir hd x]
    rcases eq_or_ne x name with rfl | hx
    · simp [hnone, M.nameOf_new hlen]
    · have hx' : s'.nameOf s.next ≠ x := by rw [M.nameOf_new hlen]; exact hx.symm
      cases s.childOf d x <;> simp [hx, hx']
  · have hmap : ∀ o : Option Nat, (o.map some).map (·.getD s.next) = o := fun o => by
      cases o <;> rfl
    rw [if_neg (fun h => hne h.1), hmap]
    cases hdir : (s.node d).type with
    | file => rw [childOf_file (htype.trans hdir), childOf_file hdir]
    | dir =>
      rw [childOf_dir (htype.trans hdir), childOf_dir hdir, M.kids_old (Nat.ne_of_lt hdn) hne, hold]

theorem walkStep (M : Made s s' p t name true) (W : Wf s) (hp : p < s.next)
    (hd : (s.node p).type = .dir) (hlen : name.length < VFS_NAME_MAX)
    (hnone : s.childOf p name = none) {cur : Option Nat} (hcur : ∀ d, cur = some d → d < s.next)
    (x : List Char) :
    s'.walkStep (cur.getD s.next) x = (s.walkNewStep p name cur x).map (·.getD s.next) := by
  unfold walkNewStep
  rw [Vfs.walkStep, M.root]
  split_ifs
  · rfl
  · cases cur with
    | none =>
      have hpar : (s'.node s.next).parent = some p := congrArg Vnode.parent M.new
      simp [hpar]
    | some d =>
      have hpar : (s'.node d).parent = (s.node d).parent := M.par (Nat.ne_of_lt (hcur d rfl))
      simp [hpar]
  · exact M.childOf W hp hd hlen hnone W.root_lt _
  · cases cur with
    | none =>
      have hk : (s'.node s.next).children = [] := M.kids_new
      simp [Vfs.childOf, hk]
    | some d => exact M.childOf W hp hd hlen hnone (hcur d rfl) x

theorem walk (M : Made s s' p t name true) (W : Wf s) (hp : p < s.next)
    (hd : (s.node p).type = .dir) (hlen : name.length < VFS_NAME_MAX)
    (hnone : s.childOf p name = none) {cur : Option Nat} (hcur : ∀ d, cur = some d → d < s.next)
    (xs : List (List Char)) :
    s'.walk (cur.getD s.next) xs = (s.walkNew p name cur xs).map (·.getD s.next) := by
  induction xs generalizing cur with
  | nil => rfl
  | cons x xs ih =>
    have hstep := M.walkStep W hp hd hlen hnone hcur x
    rw [Vfs.walk, walkNew, List.foldlM_cons, List.foldlM_cons, hstep]
    cases hc : s.walkNewStep p name cur x with
    | none => rfl
    | some cur' =>
      refine ih fun d hd' => ?_
      subst hd'
      exact W.walkNewStep_lt hp hcur hc

end Made

/-! ## The answer of the call -/

/-- There is memory for a node and for its entry in the directory. -/
def room (s : Vfs) (p : Nat) : Bool :=
  match s.ram.kzalloc SIZEOF_VNODE with
  | (none, _) => false
  | (some _, ram) =>
    let v := s.node p
    v.children.length < v.childCap ∨
      (ram.kmalloc ((if v.childCap ≠ 0 then v.childCap * 2 else 8) * SIZEOF_PTR)).1.isSome

/-- The parent directory is there, the name is free, and there is memory. -/
def Creates (s : Vfs) (path : List Char) : Prop :=
  ∃ p, (s.vfsResolveParent path).1 = some p ∧ (s.node p).type = .dir ∧
    (s.vfsResolveParent path).2 ≠ [] ∧ s.childOf p (s.vfsResolveParent path).2 = none ∧
    s.room p = true

/-- What follows the parent directory in the path leads to the new node. -/
def NamesNew (s : Vfs) (path : List Char) : Prop :=
  ((s.vfsResolveParent path).1.bind fun p => s.walkNew p (s.vfsResolveParent path).2 (some p)
    (components (pathTail path))) = some none

theorem makeNode_addChild (hp : p < s.next) (t : FsType) (name : List Char) :
    (∃ ram, s.makeNode t name (some p) = (none, { s with ram }) ∧ s.room p = false) ∨
      ∃ s₁, s.makeNode t name (some p) = (some s.next, s₁) ∧
        (s₁.addChild p s.next).1 = s.room p := by
  rw [makeNode, room]
  rcases s.ram.kzalloc SIZEOF_VNODE with ⟨_ | a, ram⟩
  · exact .inl ⟨ram, rfl, rfl⟩
  · refine .inr ⟨_, rfl, ?_⟩
    rw [addChild]
    simp only [Function.update_of_ne (Nat.ne_of_lt hp)]
    rcases Nat.lt_or_ge (s.node p).children.length (s.node p).childCap with h | h
    · rw [if_neg (Nat.not_le.mpr h)]
      simp [h]
    · rw [if_pos h]
      rcases ram.kmalloc ((if (s.node p).childCap ≠ 0 then (s.node p).childCap * 2 else 8) *
        SIZEOF_PTR) with ⟨_ | b, ram'⟩ <;> simp [Nat.not_lt.mpr h]

/-- A call that stays inside its name buffer answers 1 exactly when it creates. -/
theorem vfsMknode_answer (W : Wf s) (h : s.vfsMknode t path = some (b, s')) :
    b = true ↔ s.Creates path := by
  rw [vfsMknode] at h
  simp only at h
  split at h
  · cases h
  have hfalse : ∀ {s₁ : Vfs}, some (false, s₁) = some (b, s') → ¬ s.Creates path →
      (b = true ↔ s.Creates path) := by
    intro s₁ h hc
    obtain ⟨rfl, -⟩ := Prod.mk.inj (Option.some.inj h)
    exact iff_of_false (by simp) hc
  rcases hr : s.vfsResolveParent path with ⟨_ | p, name⟩ <;> simp only [hr] at h
  · refine hfalse h ?_
    rintro ⟨p, hp, -⟩
    rw [hr] at hp
    cases hp
  have hpn := W.vfsResolveParent_lt hr
  have hc : s.Creates path ↔ (s.node p).type = .dir ∧ name ≠ [] ∧ s.childOf p name = none ∧
      s.room p = true := by
    constructor
    · rintro ⟨q, hq, h'⟩
      rw [hr] at hq h'
      obtain rfl := Option.some.inj hq
      exact h'
    · intro h'
      exact ⟨p, by rw [hr], by rw [hr]; exact h'⟩
  split at h
  · rename_i hd
    exact hfalse h fun h' => hd (hc.mp h').1
  split at h
  · rename_i hd hname
    refine hfalse h fun h' => ?_
    obtain ⟨-, hne, hnone, -⟩ := hc.mp h'
    rcases hname with hname | hname
    · exact hne hname
    · rw [hnone] at hname; cases hname
  · rename_i hd hname
    rw [not_or, Option.not_isSome_iff_eq_none] at hname
    rcases makeNode_addChild hpn t name with ⟨ram, hm, hroom⟩ | ⟨s₁, hm, hroom⟩
    · rw [hm] at h
      refine hfalse h fun h' => ?_
      have := (hc.mp h').2.2.2
      rw [hroom] at this
      cases this
    · rw [hm] at h
      have hb : (s₁.addChild p s.next).1 = b := congrArg Prod.fst (Option.some.inj h)
      rw [hc, ← hb, hroom]
      exact ⟨fun h => ⟨by simpa using hd, hname.1, hname.2, h⟩, fun h => h.2.2.2⟩

/-- The parent directory is found again after the call. -/
theorem Made.vfsResolveParent (M : Made s s' p t name true) (W : Wf s)
    (hd : (s.node p).type = .dir) (hlen : name.length < VFS_NAME_MAX)
    (hnone : s.childOf p name = none) (hr : s.vfsResolveParent path = (some p, name)) :
    (s'.vfsResolveParent path).1 = some p := by
  have hp := W.vfsResolveParent_lt hr
  -- what resolves before resolves to the same node after
  have hmono : ∀ {q : List Char} {c : Nat}, s.vfsResolve q = some c → s'.vfsResolve q = some c := by
    intro q c h
    rw [vfsResolve] at h ⊢
    rw [M.root, M.cwd]
    have hstart : (if q.head? = some '/' then s.root else s.cwd) < s.next := by
      split
      · exact W.root_lt
      · exact W.cwd_lt
    generalize (if q.head? = some '/' then s.root else s.cwd) = start at h hstart
    have hcur : ∀ d, some start = some d → d < s.next := fun d hd => Option.some.inj hd ▸ hstart
    have hw := M.walk W hp hd hlen hnone hcur (components q)
    rw [walkNew_of_walk hnone h] at hw
    exact hw
  rw [Vfs.vfsResolveParent] at hr ⊢
  simp only at hr ⊢
  cases hs : strrchr (path.take (PATH_MAX - 1)) '/' with
  | none =>
    rw [hs] at hr
    rw [M.cwd]
    exact congrArg Prod.fst hr
  | some slash =>
    rw [hs] at hr
    simp only [M.root]
    have h1 := congrArg Prod.fst hr
    simp only at h1
    split at h1 <;> rename_i h0
    · rw [if_pos h0]; exact h1
    · rw [if_neg h0]; exact hmono h1

/-- A call that creates: what the path resolves to in the tree with the new node. -/
theorem Made.vfsResolve (M : Made s s' p t name true) (W : Wf s)
    (hd : (s.node p).type = .dir) (hlen : name.length < VFS_NAME_MAX)
    (hnone : s.childOf p name = none) (hr : s.vfsResolveParent path = (some p, name)) :
    s'.vfsResolve path =
      (s.walkNew p name (some p) (components (pathTail path))).map (·.getD s.next) := by
  have hp := W.vfsResolveParent_lt hr
  rw [vfsResolve_eq_walk, M.vfsResolveParent W hd hlen hnone hr]
  have hcur : ∀ d, some p = some d → d < s.next := fun d hd => Option.some.inj hd ▸ hp
  exact M.walk W hp hd hlen hnone hcur _

/-- For a path that is not cut off, the names that `vfs_resolve` reads in its own way are the ones
that do not name the new node. -/
theorem namesNew_iff (hlen : path.length < PATH_MAX)
    (hname : (s.vfsResolveParent path).2.length < VFS_NAME_MAX)
    (hp : (s.vfsResolveParent path).1 = some p) :
    s.NamesNew path ↔ pathTail path ∉ [[], ['.'], ['.', '.'], ['~']] := by
  obtain ⟨hslash, htail⟩ := pathTail_of_resolveParent (s := s) hlen
  rw [NamesNew, hp, Option.bind_some]
  generalize pathTail path = tail at hslash htail
  generalize (s.vfsResolveParent path).2 = name at hname htail
  have hstep : tail ≠ [] → name = tail ∧ components tail = [tail] := by
    intro hne
    rcases htail with rfl | ⟨h, -⟩
    · exact ⟨rfl, components_name hne hslash hname⟩
    · exact absurd h hne
  have hone : ∀ x, s.walkNew p name (some p) [x] = s.walkNewStep p name (some p) x := fun x => by
    rw [walkNew, List.foldlM_cons]
    cases s.walkNewStep p name (some p) x <;> rfl
  have hold : ∀ d x, x ≠ name → s.childNew p name d x ≠ some none := by
    intro d x hx h
    rw [childNew, if_neg (fun h => hx h.2)] at h
    cases hc : s.childOf d x <;> rw [hc] at h <;> cases h
  constructor
  · intro h hmem
    simp only [List.mem_cons, List.not_mem_nil, or_false] at hmem
    rcases hmem with rfl | rfl | rfl | rfl
    · cases h
    · obtain ⟨-, hcomp⟩ := hstep (by simp)
      rw [hcomp, hone] at h
      cases h
    · obtain ⟨-, hcomp⟩ := hstep (by simp)
      rw [hcomp, hone] at h
      cases h
    · obtain ⟨rfl, hcomp⟩ := hstep (by simp)
      rw [hcomp, hone] at h
      exact hold s.root ['r', 'o', 'o', 't'] (by decide) h
  · intro hmem
    simp only [List.mem_cons, List.not_mem_nil, or_false, not_or] at hmem
    obtain ⟨hne, hdot, hdots, htilde⟩ := hmem
    obtain ⟨rfl, hcomp⟩ := hstep hne
    rw [hcomp, hone]
    unfold walkNewStep
    rw [if_neg hdot, if_neg hdots, if_neg htilde]
    simp only [childNew, and_self, if_true]

end Vfs

/-- What a caller of `vfs_mkdir` or `vfs_mkfile` expects of the call. -/
def CreateOk (s : Vfs) (t : FsType) (path : List Char) : Prop :=
  ∃ b s', s.vfsMknode t path = some (b, s') ∧
    (b = true → s.vfsResolve path = none ∧
      ∃ n, s'.vfsResolve path = some n ∧ s.next ≤ n ∧ n < s'.next ∧ (s'.node n).type = t ∧
        s'.kids n = [] ∧ s'.contents n = []) ∧
    (b = false → (∀ n, s'.InTree n ↔ s.InTree n) ∧
      ∀ n < s.next, (s'.node n).type = (s.node n).type ∧ s'.nameOf n = s.nameOf n ∧
        s'.kids n = s.kids n ∧ s'.contents n = s.contents n)

variable {s s' : Vfs} {t : FsType} {path : List Char}

/-- A call that creates does what is expected of it when the path leads to the new node. -/
theorem CreateOk.of_creates (h : Reachable s)
    (hlen : (s.vfsResolveParent path).2.length < VFS_NAME_MAX) (hc : s.Creates path) :
    CreateOk s t path ↔ s.NamesNew path := by
  have W := h.wf
  obtain ⟨⟨b, s'⟩, hs⟩ := Option.isSome_iff_exists.mp ((FsOp.vfsMknode_isSome s t path).mpr hlen)
  have hb := (Vfs.vfsMknode_answer W hs).mpr hc
  subst hb
  rcases Vfs.vfsMknode_cases hs with ⟨hb, -⟩ | ⟨p, name, hr, -, hd, hne, hnone, hcase⟩
  · cases hb
  rcases hcase with ⟨hb, -⟩ | ⟨n, s₁, hm, ha⟩
  · cases hb
  have hp := W.vfsResolveParent_lt hr
  rw [hr] at hlen
  obtain ⟨rfl, M⟩ := Vfs.made hp (W.cap p) hm ha
  have hres := M.vfsResolve W hd hlen hnone hr
  have hnew : s.NamesNew path ↔
      s.walkNew p name (some p) (components (Vfs.pathTail path)) = some none := by
    rw [Vfs.NamesNew, hr]; rfl
  rw [hnew]
  constructor
  · rintro ⟨_, _, hs', htrue, -⟩
    obtain ⟨rfl, rfl⟩ := Prod.mk.inj (Option.some.inj (hs.symm.trans hs'))
    obtain ⟨-, m, hm', hge, -⟩ := htrue rfl
    rw [hres] at hm'
    obtain ⟨o, ho, hom⟩ := Option.map_eq_some_iff.mp hm'
    cases o with
    | none => exact ho
    | some d =>
      have := W.walkNew_lt hp (fun e he => Option.some.inj he ▸ hp) ho
      simp only [Option.getD_some] at hom
      omega
  · intro hw
    refine ⟨true, s', hs, fun _ => ⟨?_, s.next, ?_, Nat.le_refl _, ?_, ?_, M.kids_new, ?_⟩,
      fun hb => by cases hb⟩
    · rw [Vfs.vfsResolve_eq_walk, hr]
      exact Vfs.walk_of_walkNew hnone hw
    · rw [hres, hw]; rfl
    · rw [M.next]; exact Nat.lt_succ_self _
    · rw [M.new]; rfl
    · exact Vfs.contents_nil (congrArg Vnode.data M.new)

/-- A call that answers 0 leaves the tree, the names and the contents alone. -/
theorem vfsMknode_refused (h : Reachable s) (hs : s.vfsMknode t path = some (false, s')) :
    (∀ n, s'.InTree n ↔ s.InTree n) ∧
      ∀ n < s.next, (s'.node n).type = (s.node n).type ∧ s'.nameOf n = s.nameOf n ∧
        s'.kids n = s.kids n ∧ s'.contents n = s.contents n := by
  have W := h.wf
  have B := h.heapOk.toBuffers
  have hcont := (B.vfsMknode hs).contents B
  rcases Vfs.vfsMknode_cases hs with ⟨-, rfl⟩ | ⟨p, name, hr, hlen, hd, hne, hnone, hcase⟩
  · exact ⟨fun _ => Iff.rfl, fun _ _ => ⟨rfl, rfl, rfl, rfl⟩⟩
  rcases hcase with ⟨-, ram, -, rfl⟩ | ⟨n, s₁, hm, ha⟩
  · exact ⟨fun _ => Iff.rfl, fun n _ => ⟨rfl, rfl, rfl, congrFun hcont n⟩⟩
  · have hp := W.vfsResolveParent_lt hr
    obtain ⟨-, M⟩ := Vfs.made hp (W.cap p) hm ha
    -- the node was handed out, but it hangs nowhere
    have hkids : s'.kids = s.kids := by
      rw [M.kids_eq (Nat.ne_of_lt hp) W.kids_next]
      simp
    refine ⟨fun n => by rw [Vfs.InTree, Vfs.InTree, hkids, M.root], fun n hn => ?_⟩
    have hne := Nat.ne_of_lt hn
    exact ⟨M.type hne, M.nameOf hne, congrFun hkids n, congrFun hcont n⟩

theorem createOk_iff_namesNew (h : Reachable s) (t : FsType) (path : List Char) :
    CreateOk s t path ↔ (s.vfsResolveParent path).2.length < VFS_NAME_MAX ∧
      (s.Creates path → s.NamesNew path) := by
  constructor
  · intro hok
    have hlen : (s.vfsResolveParent path).2.length < VFS_NAME_MAX := by
      obtain ⟨b, s', hs, -⟩ := hok
      exact (FsOp.vfsMknode_isSome s t path).mp (by rw [hs]; rfl)
    exact ⟨hlen, fun hc => (CreateOk.of_creates h hlen hc).mp hok⟩
  · rintro ⟨hlen, hnew⟩
    obtain ⟨⟨b, s'⟩, hs⟩ :=
      Option.isSome_iff_exists.mp ((FsOp.vfsMknode_isSome s t path).mpr hlen)
    cases b with
    | true =>
      have hc := (Vfs.vfsMknode_answer h.wf hs).mp rfl
      exact (CreateOk.of_creates h hlen hc).mpr (hnew hc)
    | false => exact ⟨false, s', hs, fun hb => (by cases hb), fun _ => vfsMknode_refused h hs⟩

/-- `vfs_mkdir` and `vfs_mkfile` do what their callers expect exactly when the last component fits
the name buffer and, if a node is created, the path leads to it. A path of up to 1023 bytes does
unless its last component is empty, `.`, `..` or `~`. -/
theorem createOk_iff (h : Reachable s) (t : FsType) (path : List Char) :
    (CreateOk s t path ↔ (s.vfsResolveParent path).2.length < VFS_NAME_MAX ∧
      (s.Creates path → s.NamesNew path)) ∧
    (path.length < PATH_MAX → (CreateOk s t path ↔
      (s.vfsResolveParent path).2.length < VFS_NAME_MAX ∧
        (s.Creates path → Vfs.pathTail path ∉ [[], ['.'], ['.', '.'], ['~']]))) := by
  have key := createOk_iff_namesNew h t path
  refine ⟨key, fun hlen => key.trans (and_congr_right fun hname => ?_)⟩
  refine forall_congr' fun hc => ?_
  obtain ⟨p, hp, -⟩ := hc
  exact Vfs.namesNew_iff hlen hname hp

/-- `mkdir /tmp/d` in the initial state. -/
theorem createOk_tmp : CreateOk bootVfs .dir "/tmp/d".toList := by
  apply ((createOk_iff bootVfs_reachable .dir "/tmp/d".toList).2 (by decide)).mpr
  rw [bootVfs_spelled]
  exact ⟨by decide +kernel, fun _ => by decide +kernel⟩

/-- `mkdir .` makes a directory called `.`, while the path names the working directory. -/
theorem mkdir_dot_not_ok : ¬ ∀ s t path, Reachable s → CreateOk s t path := by
  intro h
  obtain ⟨b, s', hs, htrue, -⟩ := h bootVfs .dir ['.'] bootVfs_reachable
  have hfst : (bootVfs.vfsMknode .dir ['.']).map Prod.fst = some true := by
    rw [bootVfs_spelled]
    decide +kernel
  have hb : b = true := by rw [hs] at hfst; exact Option.some.inj hfst
  have hnone := (htrue hb).1
  have hsome : (bootVfs.vfsResolve ['.']).isSome := by
    rw [bootVfs_spelled]
    decide +kernel
  rw [hnone] at hsome
  cases hsome

end BojanOS
