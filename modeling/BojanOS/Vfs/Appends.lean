import BojanOS.Vfs.Lookup

/-!
# Appending byte by byte

`out_raw` appends one byte at a time and drops the answer. `grants` says which of `k` such calls in
a row get their byte in; it depends on the size and the capacity of the file and on the allocator,
not on the bytes.

`Running` are the states of the filesystem while other code allocates as well: operations alternate
with requests by others, who write to their own blocks only.
-/

namespace BojanOS

/-- The bytes whose verdict is true. -/
def stored : List Char → List Bool → List Char
  | c :: s, b :: v => if b then c :: stored s v else stored s v
  | _, _ => []

theorem stored_sublist (s : List Char) (v : List Bool) : (stored s v).Sublist s := by
  induction s generalizing v with
  | nil => exact .slnil
  | cons c s ih =>
    cases v with
    | nil => exact List.nil_sublist _
    | cons b v =>
      cases b with
      | true => exact (ih v).cons_cons c
      | false => exact (ih v).cons c

theorem stored_eq_self {s : List Char} {v : List Bool} (h : v.length = s.length) :
    stored s v = s ↔ ∀ b ∈ v, b = true := by
  induction s generalizing v with
  | nil =>
    obtain rfl : v = [] := List.length_eq_zero_iff.mp h
    exact iff_of_true rfl fun b hb => (by cases hb)
  | cons c s ih =>
    cases v with
    | nil => cases h
    | cons b v =>
      have ih := ih (Nat.succ.inj h)
      cases b with
      | true =>
        rw [stored, if_pos rfl, List.cons_inj_right, ih, List.forall_mem_cons]
        exact ⟨fun h => ⟨rfl, h⟩, fun h => h.2⟩
      | false =>
        rw [stored, if_neg (by decide)]
        refine iff_of_false (fun h => ?_) (fun h => ?_)
        · have hle := (stored_sublist s v).length_le
          rw [h, List.length_cons] at hle
          omega
        · exact absurd (h false (List.mem_cons_self ..)) (by decide)

namespace Ram

/-- The answer of a request does not depend on the bytes. -/
theorem kmalloc_congr {r r' : Ram} (hh : r.heap = r'.heap) (hd : r.deny = r'.deny) (n : Nat) :
    (r.kmalloc n).1 = (r'.kmalloc n).1 ∧ (r.kmalloc n).2.heap = (r'.kmalloc n).2.heap ∧
      (r.kmalloc n).2.deny = (r'.kmalloc n).2.deny := by
  rw [kmalloc, kmalloc, hh, hd]
  split
  · exact ⟨rfl, rfl, rfl⟩
  · exact ⟨rfl, rfl, rfl⟩

/-- Requests were served, the end of the heap is where it was, and only what was free has other
bytes. -/
structure Grew (r r' : Ram) : Prop where
  ok : r'.Ok
  total : r'.total = r.total
  used : r.heap.used ≤ r'.heap.used
  mem : ∀ a < r.heap.used, r'.mem a = r.mem a

namespace Grew

theorem refl {r : Ram} (h : r.Ok) : Grew r r :=
  ⟨h, rfl, Nat.le_refl _, fun _ _ => rfl⟩

theorem trans {r r₁ r' : Ram} (H : Grew r r₁) (H' : Grew r₁ r') : Grew r r' where
  ok := H'.ok
  total := H'.total.trans H.total
  used := H.used.trans H'.used
  mem a ha := (H'.mem a (Nat.lt_of_lt_of_le ha H.used)).trans (H.mem a ha)

theorem kmalloc {r : Ram} (h : r.Ok) {n : Nat} (hn : n ≤ 2 ^ 63) : Grew r (r.kmalloc n).2 := by
  obtain ⟨hok, hmem, hused, -⟩ := kmalloc_spec h hn
  exact ⟨hok, r.kmalloc_total n, hused, fun a _ => congrFun hmem a⟩

end Grew

/-- All but the last bytes of the heap are taken. -/
def fill (r : Ram) (left : Nat) : Ram :=
  { r with heap := { r.heap with used := r.heap.total - left } }

theorem Grew.fill {r : Ram} (h : r.Ok) {left : Nat} (hl : r.heap.used + left ≤ r.heap.total) :
    Grew r (r.fill left) :=
  ⟨⟨Nat.sub_le _ _, h.total_le⟩, rfl, Nat.le_sub_of_add_le hl, fun _ _ => rfl⟩

end Ram

namespace Vfs

variable {s s' : Vfs} {n k : Nat}

/-- The answers of `k` calls of `vfs_append_file` with one byte, to a file with the size and the
capacity of `v`. -/
def grants : Nat → Vnode → Ram → List Bool
  | 0, _, _ => []
  | k + 1, v, r =>
    let need := v.size + 1 + 1
    if v.cap < need then
      match r.kmalloc (newCap v need) with
      | (none, r) => false :: grants k v r
      | (some _, r) => true :: grants k { v with size := v.size + 1, cap := newCap v need } r
    else true :: grants k { v with size := v.size + 1 } r

theorem length_grants (k : Nat) (v : Vnode) (r : Ram) : (grants k v r).length = k := by
  induction k generalizing v r with
  | zero => rfl
  | succ k ih =>
    rw [grants]
    split
    · split
      · rw [List.length_cons, ih]
      · rw [List.length_cons, ih]
    · rw [List.length_cons, ih]

theorem grants_congr {v v' : Vnode} {r r' : Ram} (hs : v.size = v'.size) (hc : v.cap = v'.cap)
    (hh : r.heap = r'.heap) (hd : r.deny = r'.deny) (k : Nat) : grants k v r = grants k v' r' := by
  induction k generalizing v v' r r' with
  | zero => rfl
  | succ k ih =>
    have hcap : newCap v (v.size + 1 + 1) = newCap v' (v'.size + 1 + 1) := by
      rw [newCap, newCap, hs, hc]
    obtain ⟨hp, hh', hd'⟩ := Ram.kmalloc_congr hh hd (newCap v' (v'.size + 1 + 1))
    rw [grants, grants]
    simp only [hcap]
    rw [hs, hc]
    split
    · rcases hk : r.kmalloc (newCap v' (v'.size + 1 + 1)) with ⟨o, r₁⟩
      rcases hk' : r'.kmalloc (newCap v' (v'.size + 1 + 1)) with ⟨o', r₁'⟩
      rw [hk, hk'] at hp hh' hd'
      obtain rfl : o = o' := hp
      cases o with
      | none =>
        simp only
        exact congrArg _ (ih hs hc hh' hd')
      | some p =>
        simp only
        exact congrArg _ (ih rfl rfl hh' hd')
    · exact congrArg _ (ih rfl rfl hh hd)

/-- One byte. -/
theorem HeapOk.appendByte (H : HeapOk s) (hn : n < s.next) (hf : (s.node n).type = .file)
    (c : Char) (k : Nat) :
    ∃ b s', s.vfsAppendFile n (.ext [c]) 1 = (b, s') ∧ HeapOk s' ∧ s.SameTree s' ∧
      s'.contents = Function.update s.contents n (s.contents n ++ if b then [c] else []) ∧
      grants (k + 1) (s.node n) s.ram = b :: grants k (s'.node n) s'.ram := by
  rcases hr : s.vfsAppendFile n (.ext [c]) 1 with ⟨b, s'⟩
  obtain ⟨H', hc⟩ := H.vfsAppendFile (show s.Sound 1 (.ext [c]) from trivial) (by decide) hn hr
  have S : s.SameTree s' := by
    have hs := s.vfsAppendFile_sameTree n (.ext [c]) 1
    rwa [hr] at hs
  refine ⟨b, s', rfl, H', S, ?_, ?_⟩
  · rw [hc]
    cases b with
    | true => rfl
    | false => simp
  rw [Vfs.vfsAppendFile, if_neg (by simp [hf]), growFile] at hr
  rw [grants]
  rcases Nat.lt_or_ge (s.node n).cap ((s.node n).size + 1 + 1) with hlt | hge
  · -- the file has to grow
    rw [if_pos hlt] at hr ⊢
    rcases hk : s.ram.kmalloc (newCap (s.node n) ((s.node n).size + 1 + 1)) with ⟨_ | p, ram⟩ <;>
      rw [hk] at hr
    · obtain ⟨rfl, rfl⟩ := Prod.mk.inj hr
      rfl
    · obtain ⟨rfl, rfl⟩ := Prod.mk.inj hr
      simp only
      apply congrArg
      apply grants_congr
      · simp [storeFile, setNode]
      · simp [storeFile, setNode]
      · rfl
      · rfl
  · rw [if_neg (Nat.not_lt.mpr hge)] at hr ⊢
    cases hd : (s.node n).data with
    | none =>
      have := (H.noData hd).2
      omega
    | some d =>
      rw [hd] at hr
      obtain ⟨rfl, rfl⟩ := Prod.mk.inj hr
      apply congrArg
      apply grants_congr
      · simp [storeFile, setNode]
      · simp [storeFile, setNode]
      · rfl
      · rfl

/-- Whether a call creates is whether a directory gets a new entry. -/
theorem Wf.vfsMknode_kids (W : Wf s) {t : FsType} {path : List Char} {b : Bool}
    (h : s.vfsMknode t path = some (b, s')) : s'.kids = s.kids ↔ b = false := by
  rcases vfsMknode_cases h with ⟨rfl, rfl⟩ | ⟨p, name, hr, -, -, -, -, hcase⟩
  · exact iff_of_true rfl rfl
  rcases hcase with ⟨rfl, ram, -, rfl⟩ | ⟨n, s₁, hm, ha⟩
  · exact iff_of_true rfl rfl
  · have hp := W.vfsResolveParent_lt hr
    obtain ⟨-, M⟩ := Vfs.made hp (W.cap p) hm ha
    cases b with
    | false =>
      refine iff_of_true ?_ rfl
      rw [M.kids_eq (Nat.ne_of_lt hp) W.kids_next]
      simp
    | true =>
      refine iff_of_false (fun h => ?_) (by decide)
      have hk := M.kids_self
      rw [h] at hk
      simp at hk

end Vfs

/-! ## States of a running system -/

inductive Running : Vfs → Prop where
  | boot {s : Vfs} (h : Booted s) : Running s
  | op {s s' : Vfs} {op : FsOp} {b : Bool} (h : Running s) (hs : op.step s = some (b, s')) :
    Running s'
  | alloc {s : Vfs} {r : Ram} (h : Running s) (hr : s.ram.Grew r) : Running { s with ram := r }

namespace Running

variable {s : Vfs}

theorem wf (h : Running s) : s.Wf := by
  induction h with
  | boot h => exact h.wf
  | op h hs ih => exact FsOp.step_wf ih hs
  | alloc h hr ih => exact ih.ram _

theorem heapOk (h : Running s) : s.HeapOk := by
  induction h with
  | boot h => exact h.heapOk
  | op h hs ih => exact (FsOp.step_contents h.wf ih hs).1
  | alloc h hr ih => exact (ih.toBuffers.untouched_ram hr.ok hr.used hr.mem).heapOk ih

end Running

end BojanOS
