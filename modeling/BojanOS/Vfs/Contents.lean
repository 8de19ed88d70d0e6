import BojanOS.Vfs.Runs

/-!
# File contents over the bump heap

`HeapOk` is the invariant of the data buffers: each is a block of its own below `used`, holds its
bytes and their terminator, and a node without a buffer has size 0. Under it the operations on
contents act on `contents` as on a map from nodes to byte lists, whatever the source bytes alias,
and no other operation touches it; so the contents after a run are the replay of its record on the
abstract map (`FsOp.replay`).
-/

namespace BojanOS

/-! ## The growth loop -/

theorem growCap_bounds {k nc need : Nat} (hneed : need ≤ 2 ^ 63) (h : need ≤ nc * 2 ^ k) :
    need ≤ Vfs.growCap k nc need ∧ (Vfs.growCap k nc need = nc ∨
      Vfs.growCap k nc need ≤ 2 * need) := by
  induction k generalizing nc with
  | zero => exact ⟨by simpa [Vfs.growCap] using h, .inl rfl⟩
  | succ k ih =>
    rw [Vfs.growCap]
    split
    · rename_i hlt
      rw [Nat.mod_eq_of_lt (by omega)]
      have hk : need ≤ 2 * nc * 2 ^ k := by
        rwa [Nat.pow_succ, Nat.mul_comm _ 2, ← Nat.mul_assoc, Nat.mul_comm nc] at h
      obtain ⟨hle, hr⟩ := ih hk
      exact ⟨hle, .inr (hr.elim (fun he => by omega) id)⟩
    · rename_i hle
      exact ⟨Nat.not_lt.mp hle, .inl rfl⟩

/-- The bytes that a copy of `len` bytes reads. -/
def Src.bytes (mem : Nat → Char) (src : Src) (len : Nat) : List Char :=
  (List.range len).map (src.read mem)

theorem Src.bytes_ext (mem : Nat → Char) (bytes : List Char) :
    (Src.ext bytes).bytes mem bytes.length = bytes := by
  apply List.ext_getElem
  · simp [Src.bytes]
  · intro i _ hi
    simp [Src.bytes, Src.read, List.getElem?_eq_getElem hi]

theorem Src.bytes_heap (mem : Nat → Char) (addr len : Nat) :
    (Src.heap addr).bytes mem len = Arena.segment mem addr len := rfl

/-- The bytes of a segment that a copy has filled. -/
theorem segment_memcpy {dst n : Nat} {src : Src} {mem : Nat → Char} (h : src.Steady dst n) :
    Arena.segment (memcpy dst src n 0 mem) dst n = src.bytes mem n :=
  List.map_congr_left fun j hj => memcpy_inside (by rwa [Nat.zero_add]) (Nat.zero_le _)
    (by simpa using List.mem_range.mp hj)

namespace Vfs

variable {s s' s₁ : Vfs} {n m d off len need : Nat} {src : Src}

/-- The block that holds the data of a node. -/
def block (s : Vfs) (n : Nat) : Option Block := (s.node n).data.map (⟨·, (s.node n).cap⟩)

/-- The buffers, without what they hold. -/
structure Buffers (s : Vfs) : Prop where
  ram : s.ram.Ok
  arena : Arena s.block s.ram.heap.used
  room : ∀ {n d}, (s.node n).data = some d → (s.node n).size + 1 ≤ (s.node n).cap
  noData : ∀ {n}, (s.node n).data = none → (s.node n).size = 0 ∧ (s.node n).cap = 0
  fresh : ∀ {n}, s.next ≤ n → (s.node n).data = none
  dirs : ∀ {n}, (s.node n).type = .dir → (s.node n).data = none
  childCap : ∀ n, (s.node n).childCap ≤ 2 ^ 59

/-- The data of the node, if any, is terminated. -/
def Terminated (s : Vfs) (n : Nat) : Prop :=
  ∀ d, (s.node n).data = some d → s.ram.mem (d + (s.node n).size) = NUL

structure HeapOk (s : Vfs) : Prop extends Buffers s where
  terminated : ∀ n, s.Terminated n

theorem block_eq (h : (s.node n).data = some d) : s.block n = some ⟨d, (s.node n).cap⟩ := by
  rw [block, h]; rfl

theorem contents_eq (h : (s.node n).data = some d) :
    s.contents n = Arena.segment s.ram.mem d (s.node n).size := by rw [contents, h]

theorem contents_nil (h : (s.node n).data = none) : s.contents n = [] := by rw [contents, h]

namespace Buffers

theorem below (B : Buffers s) (h : (s.node n).data = some d) :
    d + (s.node n).cap ≤ s.ram.heap.used := B.arena.below (block_eq h)

theorem apart (B : Buffers s) {e : Nat} (hnm : n ≠ m) (hn : (s.node n).data = some d)
    (hm : (s.node m).data = some e) : d + (s.node n).cap ≤ e ∨ e + (s.node m).cap ≤ d :=
  B.arena.apart hnm (block_eq hn) (block_eq hm)

theorem length_contents (B : Buffers s) (n : Nat) : (s.contents n).length = (s.node n).size := by
  cases h : (s.node n).data with
  | none => rw [contents_nil h, (B.noData h).1]; rfl
  | some d => rw [contents_eq h, Arena.length_segment]

theorem size_le (B : Buffers s) (n : Nat) : (s.node n).size ≤ 2 ^ 60 := by
  cases h : (s.node n).data with
  | none => rw [(B.noData h).1]; omega
  | some d =>
    have := B.below h
    have := B.room h
    have := B.ram.used_le
    have := B.ram.total_le
    omega

end Buffers

/-! ## Operations that leave the buffers alone -/

/-- No buffer of `s` is moved, resized or written to on the way to `s'`. -/
structure Untouched (s s' : Vfs) : Prop where
  ram : s'.ram.Ok
  used : s.ram.heap.used ≤ s'.ram.heap.used
  mem : ∀ a < s.ram.heap.used, s'.ram.mem a = s.ram.mem a
  data : ∀ n, (s'.node n).data = (s.node n).data
  size : ∀ n, (s'.node n).size = (s.node n).size
  cap : ∀ n, (s'.node n).cap = (s.node n).cap
  next : s.next ≤ s'.next
  dirs : ∀ n, (s'.node n).type = .dir → (s.node n).data = none
  childCap : ∀ n, (s'.node n).childCap ≤ 2 ^ 59

namespace Untouched

theorem mem_eq (U : Untouched s s') (B : Buffers s) (h : (s.node n).data = some d) {i : Nat}
    (hi : i < (s.node n).cap) : s'.ram.mem (d + i) = s.ram.mem (d + i) :=
  U.mem _ (by have := B.below h; omega)

theorem contents (U : Untouched s s') (B : Buffers s) : s'.contents = s.contents := by
  funext n
  cases h : (s.node n).data with
  | none => rw [contents_nil h, contents_nil ((U.data n).trans h)]
  | some d =>
    rw [contents_eq h, contents_eq ((U.data n).trans h), U.size]
    have := B.room h
    exact Arena.segment_congr fun i hi => U.mem_eq B h (by omega)

theorem buffers (U : Untouched s s') (B : Buffers s) : Buffers s' where
  ram := U.ram
  arena := by
    have h : s'.block = s.block := funext fun n => by rw [block, block, U.data, U.cap]
    rw [h]
    exact B.arena.raise U.used
  room h := by rw [U.size, U.cap]; exact B.room (U.data _ ▸ h)
  noData h := by rw [U.size, U.cap]; exact B.noData (U.data _ ▸ h)
  fresh h := (U.data _).trans (B.fresh (U.next.trans h))
  dirs h := (U.data _).trans (U.dirs _ h)
  childCap := U.childCap

theorem terminated (U : Untouched s s') (B : Buffers s) (h : s.Terminated n) :
    s'.Terminated n := by
  intro d hd
  rw [U.data] at hd
  have := B.room hd
  rw [U.size, U.mem_eq B hd (by omega)]
  exact h d hd

theorem heapOk (U : Untouched s s') (H : HeapOk s) : HeapOk s' where
  toBuffers := U.buffers H.toBuffers
  terminated n := U.terminated H.toBuffers (H.terminated n)

end Untouched

/-- The heap moves on, the nodes stay. -/
theorem Buffers.untouched_ram (B : Buffers s) {r : Ram} (hr : r.Ok)
    (hu : s.ram.heap.used ≤ r.heap.used) (hm : ∀ a < s.ram.heap.used, r.mem a = s.ram.mem a) :
    Untouched s { s with ram := r } :=
  ⟨hr, hu, hm, fun _ => rfl, fun _ => rfl, fun _ => rfl, Nat.le_refl _, fun _ => B.dirs, B.childCap⟩

theorem Pruned.untouched (P : Pruned s s' n) (B : Buffers s) : Untouched s s' where
  ram := by rw [P.ram]; exact B.ram
  used := by rw [P.ram]
  mem _ _ := by rw [P.ram]
  data m := by rw [P.node]
  size m := by rw [P.node]
  cap m := by rw [P.node]
  next := P.next.ge
  dirs m := by rw [P.node]; exact B.dirs
  childCap m := by rw [P.node]; exact B.childCap m

theorem Buffers.makeNode (B : Buffers s) (t : FsType) (name : List Char) (p : Option Nat) :
    Untouched s (s.makeNode t name p).2 := by
  obtain ⟨hok, hmem, hused⟩ := Ram.kzalloc_spec B.ram (n := SIZEOF_VNODE) (by decide)
  rw [Vfs.makeNode]
  rcases hk : s.ram.kzalloc SIZEOF_VNODE with ⟨_ | a, ram⟩ <;> rw [hk] at hok hmem hused
  · exact B.untouched_ram hok hused hmem
  · have hnone := B.fresh (Nat.le_refl s.next)
    have hnode : ∀ m, Function.update s.node s.next (.fresh t name p) m =
        if m = s.next then .fresh t name p else s.node m := fun m => by
      rw [Function.update_apply]
    refine ⟨hok, hused, hmem, fun m => ?_, fun m => ?_, fun m => ?_, Nat.le_succ _, fun m => ?_,
      fun m => ?_⟩ <;> simp only [hnode] <;> split
    · rename_i h; subst h; exact hnone.symm
    · rfl
    · rename_i h; subst h; exact (B.noData hnone).1.symm
    · rfl
    · rename_i h; subst h; exact (B.noData hnone).2.symm
    · rfl
    · rename_i h; subst h; exact fun _ => hnone
    · exact B.dirs
    · exact Nat.zero_le _
    · exact B.childCap m

/-- A node gets new children. -/
theorem Buffers.setChildren (B : Buffers s) (p : Nat) {cap : Nat} (hcap : cap ≤ 2 ^ 59)
    (kids : List Nat) :
    Untouched s (s.setNode p { s.node p with childCap := cap, children := kids }) := by
  have hnode : ∀ m, Function.update s.node p { s.node p with childCap := cap, children := kids } m =
      if m = p then { s.node p with childCap := cap, children := kids } else s.node m := fun m => by
    rw [Function.update_apply]
  refine ⟨B.ram, Nat.le_refl _, fun _ _ => rfl, fun m => ?_, fun m => ?_, fun m => ?_,
    Nat.le_refl _, fun m => ?_, fun m => ?_⟩ <;> simp only [setNode, hnode] <;> split
  · rename_i h; subst h; rfl
  · rfl
  · rename_i h; subst h; rfl
  · rfl
  · rename_i h; subst h; rfl
  · rfl
  · rename_i h; subst h; exact B.dirs
  · exact B.dirs
  · exact hcap
  · exact B.childCap m

theorem Untouched.trans (U : Untouched s s₁) (V : Untouched s₁ s') : Untouched s s' where
  ram := V.ram
  used := U.used.trans V.used
  mem a ha := (V.mem a (Nat.lt_of_lt_of_le ha U.used)).trans (U.mem a ha)
  data n := (V.data n).trans (U.data n)
  size n := (V.size n).trans (U.size n)
  cap n := (V.cap n).trans (U.cap n)
  next := U.next.trans V.next
  dirs n h := (U.data n).symm.trans (V.dirs n h)
  childCap := V.childCap

theorem Buffers.addChild (B : Buffers s) (p c : Nat) : Untouched s (s.addChild p c).2 := by
  rw [Vfs.addChild]
  simp only
  have hc := B.childCap p
  split
  · have hcap : (if (s.node p).childCap ≠ 0 then (s.node p).childCap * 2 else 8) ≤ 2 ^ 60 := by
      split <;> omega
    obtain ⟨hok, hmem, hused, hp⟩ := Ram.kmalloc_spec B.ram
      (n := (if (s.node p).childCap ≠ 0 then (s.node p).childCap * 2 else 8) * SIZEOF_PTR)
      (by simp only [SIZEOF_PTR]; omega)
    rcases hk : s.ram.kmalloc ((if (s.node p).childCap ≠ 0 then (s.node p).childCap * 2 else 8) *
      SIZEOF_PTR) with ⟨_ | a, ram⟩ <;> rw [hk] at hok hmem hused hp
    · exact B.untouched_ram hok hused fun a _ => congrFun hmem a
    · have U := B.untouched_ram hok hused fun a _ => congrFun hmem a
      obtain ⟨rfl, hfit⟩ := hp a rfl
      have hok : ram.Ok := hok
      refine U.trans ((U.buffers B).setChildren p ?_ _)
      have := hok.used_le
      have := hok.total_le
      simp only [SIZEOF_PTR] at hfit
      omega
  · exact B.setChildren p (B.childCap p) _

theorem Buffers.vfsMknode (B : Buffers s) {t : FsType} {path : List Char} {b : Bool}
    (h : s.vfsMknode t path = some (b, s')) : Untouched s s' := by
  rcases vfsMknode_cases h with ⟨-, rfl⟩ | ⟨p, name, -, -, -, -, -, hcase⟩
  · exact B.untouched_ram B.ram (Nat.le_refl _) fun _ _ => rfl
  · have U := B.makeNode t name (some p)
    rcases hcase with ⟨-, ram, hm, rfl⟩ | ⟨n, s₁, hm, ha⟩
    · rwa [hm] at U
    · rw [hm] at U
      have V := (U.buffers B).addChild p n
      rw [ha] at V
      exact U.trans V

/-! ## Operations on contents -/

/-- Where the bytes of an operation come from: outside the heap, or the front of a file. -/
def Sound (s : Vfs) (len : Nat) : Src → Prop
  | .ext _ => True
  | .heap addr => ∃ m, (s.node m).data = some addr ∧ len ≤ (s.node m).size

theorem Buffers.newCap (B : Buffers s) (hneed : 0 < need ∧ need ≤ 2 ^ 62) :
    need ≤ Vfs.newCap (s.node n) need ∧ Vfs.newCap (s.node n) need ≤ 2 ^ 63 := by
  have hcap : (s.node n).cap ≤ 2 ^ 60 := by
    cases h : (s.node n).data with
    | none => rw [(B.noData h).2]; omega
    | some d =>
      have := B.below h
      have := B.ram.used_le
      have := B.ram.total_le
      omega
  rw [Vfs.newCap]
  generalize hnc : (if (s.node n).cap ≠ 0 then (s.node n).cap else 64) = nc
  have h1 : 1 ≤ nc ∧ nc ≤ 2 ^ 60 := by split at hnc <;> omega
  obtain ⟨hle, hr⟩ := growCap_bounds (k := 64) (show need ≤ 2 ^ 63 by omega)
    (show need ≤ nc * 2 ^ 64 by omega)
  exact ⟨hle, by omega⟩

/-- What the room-making half of a write can do. -/
theorem Buffers.growFile_cases (B : Buffers s) (n : Nat) (hneed : 0 < need ∧ need ≤ 2 ^ 62) :
    (∃ d, s.growFile n need = (some d, s) ∧ (s.node n).data = some d ∧
      need ≤ (s.node n).cap) ∨
    (∃ ram, s.growFile n need = (none, { s with ram }) ∧ Untouched s { s with ram }) ∨
    ∃ ram cap, Untouched s { s with ram } ∧ (s.node n).cap < need ∧ need ≤ cap ∧
      s.ram.heap.used + cap ≤ ram.heap.used ∧
      s.growFile n need = (some s.ram.heap.used,
        { s with ram := { ram with mem := moveData (s.node n) s.ram.heap.used ram.mem } }.setNode n
          { s.node n with data := some s.ram.heap.used, cap }) := by
  rw [growFile]
  simp only
  split
  · rename_i hgrow
    obtain ⟨hle, hlt⟩ := B.newCap (n := n) hneed
    obtain ⟨hok, hmem, hused, hp⟩ := Ram.kmalloc_spec B.ram hlt
    rcases hk : s.ram.kmalloc (Vfs.newCap (s.node n) need) with ⟨_ | a, ram⟩ <;>
      rw [hk] at hok hmem hused hp
    · exact .inr (.inl ⟨ram, rfl, B.untouched_ram hok hused fun a _ => congrFun hmem a⟩)
    · obtain ⟨rfl, hfit⟩ := hp a rfl
      exact .inr (.inr ⟨ram, _, B.untouched_ram hok hused fun a _ => congrFun hmem a, hgrow, hle,
        hfit, rfl⟩)
  · rename_i hcap
    cases h : (s.node n).data with
    | none =>
      have := (B.noData h).2
      omega
    | some d => exact .inl ⟨d, rfl, rfl, by omega⟩

/-- The node got the size `k`, and only bytes of its own buffer changed. -/
structure Rewritten (s s' : Vfs) (n k : Nat) : Prop where
  heap : s'.ram.heap = s.ram.heap
  next : s'.next = s.next
  self : s'.node n = { s.node n with size := k }
  other : ∀ m, m ≠ n → s'.node m = s.node m
  mem : ∀ a, (∀ d, (s.node n).data = some d → a < d ∨ d + (s.node n).cap ≤ a) →
    s'.ram.mem a = s.ram.mem a
  room : ∀ d, (s.node n).data = some d → k + 1 ≤ (s.node n).cap
  noData : (s.node n).data = none → k = 0
  terminated : s'.Terminated n

namespace Rewritten

variable {k : Nat}

theorem data (R : Rewritten s s' n k) (m : Nat) : (s'.node m).data = (s.node m).data := by
  rcases eq_or_ne m n with rfl | hm
  · rw [R.self]
  · rw [R.other m hm]

theorem cap (R : Rewritten s s' n k) (m : Nat) : (s'.node m).cap = (s.node m).cap := by
  rcases eq_or_ne m n with rfl | hm
  · rw [R.self]
  · rw [R.other m hm]

theorem mem_other (R : Rewritten s s' n k) (B : Buffers s) {e i : Nat} (hm : m ≠ n)
    (he : (s.node m).data = some e) (hi : i < (s.node m).cap) :
    s'.ram.mem (e + i) = s.ram.mem (e + i) := by
  refine R.mem _ fun d hd => ?_
  have := B.apart hm he hd
  omega

theorem contents_other (R : Rewritten s s' n k) (B : Buffers s) (hm : m ≠ n) :
    s'.contents m = s.contents m := by
  cases he : (s.node m).data with
  | none => rw [contents_nil he, contents_nil ((R.data m).trans he)]
  | some e =>
    have := B.room he
    rw [contents_eq he, contents_eq ((R.data m).trans he), R.other m hm]
    exact Arena.segment_congr fun i hi => R.mem_other B hm he (by omega)

theorem buffers (R : Rewritten s s' n k) (B : Buffers s) : Buffers s' where
  ram := ⟨by rw [R.heap]; exact B.ram.used_le, by rw [R.heap]; exact B.ram.total_le⟩
  arena := by
    have h : s'.block = s.block := funext fun m => by rw [block, block, R.data, R.cap]
    rw [h, R.heap]
    exact B.arena
  room {m e} he := by
    rw [R.data] at he
    rcases eq_or_ne m n with rfl | hm
    · rw [R.self]; exact R.room e he
    · rw [R.other m hm]; exact B.room he
  noData {m} hnone := by
    rw [R.data] at hnone
    rcases eq_or_ne m n with rfl | hm
    · rw [R.self]; exact ⟨R.noData hnone, (B.noData hnone).2⟩
    · rw [R.other m hm]; exact B.noData hnone
  fresh hm := (R.data _).trans (B.fresh (R.next ▸ hm))
  dirs {m} hm := by
    rw [R.data]
    rcases eq_or_ne m n with rfl | hmn
    · rw [R.self] at hm; exact B.dirs hm
    · rw [R.other m hmn] at hm; exact B.dirs hm
  childCap m := by
    rcases eq_or_ne m n with rfl | hm
    · rw [R.self]; exact B.childCap m
    · rw [R.other m hm]; exact B.childCap m

theorem heapOk (R : Rewritten s s' n k) (B : Buffers s) (hother : ∀ m, m ≠ n → s.Terminated m) :
    HeapOk s' where
  toBuffers := R.buffers B
  terminated m := by
    rcases eq_or_ne m n with rfl | hm
    · exact R.terminated
    · intro e he
      rw [R.data] at he
      have := B.room he
      rw [R.other m hm, R.mem_other B hm he (by omega)]
      exact hother m hm e he

end Rewritten

/-- What the copying half of a write needs: the buffer is large enough, the copy reads what was
there, and every other buffer is complete. -/
structure Ready (s : Vfs) (n d off len : Nat) (src : Src) : Prop where
  buffers : Buffers s
  data : (s.node n).data = some d
  fits : off + len + 1 ≤ (s.node n).cap
  steady : src.Steady (d + off) len
  others : ∀ m, m ≠ n → s.Terminated m

namespace Ready

theorem rewritten (R : Ready s n d off len src) :
    Rewritten s (s.storeFile n d off src len) n (off + len) where
  heap := rfl
  next := rfl
  self := Function.update_self _ _ _
  other m hm := Function.update_of_ne hm _ _
  mem a ha := by
    have := ha d R.data
    have := R.fits
    exact (Function.update_of_ne (by omega) _ _).trans (memcpy_outside (by omega))
  room _ _ := R.fits
  noData h := by rw [R.data] at h; cases h
  terminated e he := by
    have hself : (s.storeFile n d off src len).node n = { s.node n with size := off + len } :=
      Function.update_self _ _ _
    rw [hself] at he ⊢
    obtain rfl : d = e := Option.some.inj (R.data.symm.trans he)
    exact Function.update_self _ _ _

theorem contents (R : Ready s n d off len src) :
    (s.storeFile n d off src len).contents n =
      Arena.segment s.ram.mem d off ++ src.bytes s.ram.mem len := by
  rw [contents_eq ((R.rewritten.data n).trans R.data), R.rewritten.self, Arena.segment_add]
  have hupd : ∀ i < off + len, (s.storeFile n d off src len).ram.mem (d + i) =
      memcpy (d + off) src len 0 s.ram.mem (d + i) := fun i hi =>
    Function.update_of_ne (by omega) _ _
  congr 1
  · exact Arena.segment_congr fun i hi =>
      (hupd i (by omega)).trans (memcpy_outside (.inl (by omega)))
  · rw [← segment_memcpy R.steady]
    refine Arena.segment_congr fun i hi => ?_
    rw [Nat.add_assoc]
    exact hupd _ (by omega)

end Ready

/-- A source that the state knows, read by a copy into the buffer of a node: over its front, or
behind its bytes. -/
theorem Buffers.steady (B : Buffers s) (hsrc : s.Sound len src) (hd : (s.node n).data = some d)
    (hoff : off = 0 ∨ off = (s.node n).size) : src.Steady (d + off) len := by
  cases src with
  | ext bytes => trivial
  | heap addr =>
    obtain ⟨m, hm, hlen⟩ := hsrc
    have := B.room hm
    have := B.room hd
    rcases eq_or_ne m n with rfl | hne
    · obtain rfl : addr = d := Option.some.inj (hm.symm.trans hd)
      simp only [Src.Steady]
      omega
    · have := B.apart hne hm hd
      simp only [Src.Steady]
      omega

theorem Buffers.sound_lt (B : Buffers s) (hsrc : s.Sound len src) :
    ∀ addr, src = .heap addr → addr + len ≤ s.ram.heap.used := by
  rintro addr rfl
  obtain ⟨m, hm, hlen⟩ := hsrc
  have := B.below hm
  have := B.room hm
  omega

/-- There is room for `need` bytes in the buffer `d` of the node, which begins with the old bytes. -/
structure Grown (s s₁ : Vfs) (n d need : Nat) : Prop where
  buffers : Buffers s₁
  data : (s₁.node n).data = some d
  cap : need ≤ (s₁.node n).cap
  place : s₁ = s ∨ s.ram.heap.used ≤ d
  mem : ∀ a < s.ram.heap.used, s₁.ram.mem a = s.ram.mem a
  node : ∀ m, m ≠ n → s₁.node m = s.node m
  own : ∀ k, k ≤ (s.node n).size → Arena.segment s₁.ram.mem d k = (s.contents n).take k

/-- The old bytes in the fresh block. -/
theorem Buffers.moveData_segment (B : Buffers s) {mem : Nat → Char}
    (hmem : ∀ a < s.ram.heap.used, mem a = s.ram.mem a) {k : Nat} (hk : k ≤ (s.node n).size) :
    Arena.segment (moveData (s.node n) s.ram.heap.used mem) s.ram.heap.used k =
      (s.contents n).take k := by
  rw [moveData]
  cases hd : (s.node n).data with
  | none =>
    have := (B.noData hd).1
    obtain rfl : k = 0 := by omega
    rw [Arena.segment_zero, List.take_zero]
  | some e =>
    have := B.below hd
    have := B.room hd
    rw [contents_eq hd, Arena.segment_take hk]
    refine Arena.segment_congr fun i hi => ?_
    have hin : i < 0 + (s.node n).size := by omega
    exact (memcpy_inside (by rw [Nat.zero_add]; exact .inl (by omega)) (Nat.zero_le _) hin).trans
      (hmem _ (by omega))

theorem moveData_old {v : Vnode} {a nd : Nat} {mem : Nat → Char} (ha : a < nd) :
    moveData v nd mem a = mem a := by
  rw [moveData]
  cases v.data with
  | none => rfl
  | some e => exact memcpy_outside (.inl (by omega))

theorem Buffers.grown (B : Buffers s) (hneed : 0 < need ∧ need ≤ 2 ^ 62) (hn : n < s.next)
    (hf : (s.node n).type = .file) (hg : s.growFile n need = (some d, s₁)) :
    Grown s s₁ n d need := by
  rcases B.growFile_cases n hneed with
    ⟨e, hr, hd, hcap⟩ | ⟨ram, hr, -⟩ | ⟨ram, cap, U, hgrow, hcap, hfit, hr⟩
  · -- the buffer is large enough
    obtain ⟨rfl, rfl⟩ : e = d ∧ s = s₁ := by simpa [hr] using hg
    refine ⟨B, hd, hcap, .inl rfl, fun _ _ => rfl, fun _ _ => rfl, fun k hk => ?_⟩
    rw [contents_eq hd, Arena.segment_take hk]
  · rw [hr] at hg
    cases hg
  · -- the bytes move to a fresh block
    obtain ⟨rfl, hs₁⟩ : s.ram.heap.used = d ∧ _ = s₁ := by simpa [hr] using hg
    have hself : s₁.node n = { s.node n with data := some s.ram.heap.used, cap } := by
      rw [← hs₁]; exact Function.update_self _ _ _
    have hother : ∀ m, m ≠ n → s₁.node m = s.node m := fun m hm => by
      rw [← hs₁]; exact Function.update_of_ne hm _ _
    have hmem : s₁.ram.mem = moveData (s.node n) s.ram.heap.used ram.mem := by rw [← hs₁]; rfl
    have hblock : s₁.block = Function.update s.block n (some ⟨s.ram.heap.used, cap⟩) := by
      funext m
      rcases eq_or_ne m n with rfl | hm
      · rw [block, hself, Function.update_self]; rfl
      · rw [block, hother m hm, Function.update_of_ne hm]; rfl
    have hram : s₁.ram.heap = ram.heap := by rw [← hs₁]; rfl
    have hnext : s₁.next = s.next := by rw [← hs₁]; rfl
    have hdata : (s₁.node n).data = some s.ram.heap.used := by rw [hself]
    refine ⟨?_, hdata, by rw [hself]; exact hcap, .inr (Nat.le_refl _), fun a ha => ?_, hother,
      fun k hk => ?_⟩
    · constructor
      case ram => exact ⟨by rw [hram]; exact U.ram.used_le, by rw [hram]; exact U.ram.total_le⟩
      case arena =>
        rw [hblock, hram]
        exact B.arena.place hfit n
      case room =>
        intro m e he
        rcases eq_or_ne m n with rfl | hm
        · rw [hself]
          show (s.node m).size + 1 ≤ cap
          cases hd : (s.node m).data with
          | none => have := (B.noData hd).1; omega
          | some e' => have := B.room hd; omega
        · rw [hother m hm] at he ⊢
          exact B.room he
      case noData =>
        intro m hnone
        rcases eq_or_ne m n with rfl | hm
        · rw [hdata] at hnone; cases hnone
        · rw [hother m hm] at hnone ⊢
          exact B.noData hnone
      case fresh =>
        intro m hm
        rw [hnext] at hm
        rw [hother m (by omega)]
        exact B.fresh hm
      case dirs =>
        intro m hm
        rcases eq_or_ne m n with rfl | hmn
        · rw [hself, hf] at hm
          cases hm
        · rw [hother m hmn] at hm ⊢
          exact B.dirs hm
      case childCap =>
        intro m
        rcases eq_or_ne m n with rfl | hm
        · rw [hself]; exact B.childCap m
        · rw [hother m hm]; exact B.childCap m
    · rw [hmem, moveData_old ha]
      exact U.mem a ha
    · rw [hmem]
      exact B.moveData_segment U.mem hk

namespace Grown

theorem mem_other (G : Grown s s₁ n d need) (B : Buffers s) {m e i : Nat}
    (he : (s.node m).data = some e) (hi : i < (s.node m).cap) :
    s₁.ram.mem (e + i) = s.ram.mem (e + i) := G.mem _ (by have := B.below he; omega)

theorem contents_other (G : Grown s s₁ n d need) (B : Buffers s) (hm : m ≠ n) :
    s₁.contents m = s.contents m := by
  cases he : (s.node m).data with
  | none => rw [contents_nil he, contents_nil (by rw [G.node m hm, he])]
  | some e =>
    have := B.room he
    rw [contents_eq he, contents_eq (by rw [G.node m hm, he]), G.node m hm]
    exact Arena.segment_congr fun i hi => G.mem_other B he (by omega)

theorem ready (G : Grown s s₁ n d need) (H : HeapOk s) (hsrc : s.Sound len src)
    (hoff : off = 0 ∨ off = (s.node n).size) (hneed : off + len + 1 = need) :
    Ready s₁ n d off len src := by
  have B := H.toBuffers
  refine ⟨G.buffers, G.data, hneed ▸ G.cap, ?_, fun m hm e he => ?_⟩
  · rcases G.place with rfl | hle
    · exact B.steady hsrc G.data hoff
    · cases src with
      | ext bytes => trivial
      | heap addr => exact .inl (by have := B.sound_lt hsrc addr rfl; omega)
  · rw [G.node m hm] at he ⊢
    have := B.room he
    rw [G.mem_other B he (by omega)]
    exact H.terminated m e he

theorem bytes (G : Grown s s₁ n d need) (B : Buffers s) (hsrc : s.Sound len src) :
    src.bytes s₁.ram.mem len = src.bytes s.ram.mem len := by
  have hlt := B.sound_lt hsrc
  refine List.map_congr_left fun i hi => ?_
  have := List.mem_range.mp hi
  cases src with
  | ext bytes => rfl
  | heap addr => exact G.mem _ (by have := hlt addr rfl; omega)

end Grown

/-- `vfs_write_file` (`off = 0`) and `vfs_append_file` (`off = size`), once there is room. -/
theorem HeapOk.write (H : HeapOk s) (hsrc : s.Sound len src) (hlen : len ≤ 2 ^ 60)
    (hn : n < s.next) (hf : (s.node n).type = .file) (hoff : off = 0 ∨ off = (s.node n).size)
    (hg : s.growFile n (off + len + 1) = (some d, s₁)) :
    HeapOk (s₁.storeFile n d off src len) ∧
      (s₁.storeFile n d off src len).contents =
        Function.update s.contents n ((s.contents n).take off ++ src.bytes s.ram.mem len) := by
  have B := H.toBuffers
  have hsize := B.size_le n
  have G := B.grown (by omega) hn hf hg
  have R := G.ready H hsrc hoff rfl
  refine ⟨R.rewritten.heapOk R.buffers R.others, funext fun m => ?_⟩
  rcases eq_or_ne m n with rfl | hm
  · rw [R.contents, Function.update_self, G.own off (by omega), G.bytes B hsrc]
  · rw [R.rewritten.contents_other R.buffers hm, Function.update_of_ne hm, G.contents_other B hm]

theorem HeapOk.refused (H : HeapOk s) (hneed : 0 < need ∧ need ≤ 2 ^ 62)
    (hg : s.growFile n need = (none, s₁)) : HeapOk s₁ ∧ s₁.contents = s.contents := by
  rcases H.growFile_cases n hneed with ⟨e, hr, -⟩ | ⟨ram, hr, U⟩ | ⟨ram, cap, -, -, -, -, hr⟩
  · rw [hr] at hg; cases hg
  · obtain rfl : _ = s₁ := congrArg Prod.snd (hr.symm.trans hg)
    exact ⟨U.heapOk H, U.contents H.toBuffers⟩
  · rw [hr] at hg; cases hg

theorem HeapOk.vfsWriteFile (H : HeapOk s) (hsrc : s.Sound len src) (hlen : len ≤ 2 ^ 60)
    (hn : n < s.next) {b : Bool} (h : s.vfsWriteFile n src len = (b, s')) :
    HeapOk s' ∧ s'.contents =
      if b then Function.update s.contents n (src.bytes s.ram.mem len) else s.contents := by
  rw [Vfs.vfsWriteFile] at h
  split at h
  · obtain ⟨rfl, rfl⟩ : false = b ∧ s = s' := by simpa using h
    exact ⟨H, rfl⟩
  rename_i hf
  rcases hg : s.growFile n (len + 1) with ⟨_ | d, s₁⟩ <;> rw [hg] at h
  · obtain ⟨rfl, rfl⟩ : false = b ∧ s₁ = s' := by simpa using h
    exact H.refused (by omega) hg
  · obtain ⟨rfl, rfl⟩ : true = b ∧ _ = s' := by simpa using h
    rw [← Nat.zero_add len] at hg
    exact H.write hsrc hlen hn (by simpa using hf) (.inl rfl) hg

theorem HeapOk.vfsWriteFile_ext (H : HeapOk s) {content : List Char}
    (hlen : content.length ≤ 2 ^ 60) (hn : n < s.next) :
    HeapOk (s.vfsWriteFile n (.ext content) content.length).2 :=
  (H.vfsWriteFile (show s.Sound content.length (.ext content) from trivial) hlen hn rfl).1

theorem HeapOk.vfsAppendFile (H : HeapOk s) (hsrc : s.Sound len src) (hlen : len ≤ 2 ^ 60)
    (hn : n < s.next) {b : Bool} (h : s.vfsAppendFile n src len = (b, s')) :
    HeapOk s' ∧ s'.contents =
      if b then Function.update s.contents n (s.contents n ++ src.bytes s.ram.mem len)
      else s.contents := by
  have hsize := H.size_le n
  rw [Vfs.vfsAppendFile] at h
  split at h
  · obtain ⟨rfl, rfl⟩ : false = b ∧ s = s' := by simpa using h
    exact ⟨H, rfl⟩
  rename_i hf
  rcases hg : s.growFile n ((s.node n).size + len + 1) with ⟨_ | d, s₁⟩ <;> rw [hg] at h
  · obtain ⟨rfl, rfl⟩ : false = b ∧ s₁ = s' := by simpa using h
    exact H.refused (by omega) hg
  · obtain ⟨rfl, rfl⟩ : true = b ∧ s₁.storeFile n d (s.node n).size src len = s' := by
      have hsz : (s₁.node n).size = (s.node n).size := by
        have hneed : 0 < (s.node n).size + len + 1 ∧ (s.node n).size + len + 1 ≤ 2 ^ 62 := by
          omega
        rcases H.growFile_cases n hneed with
          ⟨e, hr, -⟩ | ⟨ram, hr, -⟩ | ⟨ram, cap, -, -, -, -, hr⟩ <;> rw [hr] at hg
        · rw [← (Prod.mk.inj hg).2]
        · cases hg
        · rw [← (Prod.mk.inj hg).2]
          simp [setNode]
      rw [← hsz]
      simpa using h
    have hw := H.write hsrc hlen hn (by simpa using hf) (.inr rfl) hg
    rwa [List.take_of_length_le (H.length_contents n).le] at hw

theorem Buffers.truncated (B : Buffers s) (hf : (s.node n).type = .file) :
    Rewritten s (s.vfsTruncate n) n 0 := by
  rw [Vfs.vfsTruncate, if_neg (by simp [hf])]
  refine ⟨rfl, rfl, Function.update_self _ _ _, fun m hm => Function.update_of_ne hm _ _,
    fun a ha => ?_, fun d hd => ?_, fun _ => rfl, fun d hd => ?_⟩
  · simp only [setNode]
    cases hd : (s.node n).data with
    | none => rfl
    | some d =>
      have := ha d hd
      have := B.room hd
      exact Function.update_of_ne (by omega) _ _
  · have := B.room hd
    omega
  · have hself : (s.node n).data = some d := by simpa [setNode] using hd
    simp only [setNode, Function.update_self, hself]
    exact Function.update_self _ _ _

theorem HeapOk.vfsTruncate (H : HeapOk s) (n : Nat) :
    HeapOk (s.vfsTruncate n) ∧
      (s.vfsTruncate n).contents = Function.update s.contents n [] := by
  have B := H.toBuffers
  cases hf : (s.node n).type with
  | dir =>
    rw [Vfs.vfsTruncate, if_pos (by simp [hf])]
    refine ⟨H, (Function.update_eq_self_iff.mpr ?_).symm⟩
    exact (contents_nil (B.dirs hf)).symm
  | file =>
    have R := B.truncated hf
    refine ⟨R.heapOk B fun m _ => H.terminated m, funext fun m => ?_⟩
    rcases eq_or_ne m n with rfl | hm
    · rw [Function.update_self, ← List.length_eq_zero_iff, (R.buffers B).length_contents, R.self]
    · rw [Function.update_of_ne hm]
      exact R.contents_other B hm

/-! ## The initial state -/

/-- The nodes are only linked up and the working directory is set. -/
theorem HeapOk.relink (H : HeapOk s) (hram : s'.ram = s.ram) (hnext : s'.next = s.next)
    (hnode : ∀ m, { s'.node m with parent := none } = { s.node m with parent := none }) :
    HeapOk s' := by
  have hdata m : (s'.node m).data = (s.node m).data := (congrArg Vnode.data (hnode m) :)
  have hsize m : (s'.node m).size = (s.node m).size := (congrArg Vnode.size (hnode m) :)
  have hcap m : (s'.node m).cap = (s.node m).cap := (congrArg Vnode.cap (hnode m) :)
  have htype m : (s'.node m).type = (s.node m).type := (congrArg Vnode.type (hnode m) :)
  have hchild m : (s'.node m).childCap = (s.node m).childCap :=
    (congrArg Vnode.childCap (hnode m) :)
  have U : Untouched s s' := ⟨hram ▸ H.ram, by rw [hram], fun _ _ => by rw [hram], hdata, hsize,
    hcap, hnext.ge, fun m h => H.dirs ((htype m).symm.trans h), fun m => hchild m ▸ H.childCap m⟩
  exact U.heapOk H

theorem HeapOk.makeNode (H : HeapOk s) {t : FsType} {name : List Char} {p o : Option Nat}
    (h : s.makeNode t name p = (o, s')) : HeapOk s' := by
  have hs : (s.makeNode t name p).2 = s' := congrArg Prod.snd h
  exact hs ▸ (H.toBuffers.makeNode t name p).heapOk H

theorem HeapOk.addChild (H : HeapOk s) (p c : Nat) : HeapOk (s.addChild p c).2 :=
  (H.toBuffers.addChild p c).heapOk H

theorem HeapOk.mkdirSimple (H : HeapOk s) {parent o : Option Nat} {name : List Char}
    (h : s.mkdirSimple parent name = some (o, s')) : HeapOk s' := by
  rw [Vfs.mkdirSimple] at h
  rcases hm : s.makeNode .dir name parent with ⟨_ | n, s₁⟩ <;> rw [hm] at h
  · obtain ⟨-, rfl⟩ : none = o ∧ s₁ = s' := by simpa using h
    exact H.makeNode hm
  · obtain ⟨p, -, hp⟩ := Option.map_eq_some_iff.mp h
    have hs : (s₁.addChild p n).2 = s' := congrArg Prod.snd hp
    exact hs ▸ (H.makeNode hm).addChild p n

theorem HeapOk.mkfileSimple (H : HeapOk s) {parent o : Option Nat} {name content : List Char}
    (hlen : content.length ≤ 2 ^ 60)
    (h : s.mkfileSimple parent name content = some (o, s')) : HeapOk s' := by
  rw [Vfs.mkfileSimple] at h
  rcases makeNode_cases s .file name parent with ⟨ram, hm⟩ | ⟨ram, hm⟩ <;> rw [hm] at h
  · obtain ⟨-, rfl⟩ : none = o ∧ _ = s' := by simpa using h
    exact H.makeNode hm
  · obtain ⟨p, -, hp⟩ := Option.map_eq_some_iff.mp h
    have H₁ := H.makeNode hm
    have U := H₁.toBuffers.addChild p s.next
    have hn := Nat.lt_of_lt_of_le (Nat.lt_succ_self s.next) U.next
    have hs : ((Vfs.addChild _ p s.next).2.vfsWriteFile s.next (.ext content) content.length).2 =
      s' := congrArg Prod.snd hp
    exact hs ▸ (H₁.addChild p s.next).vfsWriteFile_ext hlen hn

theorem vfsInit_heapOk {kb : Nat} {deny : Nat → Bool} {mem : Nat → Char}
    (h : vfsInit { heap := Kheap.kheapInit kb, deny, mem } = some s) : HeapOk s := by
  simp only [vfsInit, Option.bind_eq_bind, Option.bind_eq_some_iff] at h
  generalize hs₀ : (Vfs.mk { heap := Kheap.kheapInit kb, deny, mem } (fun _ => Vnode.blank) 0 0 0
    []) = s₀ at h
  have H₀ : HeapOk s₀ := by
    subst hs₀
    have htotal := Kheap.kheapInit_total_le kb
    have hmax : HEAP_MAX - HEAP_START ≤ 2 ^ 60 := by decide
    exact ⟨⟨⟨Nat.zero_le _, htotal.trans hmax⟩, ⟨fun h => (by cases h), fun _ h => (by cases h)⟩,
      fun h => (by cases h), fun _ => ⟨rfl, rfl⟩, fun _ => rfl, fun _ => rfl,
      fun _ => Nat.zero_le _⟩, fun _ _ h => (by cases h)⟩
  rcases hm : s₀.makeNode .dir [] none with ⟨o, s₁⟩
  rw [hm] at h
  obtain ⟨r, -, h⟩ := h
  obtain ⟨⟨_, s₂⟩, h₂, h⟩ := h
  have H₁ : HeapOk (setNode { s₁ with root := r, cwd := r } r
      { s₁.node r with parent := some r }) := by
    refine (H₀.makeNode hm).relink rfl rfl fun m => ?_
    rcases eq_or_ne m r with rfl | hne
    · simp [setNode]
    · simp [setNode, hne]
  have H₂ := H₁.mkdirSimple h₂
  obtain ⟨⟨_, s₃⟩, h₃, h⟩ := h
  have H₃ := H₂.mkdirSimple h₃
  obtain ⟨⟨_, s₄⟩, h₄, h⟩ := h
  have H₄ := H₃.mkdirSimple h₄
  obtain ⟨⟨_, s₅⟩, h₅, h⟩ := h
  have H₅ := H₄.mkdirSimple h₅
  obtain ⟨⟨_, s₆⟩, h₆, h⟩ := h
  have H₆ := H₅.mkdirSimple h₆
  obtain ⟨⟨_, s₇⟩, h₇, h⟩ := h
  have H₇ := H₆.mkdirSimple h₇
  obtain ⟨⟨_, s₈⟩, h₈, h⟩ := h
  have H₈ := H₇.mkdirSimple h₈
  obtain ⟨⟨_, s₉⟩, h₉, h⟩ := h
  have H₉ := H₈.mkdirSimple h₉
  obtain ⟨⟨_, s₁₀⟩, h₁₀, h⟩ := h
  have H₁₀ := H₉.mkfileSimple (by rw [spelledMotd.property]; decide) h₁₀
  obtain ⟨⟨_, s₁₁⟩, h₁₁, h⟩ := h
  have H₁₁ := H₁₀.mkfileSimple (by decide +kernel) h₁₁
  obtain ⟨⟨_, s₁₂⟩, h₁₂, h⟩ := h
  have H₁₂ := H₁₁.mkfileSimple (by rw [spelledOsRelease.property]; decide) h₁₂
  obtain ⟨⟨_, s₁₃⟩, h₁₃, h⟩ := h
  have H₁₃ := H₁₂.mkfileSimple (by rw [spelledReadme.property]; decide +kernel) h₁₃
  obtain ⟨cwd, -, hpwd⟩ := h
  obtain ⟨pwd, rfl⟩ := vfsUpdatePwd_cases hpwd
  exact H₁₃.relink rfl rfl fun _ => rfl

end Vfs

/-! ## Runs -/

/-- The bytes of an argument, over the abstract map. -/
def Bytes.denote (c : Nat → List Char) : Bytes → List Char
  | .ext bytes _ => bytes
  | .file m len => (c m).take len

namespace FsOp

/-- The operation with its answer, on the abstract map from nodes to byte lists. -/
def replay (c : Nat → List Char) : FsOp × Bool → Nat → List Char
  | (writeFile n data, true) => Function.update c n (data.denote c)
  | (appendFile n data, true) => Function.update c n (c n ++ data.denote c)
  | (truncate n, true) => Function.update c n []
  | _ => c

/-- The node whose bytes the operation is to change. -/
def target : FsOp → Option Nat
  | writeFile n _ | appendFile n _ | truncate n => some n
  | _ => none

theorem replay_other {op : FsOp} {b : Bool} {c : Nat → List Char} {m : Nat}
    (hm : op.target ≠ some m) : replay c (op, b) m = c m := by
  cases op with
  | writeFile n _ | appendFile n _ | truncate n =>
    have hne : m ≠ n := fun h => hm (congrArg some h.symm)
    cases b with
    | false => rfl
    | true => exact Function.update_of_ne hne _ _
  | _ => cases b <;> rfl

end FsOp

variable {s s' : Vfs} {op : FsOp} {b : Bool}

theorem Bytes.arg_spec (B : s.Buffers) {data : Bytes} {src : Src} {len : Nat}
    (h : data.arg s = some (src, len)) : s.Sound len src ∧ len ≤ 2 ^ 60 ∧
      src.bytes s.ram.mem len = data.denote s.contents := by
  cases data with
  | ext bytes fits =>
    obtain ⟨rfl, rfl⟩ : Src.ext bytes = src ∧ bytes.length = len := by simpa [Bytes.arg] using h
    exact ⟨trivial, Nat.le_trans fits (by decide), Src.bytes_ext _ _⟩
  | file m k =>
    rw [Bytes.arg] at h
    split at h
    · rename_i hk
      have hsize := B.size_le m
      cases hd : (s.node m).data with
      | none =>
        obtain ⟨rfl, rfl⟩ : Src.ext [] = src ∧ 0 = len := by simpa [hd] using h
        refine ⟨trivial, by decide, ?_⟩
        rw [Bytes.denote, Vfs.contents_nil hd, List.take_nil]
        exact Src.bytes_ext _ []
      | some d =>
        obtain ⟨rfl, rfl⟩ : Src.heap d = src ∧ k = len := by simpa [hd] using h
        refine ⟨⟨m, hd, hk.2⟩, by omega, ?_⟩
        rw [Src.bytes_heap, Bytes.denote, Vfs.contents_eq hd, Arena.segment_take hk.2]
    · cases h

/-- One operation, on the memory and on the abstract map. -/
theorem FsOp.step_contents (W : s.Wf) (H : s.HeapOk) (h : op.step s = some (b, s')) :
    s'.HeapOk ∧ s'.contents = FsOp.replay s.contents (op, b) := by
  have B := H.toBuffers
  have hquiet : s.Untouched s' → s'.HeapOk ∧ s'.contents = s.contents := fun U =>
    ⟨U.heapOk H, U.contents B⟩
  have hid : s.Untouched s := B.untouched_ram B.ram (Nat.le_refl _) fun _ _ => rfl
  cases op with
  | mkfile path => cases b <;> exact hquiet (B.vfsMknode h)
  | mkdir path => cases b <;> exact hquiet (B.vfsMknode h)
  | rm path =>
    have hs : (s.vfsRm path).2 = s' := congrArg Prod.snd (Option.some.inj h)
    have hr : s'.HeapOk ∧ s'.contents = s.contents := by
      cases hn : s.vfsResolve path with
      | none =>
        rw [Vfs.vfsRm, hn] at hs
        exact hs ▸ ⟨H, rfl⟩
      | some n => exact hquiet (hs ▸ (Vfs.vfsRm_pruned hn).untouched B)
    cases b <;> exact hr
  | rmRecursive path =>
    have hr : s'.HeapOk ∧ s'.contents = s.contents := by
      cases hn : s.vfsResolve path with
      | none =>
        rw [step, Vfs.vfsRmRecursive, hn] at h
        obtain rfl : s = s' := congrArg Prod.snd (Option.some.inj h)
        exact ⟨H, rfl⟩
      | some n => exact hquiet ((Vfs.vfsRmRecursive_pruned W hn h).untouched B)
    cases b <;> exact hr
  | writeFile n data =>
    rw [step] at h
    split at h
    · rename_i hn
      obtain ⟨⟨src, len⟩, ha, h⟩ := Option.map_eq_some_iff.mp h
      obtain ⟨hsrc, hlen, hbytes⟩ := Bytes.arg_spec B ha
      obtain ⟨H', hc⟩ := H.vfsWriteFile hsrc hlen hn h
      rw [hbytes] at hc
      cases b <;> exact ⟨H', hc⟩
    · cases h
  | appendFile n data =>
    rw [step] at h
    split at h
    · rename_i hn
      obtain ⟨⟨src, len⟩, ha, h⟩ := Option.map_eq_some_iff.mp h
      obtain ⟨hsrc, hlen, hbytes⟩ := Bytes.arg_spec B ha
      obtain ⟨H', hc⟩ := H.vfsAppendFile hsrc hlen hn h
      rw [hbytes] at hc
      cases b <;> exact ⟨H', hc⟩
    · cases h
  | truncate n =>
    rw [step] at h
    split at h
    · obtain ⟨rfl, rfl⟩ : true = b ∧ _ = s' := by simpa using h
      exact H.vfsTruncate n
    · cases h
  | chdir path =>
    have hs : (vfsChdir s path).2 = s' := congrArg Prod.snd (Option.some.inj h)
    have hr : s'.HeapOk ∧ s'.contents = s.contents := by
      rw [← hs, vfsChdir]
      cases s.vfsResolve path with
      | none => exact ⟨H, rfl⟩
      | some n =>
        simp only
        split
        · exact ⟨⟨⟨B.ram, B.arena, B.room, B.noData, B.fresh, B.dirs, B.childCap⟩, H.terminated⟩,
            rfl⟩
        · exact ⟨H, rfl⟩
    cases b <;> exact hr

theorem Booted.heapOk (h : Booted s) : s.HeapOk := by
  obtain ⟨_, _, _, h⟩ := h
  exact Vfs.vfsInit_heapOk h

theorem Reachable.heapOk (h : Reachable s) : s.HeapOk := by
  obtain ⟨s₀, tr, hb, hr⟩ := h
  exact (hr.inv (I := fun s => s.Wf ∧ s.HeapOk)
    (fun _ _ _ _ I h => ⟨FsOp.step_wf I.1 h, (FsOp.step_contents I.1 I.2 h).1⟩)
    ⟨hb.wf, hb.heapOk⟩).2

/-- The contents after a run are the replay of the run on the abstract map; every buffer has its
terminator inside its capacity; and from there every operation changes no other file than its own,
and none at all when it answers 0. -/
theorem contents_refine {s₀ : Vfs} {tr : List (FsOp × Bool)} (hb : Booted s₀)
    (hr : Trace.Run FsOp.step s₀ tr s) :
    s.contents = tr.foldl FsOp.replay s₀.contents ∧
    (∀ n, (s.contents n).length = (s.node n).size) ∧
    (∀ n d, (s.node n).data = some d → (s.node n).size + 1 ≤ (s.node n).cap ∧
      s.ram.mem (d + (s.node n).size) = NUL) ∧
    ∀ op b s', FsOp.step op s = some (b, s') →
      (b = false → s'.contents = s.contents) ∧
      ∀ m, op.target ≠ some m → s'.contents m = s.contents m := by
  have H : s.HeapOk := Reachable.heapOk ⟨s₀, tr, hb, hr⟩
  have W : s.Wf := Reachable.wf ⟨s₀, tr, hb, hr⟩
  refine ⟨?_, H.length_contents, fun n d hd => ⟨H.room hd, H.terminated n d hd⟩,
    fun op b s' h => ?_⟩
  · exact hr.replay (I := fun s => s.Wf ∧ s.HeapOk)
      (fun _ _ _ _ I h => ⟨FsOp.step_wf I.1 h, (FsOp.step_contents I.1 I.2 h).1⟩)
      (fun _ _ _ _ I h => (FsOp.step_contents I.1 I.2 h).2) ⟨hb.wf, hb.heapOk⟩
  · have hc := (FsOp.step_contents W H h).2
    constructor
    · rintro rfl
      rw [hc]
      cases op <;> rfl
    · intro m hm
      rw [hc, FsOp.replay_other hm]

/-- A file is written, and then gets its own bytes appended; `mkfile` of the taken name answers 0. -/
def selfAppend : List FsOp :=
  [.mkfile "/tmp/f".toList, .writeFile 13 (.ext ['a', 'b'] (by decide)), .appendFile 13 (.file 13 2),
    .mkfile "/tmp/f".toList]

theorem selfAppend_refines : ∃ tr s, Trace.exec FsOp.step selfAppend bootVfs = some (tr, s) ∧
    s.contents = tr.foldl FsOp.replay bootVfs.contents := by
  have h : (Trace.exec FsOp.step selfAppend bootVfs).isSome := by
    rw [bootVfs_spelled]
    decide +kernel
  obtain ⟨⟨tr, s⟩, hs⟩ := Option.isSome_iff_exists.mp h
  exact ⟨tr, s, hs, (contents_refine bootVfs_booted (.of_exec _ hs)).1⟩

end BojanOS
