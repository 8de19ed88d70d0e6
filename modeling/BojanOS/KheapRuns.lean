import BojanOS.Kheap
import BojanOS.Lib.Arena
import BojanOS.Lib.Trace

/-!
# Runs of `kmalloc`

Sizes are any `size_t` values here. A request so near `2 ^ 64` that rounding it up, or adding it to
`used`, wraps around is granted; all other requests are served as an allocator should.
-/

namespace BojanOS

open Trace

/-- The heap and the blocks it has given out, oldest first. -/
structure HeapRun where
  heap : Kheap
  blocks : List Block
  deriving DecidableEq

namespace HeapRun

def start (totalMemKb : Nat) : HeapRun := ⟨Kheap.kheapInit totalMemKb, []⟩

def request (n : Nat) (st : HeapRun) : Option (Option Nat × HeapRun) :=
  let (p, heap) := st.heap.kmalloc n
  some (p, ⟨heap, st.blocks ++ p.toList.map fun p => ⟨p, n⟩⟩)

/-- No byte is in both blocks. -/
def Apart (B C : Block) : Prop :=
  B.size = 0 ∨ C.size = 0 ∨ B.start + B.size ≤ C.start ∨ C.start + C.size ≤ B.start

/-- What is expected of a state. -/
structure Sound (st : HeapRun) : Prop where
  used_le : st.heap.used ≤ st.heap.total
  aligned : ∀ B ∈ st.blocks, 16 ∣ B.start
  inside : ∀ B ∈ st.blocks, B.start + B.size ≤ st.heap.total
  apart : st.blocks.Pairwise Apart

/-- What is expected of a run: its states are sound, `used` never goes down, and a refused request
does not change it. -/
structure SoundRun (totalMemKb : Nat) (tr : List (Nat × Option Nat)) : Prop where
  states : ∀ tr' st, Run request (start totalMemKb) tr' st → tr' <+: tr → st.Sound
  steps : ∀ tr' n p st st', Run request (start totalMemKb) tr' st → tr' ++ [(n, p)] <+: tr →
    request n st = some (p, st') →
    st.heap.used ≤ st'.heap.used ∧ (p = none → st'.heap.used = st.heap.used)

/-- Neither the rounding nor the sum wraps around. -/
def NoWrap (n : Nat) (st : HeapRun) : Prop := st.heap.used + n + 15 < 2 ^ 64

/-- The invariant of the runs without such requests: the blocks lie below `used`. -/
structure Inv (st : HeapRun) : Prop where
  used_le : st.heap.used ≤ st.heap.total
  total_le : st.heap.total ≤ HEAP_MAX - HEAP_START
  used : 16 ∣ st.heap.used
  aligned : ∀ B ∈ st.blocks, 16 ∣ B.start
  below : ∀ B ∈ st.blocks, B.start + B.size ≤ st.heap.used
  apart : st.blocks.Pairwise Apart

variable {n : Nat} {p : Option Nat} {st st' : HeapRun} {totalMemKb : Nat}

theorem start_inv (totalMemKb : Nat) : (start totalMemKb).Inv where
  used_le := Nat.zero_le _
  total_le := Kheap.kheapInit_total_le totalMemKb
  used := Nat.dvd_zero _
  aligned _ h := by cases h
  below _ h := by cases h
  apart := .nil

theorem Inv.sound (I : st.Inv) : st.Sound where
  used_le := I.used_le
  aligned := I.aligned
  inside B hB := (I.below B hB).trans I.used_le
  apart := I.apart

/-- What a request that does not wrap can do. -/
theorem request_cases (I : st.Inv) (hn : NoWrap n st) (h : request n st = some (p, st')) :
    (p = none ∧ st' = st) ∨
      ∃ k, n ≤ k ∧ 16 ∣ k ∧ st.heap.used + k ≤ st.heap.total ∧ p = some st.heap.used ∧
        st' = ⟨{ st.heap with used := st.heap.used + k }, st.blocks ++ [⟨st.heap.used, n⟩]⟩ := by
  rw [NoWrap] at hn
  have ha := Kheap.alignUp_sixteen (n := n) (by omega)
  have hmod : (st.heap.used + (n + 15) / 16 * 16) % 2 ^ 64 = st.heap.used + (n + 15) / 16 * 16 := by
    have := I.used
    exact Nat.mod_eq_of_lt (by omega)
  rw [request, Kheap.kmalloc] at h
  simp only [ha, hmod] at h
  split at h
  · obtain ⟨rfl, rfl⟩ := Prod.mk.inj (Option.some.inj h)
    exact .inl ⟨rfl, by simp⟩
  · rename_i hfit
    obtain ⟨rfl, rfl⟩ := Prod.mk.inj (Option.some.inj h)
    exact .inr ⟨(n + 15) / 16 * 16, by omega, Nat.dvd_mul_left _ _, Nat.not_lt.mp hfit, rfl, rfl⟩

theorem Inv.request (I : st.Inv) (hn : NoWrap n st) (h : request n st = some (p, st')) :
    st'.Inv := by
  rcases request_cases I hn h with ⟨-, rfl⟩ | ⟨k, hk, h16, hfit, -, rfl⟩
  · exact I
  refine ⟨hfit, I.total_le, Nat.dvd_add I.used h16, ?_, ?_, ?_⟩
  · intro B hB
    rcases List.mem_append.mp hB with hB | hB
    · exact I.aligned B hB
    · obtain rfl := List.mem_singleton.mp hB
      exact I.used
  · intro B hB
    rcases List.mem_append.mp hB with hB | hB
    · exact (I.below B hB).trans (Nat.le_add_right _ _)
    · obtain rfl := List.mem_singleton.mp hB
      exact Nat.add_le_add_left hk _
  · refine List.pairwise_append.mpr ⟨I.apart, List.pairwise_singleton _ _, ?_⟩
    intro B hB C hC
    obtain rfl := List.mem_singleton.mp hC
    exact .inr (.inr (.inl (I.below B hB)))

/-- A request that wraps around is granted. -/
theorem request_wrap (I : st.Inv) (hn : ¬ NoWrap n st) (h64 : n < 2 ^ 64)
    (h : HeapRun.request n st = some (p, st')) : ⟨st.heap.used, n⟩ ∈ st'.blocks := by
  rw [NoWrap] at hn
  have htotal : HEAP_MAX - HEAP_START = 0x1000000 := by decide
  have hle := I.total_le
  have hused := I.used_le
  rw [htotal] at hle
  have hgrant : (st.heap.used + Kheap.alignUp n 16) % 2 ^ 64 ≤ st.heap.total := by
    rcases Nat.lt_or_ge (n + 15) (2 ^ 64) with hlt | hge
    · rw [Kheap.alignUp_sixteen hlt]
      obtain ⟨u, hu⟩ := I.used
      omega
    · have hzero : Kheap.alignUp n 16 = 0 := by
        have hsub : (n + 16 - 1) % 2 ^ 64 = n + 15 - 2 ^ 64 := by omega
        rw [Kheap.alignUp, hsub, Kheap.and_neg_sixteen (by omega), Nat.div_eq_of_lt (by omega),
          Nat.zero_mul]
      rw [hzero, Nat.add_zero]
      exact (Nat.mod_le _ _).trans hused
  rw [HeapRun.request, Kheap.kmalloc] at h
  simp only [Nat.not_lt.mpr hgrant, if_false] at h
  obtain ⟨-, rfl⟩ := Prod.mk.inj (Option.some.inj h)
  exact List.mem_append_right _ List.mem_cons_self

/-- Along a run without requests that wrap around. -/
theorem run_inv {tr : List (Nat × Option Nat)} (H : Run HeapRun.request (start totalMemKb) tr st)
    (hC : ∀ tr' n p st', Run HeapRun.request (start totalMemKb) tr' st' → tr' ++ [(n, p)] <+: tr →
      NoWrap n st') : st.Inv :=
  Run.inv_of (fun _ _ _ _ I hn h => I.request hn h) (start_inv totalMemKb) H hC

theorem SoundRun.of_prefix {tr tr' : List (Nat × Option Nat)} (H : SoundRun totalMemKb tr)
    (h : tr' <+: tr) : SoundRun totalMemKb tr' where
  states tr₁ st hr hp := H.states tr₁ st hr (hp.trans h)
  steps tr₁ n p st st' hr hp := H.steps tr₁ n p st st' hr (hp.trans h)

theorem soundRun_of_noWrap {tr : List (Nat × Option Nat)}
    (hC : ∀ tr' n p st', Run HeapRun.request (start totalMemKb) tr' st' → tr' ++ [(n, p)] <+: tr →
      NoWrap n st') : SoundRun totalMemKb tr where
  states tr' st H h := by
    have hC' : ∀ tr₁ n p st', Run HeapRun.request (start totalMemKb) tr₁ st' →
        tr₁ ++ [(n, p)] <+: tr' → NoWrap n st' :=
      fun tr₁ n p st' H₁ hp => hC tr₁ n p st' H₁ (hp.trans h)
    exact (run_inv H hC').sound
  steps tr' n p st st' H h hs := by
    have hp : tr' <+: tr := (List.prefix_append _ _).trans h
    have I : st.Inv := run_inv H fun tr₁ n p st' H₁ h₁ => hC tr₁ n p st' H₁ (h₁.trans hp)
    rcases request_cases I (hC tr' n p st H h) hs with ⟨-, rfl⟩ | ⟨k, -, -, -, rfl, rfl⟩
    · exact ⟨Nat.le_refl _, fun _ => rfl⟩
    · exact ⟨Nat.le_add_right _ _, fun h => by cases h⟩

/-- No request has wrapped around if no block reaches the end of the address space. -/
theorem noWrap_of_blocks {tr : List (Nat × Option Nat)}
    (H : Run HeapRun.request (start totalMemKb) tr st)
    (h64 : ∀ r ∈ tr, r.1 < 2 ^ 64)
    (hblocks : ∀ tr' st', Run HeapRun.request (start totalMemKb) tr' st' → tr' <+: tr →
      ∀ B ∈ st'.blocks, B.start + B.size + 15 < 2 ^ 64) :
    ∀ tr' n p st', Run HeapRun.request (start totalMemKb) tr' st' → tr' ++ [(n, p)] <+: tr →
      NoWrap n st' := by
  induction H with
  | nil =>
    intro tr' n p st' _ hp
    exact absurd (List.prefix_nil.mp hp) (by simp)
  | @snoc tr a b t u H h ih =>
    have hC := ih (fun r hr => h64 r (List.mem_append_left _ hr))
      fun tr' st' H' hp => hblocks tr' st' H' (hp.trans (List.prefix_append _ _))
    intro tr' n p st' H' hp
    rcases List.prefix_concat_iff.mp hp with he | hp
    · obtain ⟨rfl, hab⟩ := List.append_inj' he rfl
      obtain ⟨rfl, rfl⟩ := Prod.mk.inj (List.singleton_inj.mp hab)
      obtain rfl := H.det H'
      by_contra hn
      have hlt := h64 (n, p) (List.mem_append_right _ List.mem_cons_self)
      have hB := request_wrap (run_inv H hC) hn hlt h
      exact hn (hblocks _ u (H.snoc h) (List.prefix_refl _) _ hB)
    · exact hC tr' n p st' H' hp

theorem run_total {tr : List (Nat × Option Nat)} (H : Run HeapRun.request (start totalMemKb) tr st) :
    st.heap.total = (Kheap.kheapInit totalMemKb).total := by
  apply H.inv (I := fun st => st.heap.total = (Kheap.kheapInit totalMemKb).total) _ rfl
  intro n p s t hs h
  rw [HeapRun.request, Kheap.kmalloc] at h
  simp only at h
  split at h
  all_goals
    obtain ⟨-, rfl⟩ := Prod.mk.inj (Option.some.inj h)
    exact hs

end HeapRun

open HeapRun in
/-- A run is as expected exactly when none of its requests wraps around. -/
theorem soundRun_iff {totalMemKb : Nat} {tr : List (Nat × Option Nat)} {st : HeapRun}
    (H : Run request (start totalMemKb) tr st) (h64 : ∀ r ∈ tr, r.1 < 2 ^ 64) :
    SoundRun totalMemKb tr ↔
      ∀ tr' n p st', Run request (start totalMemKb) tr' st' → tr' ++ [(n, p)] <+: tr →
        NoWrap n st' := by
  refine ⟨fun S => noWrap_of_blocks H h64 fun tr' st' H' hp B hB => ?_, soundRun_of_noWrap⟩
  have hin := (S.states tr' st' H' hp).inside B hB
  have hle := Kheap.kheapInit_total_le totalMemKb
  have htotal : HEAP_MAX - HEAP_START = 0x1000000 := by decide
  rw [run_total H'] at hin
  omega

namespace HeapRun

/-- A block, and a request that is refused. -/
theorem run_refused : Run request (start 32768) [(100, some 0), (2 ^ 24, none)]
    ⟨⟨112, 2 ^ 24 - 2 ^ 20⟩, [⟨0, 100⟩]⟩ :=
  .of_exec [100, 2 ^ 24] (by decide +kernel)

theorem noWrap_refused : ∀ tr' n p st', Run request (start 32768) tr' st' →
    tr' ++ [(n, p)] <+: [(100, some 0), (2 ^ 24, none)] → NoWrap n st' := by
  have H : Run request (start 32768) [(100, some 0)] ⟨⟨112, 2 ^ 24 - 2 ^ 20⟩, [⟨0, 100⟩]⟩ :=
    .of_exec [100] (by decide +kernel)
  have hfirst : NoWrap 100 (start 32768) := by
    rw [NoWrap]
    decide +kernel
  have hsecond : NoWrap (2 ^ 24) ⟨⟨112, 2 ^ 24 - 2 ^ 20⟩, [⟨0, 100⟩]⟩ := by
    rw [NoWrap]
    decide
  exact H.steps_snoc (C := fun n _ st => NoWrap n st)
    (Run.nil.steps_snoc (C := fun n _ st => NoWrap n st) Run.steps_nil hfirst) hsecond

end HeapRun

open HeapRun in
theorem soundRun_refused :
    Run request (start 32768) [(100, some 0), (2 ^ 24, none)]
        ⟨⟨112, 2 ^ 24 - 2 ^ 20⟩, [⟨0, 100⟩]⟩ ∧
      SoundRun 32768 [(100, some 0), (2 ^ 24, none)] :=
  ⟨run_refused, (soundRun_iff run_refused (by decide)).mpr noWrap_refused⟩

open HeapRun in
/-- The largest `size_t` is granted a block, of no bytes. -/
theorem not_soundRun_max :
    Run request (start 32768) [(2 ^ 64 - 1, some 0)]
        ⟨⟨0, 2 ^ 24 - 2 ^ 20⟩, [⟨0, 2 ^ 64 - 1⟩]⟩ ∧
      ¬ SoundRun 32768 [(2 ^ 64 - 1, some 0)] := by
  have H : Run request (start 32768) [(2 ^ 64 - 1, some 0)]
      ⟨⟨0, 2 ^ 24 - 2 ^ 20⟩, [⟨0, 2 ^ 64 - 1⟩]⟩ := .of_exec [2 ^ 64 - 1] (by decide +kernel)
  refine ⟨H, fun S => ?_⟩
  have hin := (S.states _ _ H (List.prefix_refl _)).inside _ List.mem_cons_self
  simp only at hin
  omega

/-! ## The detected memory -/

namespace HeapRun

/-- The heap, and the blocks that a run has been given, lie in the detected memory. -/
structure InMemory (totalMemKb : Nat) (tr : List (Nat × Option Nat)) : Prop where
  region : HEAP_START + (Kheap.kheapInit totalMemKb).total ≤ totalMemKb * 1024
  below : HEAP_START + (Kheap.kheapInit totalMemKb).total ≤ HEAP_MAX
  blocks : ∀ tr' st, Run request (start totalMemKb) tr' st → tr' <+: tr →
    ∀ B ∈ st.blocks, HEAP_START + B.start + B.size ≤ totalMemKb * 1024

/-- Below 17 MiB, `kheap_init` falls back to a heap of 1 MiB that is not there. -/
theorem region_iff {totalMemKb : Nat} (h0 : totalMemKb ≠ 0) :
    HEAP_START + (Kheap.kheapInit totalMemKb).total ≤ totalMemKb * 1024 ↔ 17408 ≤ totalMemKb := by
  have hsize : HEAP_MAX - HEAP_START = 0x1000000 := by decide
  have hstart : HEAP_START = 0x1000000 := by decide
  simp only [Kheap.kheapInit, hsize, if_neg h0]
  split
  · omega
  split
  · omega
  · omega

/-- The heap lies in the memory if there are 17 MiB of it. So do the blocks, if no request wraps
around. -/
theorem inMemory_iff {totalMemKb : Nat} {tr : List (Nat × Option Nat)} {st : HeapRun}
    (h0 : totalMemKb ≠ 0) (h32 : totalMemKb < 2 ^ 32) (H : Run request (start totalMemKb) tr st)
    (h64 : ∀ r ∈ tr, r.1 < 2 ^ 64) :
    InMemory totalMemKb tr ↔ 17408 ≤ totalMemKb ∧
      ∀ tr' n p st', Run request (start totalMemKb) tr' st' → tr' ++ [(n, p)] <+: tr →
        NoWrap n st' := by
  constructor
  · intro M
    refine ⟨(region_iff h0).mp M.region, ?_⟩
    apply noWrap_of_blocks H h64
    intro tr' st' H' hp B hB
    have hin := M.blocks tr' st' H' hp B hB
    omega
  · rintro ⟨hkb, hC⟩
    have hregion := (region_iff h0).mpr hkb
    refine ⟨hregion, ?_, fun tr' st' H' hp B hB => ?_⟩
    · exact Nat.add_le_of_le_sub' (by decide) (Kheap.kheapInit_total_le totalMemKb)
    · have I : st'.Inv := run_inv H' fun tr₁ n p st₁ H₁ h₁ => hC tr₁ n p st₁ H₁ (h₁.trans hp)
      have hin := (I.below B hB).trans I.used_le
      rw [run_total H'] at hin
      omega

/-- 32 MiB -/
theorem inMemory_refused :
    Run request (start 32768) [(100, some 0), (2 ^ 24, none)]
        ⟨⟨112, 2 ^ 24 - 2 ^ 20⟩, [⟨0, 100⟩]⟩ ∧
      InMemory 32768 [(100, some 0), (2 ^ 24, none)] :=
  ⟨run_refused,
    (inMemory_iff (by decide) (by decide) run_refused (by decide)).mpr ⟨by decide, noWrap_refused⟩⟩

/-- With 16 MiB of memory the first block lies behind its end. -/
theorem not_inMemory_small :
    Run request (start 16384) [(100, some 0)] ⟨⟨112, 0x100000⟩, [⟨0, 100⟩]⟩ ∧
      16384 * 1024 ≤ HEAP_START ∧ ¬ InMemory 16384 [(100, some 0)] := by
  have H : Run request (start 16384) [(100, some 0)] ⟨⟨112, 0x100000⟩, [⟨0, 100⟩]⟩ :=
    .of_exec [100] (by decide +kernel)
  exact ⟨H, by decide, fun M => absurd ((region_iff (by decide)).mp M.region) (by decide)⟩

end HeapRun

end BojanOS
