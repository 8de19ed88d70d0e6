import Mathlib.Logic.Function.Basic
import Mathlib.Data.Nat.Bitwise

/-!
# The kernel heap (`kheap.c`)

`kmalloc` moves one offset `used` through a region of `total` bytes and `kfree` does nothing, so a
block is named here by its offset from `heap_ptr`. Sizes are `size_t` values: naturals, with the
reductions modulo `2 ^ 64` written where the C expression can wrap.

`Ram` adds the bytes of the region and a stream `deny` of verdicts of the environment. The source's
allocator is the case where `deny` never holds; with an arbitrary stream any request may be refused,
which is how the results below cover every pattern of exhaustion.
-/

namespace BojanOS

def HEAP_START : Nat := 0x1000000
def HEAP_MAX : Nat := 0x2000000

/-- The string terminator. -/
abbrev NUL : Char := '\x00'

structure Kheap where
  used : Nat
  total : Nat
  deriving DecidableEq

namespace Kheap

def kheapInit (totalMemKb : Nat) : Kheap :=
  let total := HEAP_MAX - HEAP_START
  let mem := totalMemKb * 1024
  { used := 0
    total :=
      if totalMemKb = 0 then total
      else if HEAP_START + total < mem then total
      else if HEAP_START + 0x100000 < mem then mem - HEAP_START - 0x100000
      else 0x100000 }

theorem kheapInit_total_le (kb : Nat) : (kheapInit kb).total ≤ HEAP_MAX - HEAP_START := by
  have h : HEAP_MAX - HEAP_START = 0x1000000 := by decide
  simp only [kheapInit, h]
  split
  · exact Nat.le_refl _
  · split
    · exact Nat.le_refl _
    · split
      · simp only [HEAP_START] at *; omega
      · omega

/-- `(x + a - 1) & ~(a - 1)` on 64 bits. -/
def alignUp (x a : Nat) : Nat := ((x + a - 1) % 2 ^ 64) &&& (2 ^ 64 - a)

def kmalloc (n : Nat) (h : Kheap) : Option Nat × Kheap :=
  let n := alignUp n 16
  if h.total < (h.used + n) % 2 ^ 64 then (none, h)
  else (some h.used, { h with used := (h.used + n) % 2 ^ 64 })

theorem and_neg_sixteen {y : Nat} (hy : y < 2 ^ 64) : y &&& (2 ^ 64 - 16) = y / 2 ^ 4 * 2 ^ 4 := by
  have hm : (2 ^ 64 - 16 : Nat) = (2 ^ 60 - 1) * 2 ^ 4 := by decide
  apply Nat.eq_of_testBit_eq
  intro i
  rw [Nat.testBit_and, hm, Nat.testBit_mul_two_pow, Nat.testBit_mul_two_pow,
    Nat.testBit_two_pow_sub_one, Nat.testBit_div_two_pow]
  by_cases hi : 4 ≤ i
  · simp only [hi, decide_true, Bool.true_and, Nat.sub_add_cancel hi]
    by_cases hlt : i < 64
    · have : i - 4 < 60 := by omega
      simp [this]
    · have hpow : 2 ^ 64 ≤ 2 ^ i := Nat.pow_le_pow_right (by decide) (by omega)
      rw [Nat.testBit_lt_two_pow (Nat.lt_of_lt_of_le hy hpow)]
      rfl
  · simp [hi]

/-- A request that leaves room for the rounding is rounded up to a multiple of 16. -/
theorem alignUp_sixteen {n : Nat} (hn : n + 15 < 2 ^ 64) : alignUp n 16 = (n + 15) / 16 * 16 := by
  rw [alignUp, Nat.mod_eq_of_lt (by omega), and_neg_sixteen (by omega)]
  rfl

/-- The one thing a `kmalloc` of a request below `2 ^ 63` can do. -/
theorem kmalloc_cases {n : Nat} {h : Kheap} (hn : n ≤ 2 ^ 63) (hu : h.used ≤ h.total)
    (ht : h.total < 2 ^ 62) :
    h.kmalloc n = (none, h) ∨
      ∃ k, n ≤ k ∧ h.used + k ≤ h.total ∧
        h.kmalloc n = (some h.used, { h with used := h.used + k }) := by
  have ha := alignUp_sixteen (n := n) (by omega)
  rw [kmalloc]
  simp only [ha]
  have hmod : (h.used + (n + 15) / 16 * 16) % 2 ^ 64 = h.used + (n + 15) / 16 * 16 :=
    Nat.mod_eq_of_lt (by omega)
  rw [hmod]
  split
  · exact .inl rfl
  · exact .inr ⟨(n + 15) / 16 * 16, by omega, by omega, rfl⟩

end Kheap

/-- The heap with its bytes, and the verdicts of the environment on the requests to come. -/
structure Ram where
  heap : Kheap
  deny : Nat → Bool
  mem : Nat → Char

/-- The bytes a `memcpy` reads: outside the heap, or in the heap at an offset. -/
inductive Src where
  | ext (bytes : List Char)
  | heap (addr : Nat)

def Src.read (mem : Nat → Char) : Src → Nat → Char
  | .ext bytes, i => bytes.getD i NUL
  | .heap addr, i => mem (addr + i)

/-- `while (n--) *d++ = *s++;`, with the source read in the memory as it is at that byte. -/
def memcpy (dst : Nat) (src : Src) : Nat → Nat → (Nat → Char) → Nat → Char
  | 0, _, mem => mem
  | n + 1, i, mem => memcpy dst src n (i + 1) (Function.update mem (dst + i) (src.read mem i))

/-- `memset(dst, 0, n)`. -/
def memzero (dst n : Nat) (mem : Nat → Char) : Nat → Char :=
  fun a => if dst ≤ a ∧ a < dst + n then NUL else mem a

/-- What a copy reads does not depend on what it has written: the source is outside the heap, ends
at the destination or before it, or begins at the destination or after it. -/
def Src.Steady (dst n : Nat) : Src → Prop
  | .ext _ => True
  | .heap addr => addr + n ≤ dst ∨ dst ≤ addr

theorem memcpy_outside {dst n : Nat} {src : Src} {a : Nat} :
    ∀ {i : Nat} {mem : Nat → Char}, a < dst + i ∨ dst + (i + n) ≤ a →
      memcpy dst src n i mem a = mem a := by
  induction n with
  | zero => intro i mem _; rfl
  | succ n ih =>
    intro i mem h
    rw [memcpy, ih (by omega), Function.update_of_ne (by omega)]

/-- The bytes that arrive. -/
theorem memcpy_inside {dst n : Nat} {src : Src} :
    ∀ {i j : Nat} {mem : Nat → Char}, src.Steady dst (i + n) → i ≤ j → j < i + n →
      memcpy dst src n i mem (dst + j) = src.read mem j := by
  induction n with
  | zero => intro i j mem _ _ _; omega
  | succ n ih =>
    intro i j mem hs hij hj
    rw [memcpy]
    rcases Nat.lt_or_ge i j with h | h
    · have hs' : src.Steady dst (i + 1 + n) := by rwa [show i + 1 + n = i + (n + 1) by omega]
      rw [ih hs' h (by omega)]
      cases src with
      | ext bytes => rfl
      | heap addr =>
        exact Function.update_of_ne (by simp only [Src.Steady] at hs; omega) _ _
    · obtain rfl : i = j := by omega
      rw [memcpy_outside (.inl (by omega)), Function.update_self]

namespace Ram

def kmalloc (n : Nat) (r : Ram) : Option Nat × Ram :=
  let deny i := r.deny (i + 1)
  if r.deny 0 then (none, { r with deny })
  else
    let (p, heap) := r.heap.kmalloc n
    (p, { r with heap, deny })

def kzalloc (n : Nat) (r : Ram) : Option Nat × Ram :=
  match r.kmalloc n with
  | (none, r) => (none, r)
  | (some p, r) => (some p, { r with mem := memzero p n r.mem })

/-- One request after the other is granted. -/
def grantsAll : List Nat → Ram → Bool
  | [], _ => true
  | n :: ns, r =>
    match r.kmalloc n with
    | (none, _) => false
    | (some _, r) => grantsAll ns r

/-- The end of the heap. -/
abbrev total (r : Ram) : Nat := r.heap.total

@[simp] theorem kmalloc_total (r : Ram) (n : Nat) : (r.kmalloc n).2.heap.total = r.total := by
  rw [kmalloc]
  split
  · rfl
  · rw [Kheap.kmalloc]
    simp only
    split
    · rfl
    · rfl

@[simp] theorem kzalloc_total (r : Ram) (n : Nat) : (r.kzalloc n).2.heap.total = r.total := by
  have h := r.kmalloc_total n
  rw [kzalloc]
  split
  · rename_i hk
    rwa [hk] at h
  · rename_i hk
    rwa [hk] at h

/-- The region is the one `kheap_init` sets up, or a later state of it. -/
structure Ok (r : Ram) : Prop where
  used_le : r.heap.used ≤ r.heap.total
  total_le : r.heap.total ≤ 2 ^ 60

/-- What a request does to the heap: refused, or a fresh block `[used, used + n)` above all others.
The bytes do not change. -/
theorem kmalloc_spec {r : Ram} (hr : r.Ok) {n : Nat} (hn : n ≤ 2 ^ 63) :
    (r.kmalloc n).2.Ok ∧ (r.kmalloc n).2.mem = r.mem ∧
      r.heap.used ≤ (r.kmalloc n).2.heap.used ∧
      ∀ p, (r.kmalloc n).1 = some p → p = r.heap.used ∧ p + n ≤ (r.kmalloc n).2.heap.used := by
  rw [kmalloc]
  split
  · exact ⟨⟨hr.used_le, hr.total_le⟩, rfl, Nat.le_refl _, by simp⟩
  · obtain h | ⟨k, hk, hfit, h⟩ := Kheap.kmalloc_cases hn hr.used_le (by have := hr.total_le; omega)
    · simp only [h]
      exact ⟨⟨hr.used_le, hr.total_le⟩, trivial, Nat.le_refl _, by simp⟩
    · simp only [h]
      refine ⟨⟨hfit, hr.total_le⟩, trivial, Nat.le_add_right _ _, fun p hp => ?_⟩
      obtain rfl : r.heap.used = p := by simpa using hp
      exact ⟨rfl, Nat.add_le_add_left hk _⟩

theorem kzalloc_spec {r : Ram} (hr : r.Ok) {n : Nat} (hn : n ≤ 2 ^ 63) :
    (r.kzalloc n).2.Ok ∧ (∀ a, a < r.heap.used → (r.kzalloc n).2.mem a = r.mem a) ∧
      r.heap.used ≤ (r.kzalloc n).2.heap.used := by
  obtain ⟨hok, hmem, hle, hp⟩ := kmalloc_spec hr hn
  rw [kzalloc]
  rcases hk : r.kmalloc n with ⟨_ | p, r'⟩ <;> simp only [hk] at hok hmem hle hp ⊢
  · exact ⟨hok, fun a _ => by rw [hmem], hle⟩
  · obtain ⟨rfl, -⟩ := hp p rfl
    refine ⟨⟨hok.used_le, hok.total_le⟩, fun a ha => ?_, hle⟩
    rw [memzero, if_neg (by omega), hmem]

end Ram

/-- 64 MB, and no request refused. -/
def bootRam : Ram := { heap := Kheap.kheapInit 65536, deny := fun _ => false, mem := fun _ => NUL }

end BojanOS
