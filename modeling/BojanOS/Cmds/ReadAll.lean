import BojanOS.Cmds.SplitLines
import Mathlib.Data.Nat.Size

/-!
# The buffer in memory (`buf_putc`, `read_all_stdin`)

The block of a `buffer_t` is twice as large as the one before, with room for a terminator behind the
bytes. Where a larger block is refused the byte is dropped, and nothing that `open_input` looks at
says so: without a block the buffer is empty, and with one it is not null.
-/

namespace BojanOS

open Arena

/-- `buffer_t` -/
structure BufferAt where
  data : Option Nat
  len : Nat
  cap : Nat

namespace BufferAt

/-- `buf_init` -/
def init : BufferAt := ⟨none, 0, 0⟩

/-- `b->data[b->len++] = c; b->data[b->len] = 0;`, within the block. -/
def store (b : BufferAt) (c : Char) (r : Ram) : Option (BufferAt × Ram) :=
  match b.data with
  | none => none
  | some d =>
    if b.len + 1 < b.cap then
      some ({ b with len := b.len + 1 }, { r with
        mem := Function.update (Function.update r.mem (d + b.len) c) (d + (b.len + 1)) NUL })
    else none

/-- `buf_putc` -/
def putc (b : BufferAt) (c : Char) (r : Ram) : Option (BufferAt × Ram) :=
  if b.cap ≤ b.len + 1 then
    let nc := if b.cap ≠ 0 then b.cap * 2 % 2 ^ 64 else 256
    match r.kmalloc nc with
    | (none, r) => some (b, r)
    | (some nb, r) =>
      let grown := { b with data := some nb, cap := nc }
      if b.len = 0 then grown.store c r
      else
        match b.data with
        | none => none
        | some d => grown.store c { r with mem := memcpy nb (.heap d) b.len 0 r.mem }
  else b.store c r

/-- The bytes in the block. -/
def bytes (b : BufferAt) (r : Ram) : List Char := r.bytesAt b.data b.len

/-- The buffer as it is in `bufPutc`. -/
def buffer (b : BufferAt) (r : Ram) : Buffer := ⟨b.data, b.bytes r, b.cap⟩

/-- The block is on the heap, with room for the bytes and the terminator. -/
structure Ok (b : BufferAt) (r : Ram) : Prop where
  ram : r.Ok
  null : b.data = none → b.len = 0 ∧ b.cap = 0
  room : ∀ d, b.data = some d → b.len + 1 ≤ b.cap
  terminated : ∀ d, b.data = some d → r.mem (d + b.len) = NUL
  below : ∀ d, b.data = some d → d + b.cap ≤ r.heap.used

theorem init_ok {r : Ram} (hr : r.Ok) : init.Ok r := by
  have hnull : ∀ d, init.data ≠ some d := fun _ h => nomatch h
  exact ⟨hr, fun _ => ⟨rfl, rfl⟩, fun d h => absurd h (hnull d), fun d h => absurd h (hnull d),
    fun d h => absurd h (hnull d)⟩

variable {b b' : BufferAt} {r r' : Ram} {d : Nat} {c : Char}

theorem bytes_some (h : b.data = some d) : b.bytes r = segment r.mem d b.len := by
  rw [bytes, h]
  rfl

theorem Ok.length_bytes (I : b.Ok r) : (b.bytes r).length = b.len := by
  cases h : b.data with
  | none =>
    rw [bytes, h, (I.null h).1]
    rfl
  | some d => rw [bytes_some h, length_segment]

/-- A byte and the terminator, behind the cells of a segment. -/
theorem segment_store {mem : Nat → Char} {n : Nat} :
    segment (Function.update (Function.update mem (d + n) c) (d + (n + 1)) NUL) d (n + 1) =
      segment mem d n ++ [c] := by
  have hfront : segment (Function.update (Function.update mem (d + n) c) (d + (n + 1)) NUL) d n =
      segment mem d n := segment_congr fun i hi => by
    rw [Function.update_of_ne (by omega), Function.update_of_ne (by omega)]
  have hlast : Function.update (Function.update mem (d + n) c) (d + (n + 1)) NUL (d + n) = c := by
    rw [Function.update_of_ne (by omega), Function.update_self]
  rw [segment_add, hfront, segment_succ, segment_zero, hlast]

/-- A byte for which there is room. -/
theorem store_spec (hr : r.Ok) (hd : b.data = some d) (hroom : b.len + 1 < b.cap)
    (hbelow : d + b.cap ≤ r.heap.used) :
    ∃ b' r', b.store c r = some (b', r') ∧ b'.Ok r' ∧
      b'.buffer r' = ⟨some d, segment r.mem d b.len ++ [c], b.cap⟩ ∧
      ∀ m, ({ r' with mem := m } : Ram) = { r with mem := m } := by
  have hstore : b.store c r = some ({ b with len := b.len + 1 }, { r with
      mem := Function.update (Function.update r.mem (d + b.len) c) (d + (b.len + 1)) NUL }) := by
    rw [store, hd]
    exact if_pos hroom
  refine ⟨_, _, hstore, ⟨⟨hr.used_le, hr.total_le⟩, ?_, ?_, ?_, ?_⟩, ?_, fun m => rfl⟩
  · intro h
    rw [hd] at h
    cases h
  · exact fun _ _ => hroom
  · intro e he
    obtain rfl := Option.some.inj (hd.symm.trans he)
    exact Function.update_self ..
  · intro e he
    obtain rfl := Option.some.inj (hd.symm.trans he)
    exact hbelow
  · rw [buffer, ← segment_store, ← hd]
    exact congrArg (fun l => Buffer.mk b.data l b.cap) (bytes_some hd)

/-- A byte for which a larger block is there. -/
theorem grown_spec (I : b.Ok r) {nb nc : Nat} {r₁ : Ram} (hnc : nc ≤ 2 ^ 63)
    (hroom : b.len + 1 < nc) (hk : r.kmalloc nc = (some nb, r₁)) :
    ∃ b' r', (if b.len = 0 then ({ b with data := some nb, cap := nc } : BufferAt).store c r₁
        else
          match b.data with
          | none => none
          | some d => ({ b with data := some nb, cap := nc } : BufferAt).store c
              { r₁ with mem := memcpy nb (.heap d) b.len 0 r₁.mem }) = some (b', r') ∧
      b'.Ok r' ∧ b'.buffer r' = ⟨some nb, b.bytes r ++ [c], nc⟩ ∧
      ∀ m, ({ r' with mem := m } : Ram) = { r₁ with mem := m } := by
  obtain ⟨hok, hmem, hused, hfresh⟩ := Ram.kmalloc_spec I.ram hnc
  rw [hk] at hok hmem hused hfresh
  obtain ⟨rfl, hend⟩ := hfresh nb rfl
  simp only at hok hmem hused hend
  by_cases hlen : b.len = 0
  · obtain ⟨b', r', h, I', hbuf, hram⟩ :=
      store_spec (b := { b with data := some r.heap.used, cap := nc }) (c := c) hok rfl hroom hend
    have hempty : b.bytes r = [] := List.eq_nil_of_length_eq_zero (I.length_bytes.trans hlen)
    refine ⟨b', r', by rw [if_pos hlen]; exact h, I', ?_, hram⟩
    rw [hbuf, hempty, hlen, segment_zero]
  · obtain ⟨d, hd⟩ := Option.ne_none_iff_exists'.mp fun h => hlen (I.null h).1
    have hold : d + b.len ≤ r.heap.used := by
      have := I.room d hd
      have := I.below d hd
      omega
    have hsteady : (Src.heap d).Steady r.heap.used b.len := .inl hold
    obtain ⟨b', r', h, I', hbuf, hram⟩ :=
      store_spec (b := { b with data := some r.heap.used, cap := nc }) (c := c)
        (r := { r₁ with mem := memcpy r.heap.used (.heap d) b.len 0 r₁.mem })
        ⟨hok.used_le, hok.total_le⟩ rfl hroom hend
    refine ⟨b', r', by rw [if_neg hlen, hd]; exact h, I', ?_, hram⟩
    rw [hbuf, bytes_some hd, segment_memcpy hsteady, hmem, Src.bytes_heap]

theorem Ok.cap_le (I : b.Ok r) : b.cap ≤ 2 ^ 60 := by
  cases h : b.data with
  | none =>
    rw [(I.null h).2]
    exact Nat.zero_le _
  | some d =>
    have hbelow := I.below d h
    have hused := I.ram.used_le
    have htotal := I.ram.total_le
    omega

/-- Where a larger block is needed, the size asked for has room for the byte. -/
theorem Ok.newCap (I : b.Ok r) (hcap : b.cap ≤ b.len + 1) :
    (if b.cap ≠ 0 then b.cap * 2 % 2 ^ 64 else 256) ≤ 2 ^ 63 ∧
      b.len + 1 < if b.cap ≠ 0 then b.cap * 2 % 2 ^ 64 else 256 := by
  have hle := I.cap_le
  cases h : b.data with
  | none =>
    obtain ⟨hlen, hcap⟩ := I.null h
    rw [hlen, hcap]
    decide
  | some d =>
    have hroom := I.room d h
    have hpos : b.cap ≠ 0 := by omega
    rw [if_pos hpos, Nat.mod_eq_of_lt (by omega)]
    omega

/-- A refused request changes nothing. -/
theorem Ok.refused (I : b.Ok r) {nc : Nat} (hnc : nc ≤ 2 ^ 63) :
    b.Ok (r.kmalloc nc).2 ∧ b.buffer (r.kmalloc nc).2 = b.buffer r := by
  obtain ⟨hok, hmem, hused, -⟩ := Ram.kmalloc_spec I.ram hnc
  refine ⟨⟨hok, I.null, I.room, ?_, ?_⟩, ?_⟩
  · intro d hd
    rw [hmem]
    exact I.terminated d hd
  · exact fun d hd => (I.below d hd).trans hused
  · rw [buffer, buffer, bytes, bytes, Ram.bytesAt, Ram.bytesAt, hmem]

/-- The buffer in memory does what `bufPutc` says, and the invariant stays. -/
theorem putc_refines (I : b.Ok r) (c : Char) (m : Nat → Char) :
    ∃ b' r', b.putc c r = some (b', r') ∧ b'.Ok r' ∧
      bufPutc (b.buffer r) c { r with mem := m } = some (b'.buffer r', { r' with mem := m }) := by
  have hlen : (b.buffer r).bytes.length = b.len := I.length_bytes
  have hdata : (b.buffer r).data = b.data := rfl
  have hsize : (b.buffer r).cap = b.cap := rfl
  rw [putc, bufPutc, hlen, hsize]
  by_cases hcap : b.cap ≤ b.len + 1
  · obtain ⟨hnc, hroom⟩ := I.newCap hcap
    rw [if_pos hcap, if_pos hcap]
    generalize (if b.cap ≠ 0 then b.cap * 2 % 2 ^ 64 else 256) = nc at *
    simp only [Ram.kmalloc_mem]
    rcases hk : r.kmalloc nc with ⟨_ | nb, r₁⟩
    · obtain ⟨I', hbuf⟩ := I.refused hnc
      rw [hk] at I' hbuf
      exact ⟨b, r₁, rfl, I', by rw [← hbuf]⟩
    · obtain ⟨b', r', h, I', hbuf, hram⟩ := grown_spec (c := c) I hnc hroom hk
      have hlost : ¬ ((b.buffer r).bytes ≠ [] ∧ (b.buffer r).data = none) := by
        rintro ⟨hne, hnone⟩
        exact hne (List.eq_nil_of_length_eq_zero (hlen.trans (I.null hnone).1))
      refine ⟨b', r', h, I', ?_⟩
      simp only [if_neg hlost]
      rw [hbuf, hram m]
      rfl
  · have hsome : b.data ≠ none := by
      intro h
      have := (I.null h).2
      omega
    obtain ⟨d, hd⟩ := Option.ne_none_iff_exists'.mp hsome
    obtain ⟨b', r', h, I', hbuf, hram⟩ := store_spec (c := c) I.ram hd (by omega) (I.below d hd)
    have hpush : (b.buffer r).push c = some ⟨some d, segment r.mem d b.len ++ [c], b.cap⟩ := by
      have hbytes : (b.buffer r).bytes = segment r.mem d b.len := bytes_some hd
      rw [Buffer.push, hdata, if_neg hsome, hbytes, hsize, hd]
    rw [if_neg hcap, if_neg hcap, hpush]
    exact ⟨b', r', h, I', by rw [hbuf, hram m]; rfl⟩

end BufferAt

/-! ## The blocks that a text needs -/

/-- How often the first block is doubled for `n` bytes and a terminator. -/
def doublings (n : Nat) : Nat := (n / 256).size

/-- The blocks of 256, 512, .. bytes that a buffer has had when there are `n` bytes in it. -/
def growthRequests (n : Nat) : List Nat :=
  if n = 0 then [] else (List.range (doublings n + 1)).map fun i => 256 * 2 ^ i

/-- The last of them. -/
def blockSize (n : Nat) : Nat := if n = 0 then 0 else 256 * 2 ^ doublings n

theorem doublings_succ (n : Nat) :
    (n + 1 < 256 * 2 ^ doublings n → doublings (n + 1) = doublings n) ∧
      (256 * 2 ^ doublings n ≤ n + 1 → doublings (n + 1) = doublings n + 1) := by
  have hlt : n / 256 < 2 ^ doublings n := Nat.lt_size_self _
  have hmono : doublings n ≤ doublings (n + 1) :=
    Nat.size_le_size (Nat.div_le_div_right (Nat.le_succ n))
  constructor
  · intro h
    apply le_antisymm _ hmono
    apply Nat.size_le.mpr
    omega
  · intro h
    have hquot : (n + 1) / 256 = 2 ^ doublings n := by omega
    rw [doublings, hquot, Nat.size_pow]

/-- One byte more. -/
theorem blockSize_succ (n : Nat) :
    (n + 1 < blockSize n → blockSize (n + 1) = blockSize n ∧
      growthRequests (n + 1) = growthRequests n) ∧
    (blockSize n ≤ n + 1 → blockSize (n + 1) = (if blockSize n ≠ 0 then blockSize n * 2 else 256) ∧
      growthRequests (n + 1) = growthRequests n ++ [blockSize (n + 1)]) := by
  rcases Nat.eq_zero_or_pos n with rfl | hpos
  · exact ⟨fun h => absurd h (by decide), fun _ => by decide⟩
  · have hn : n ≠ 0 := hpos.ne'
    have hpow : 256 * 2 ^ doublings n ≠ 0 := by positivity
    obtain ⟨hsame, hmore⟩ := doublings_succ n
    rw [blockSize, blockSize, growthRequests, growthRequests, if_neg hn, if_neg hn,
      if_neg n.succ_ne_zero, if_neg n.succ_ne_zero, if_pos hpow]
    constructor
    · intro h
      rw [hsame h]
      exact ⟨rfl, rfl⟩
    · intro h
      rw [hmore h, List.range_succ, List.map_append]
      exact ⟨by rw [Nat.pow_succ, Nat.mul_assoc], rfl⟩

/-- The heap after the requests. -/
def Ram.afterAll : List Nat → Ram → Ram
  | [], r => r
  | n :: ns, r => afterAll ns (r.kmalloc n).2

theorem Ram.grantsAll_concat (ns : List Nat) (n : Nat) (r : Ram) :
    r.grantsAll (ns ++ [n]) = (r.grantsAll ns && ((r.afterAll ns).kmalloc n).1.isSome) ∧
      r.afterAll (ns ++ [n]) = ((r.afterAll ns).kmalloc n).2 := by
  induction ns generalizing r with
  | nil =>
    rw [List.nil_append, grantsAll, grantsAll, afterAll, afterAll, afterAll]
    rcases r.kmalloc n with ⟨_ | p, r'⟩
    · exact ⟨rfl, rfl⟩
    · exact ⟨rfl, rfl⟩
  | cons k ns ih =>
    rw [List.cons_append, grantsAll, grantsAll, afterAll, afterAll]
    rcases r.kmalloc k with ⟨_ | p, r'⟩
    · exact ⟨rfl, (ih r').2⟩
    · exact ih r'

/-! ## What is lost -/

theorem readAllLoop_concat (input : List Char) (c : Char) (b : Buffer) (r : Ram) :
    readAllLoop (input ++ [c]) b r = (readAllLoop input b r).bind fun s => bufPutc s.1 c s.2 := by
  induction input generalizing b r with
  | nil =>
    rw [List.nil_append, readAllLoop, readAllLoop, Option.bind_some]
    rcases bufPutc b c r with _ | ⟨b', r'⟩
    · rfl
    · rfl
  | cons x input ih =>
    rw [List.cons_append, readAllLoop, readAllLoop]
    rcases bufPutc b x r with _ | ⟨b', r'⟩
    · rfl
    · exact ih b' r'

/-- The byte is appended to the block or to a larger one, or lost with the larger one. -/
theorem bufPutc_cases {b b' : Buffer} {c : Char} {r r' : Ram} (hcap : b.cap ≤ 2 ^ 60)
    (h : bufPutc b c r = some (b', r')) :
    (b.bytes.length + 1 < b.cap ∧ b'.bytes = b.bytes ++ [c] ∧ b'.cap = b.cap ∧ r' = r) ∨
    (b.cap ≤ b.bytes.length + 1 ∧
      ∃ nc, nc = (if b.cap ≠ 0 then b.cap * 2 else 256) ∧ r' = (r.kmalloc nc).2 ∧
        (((r.kmalloc nc).1.isSome = true ∧ b'.bytes = b.bytes ++ [c] ∧ b'.cap = nc) ∨
          ((r.kmalloc nc).1.isSome = false ∧ b' = b))) := by
  have hpush : ∀ {b b' : Buffer}, b.push c = some b' →
      b'.bytes = b.bytes ++ [c] ∧ b'.cap = b.cap := by
    intro b b' h
    rw [Buffer.push] at h
    split_ifs at h
    obtain rfl := Option.some.inj h
    exact ⟨rfl, rfl⟩
  rw [bufPutc] at h
  by_cases hroom : b.cap ≤ b.bytes.length + 1
  · rw [if_pos hroom, Nat.mod_eq_of_lt (by omega)] at h
    refine .inr ⟨hroom, _, rfl, ?_⟩
    generalize (if b.cap ≠ 0 then b.cap * 2 else 256) = nc at *
    simp only at h
    rcases hk : r.kmalloc nc with ⟨_ | nb, r₁⟩
    · rw [hk] at h
      obtain ⟨rfl, rfl⟩ := Prod.mk.inj (Option.some.inj h)
      exact ⟨rfl, .inr ⟨rfl, rfl⟩⟩
    · rw [hk] at h
      simp only at h
      split_ifs at h
      obtain ⟨b₁, hb₁, he⟩ := Option.map_eq_some_iff.mp h
      obtain ⟨rfl, rfl⟩ := Prod.mk.inj he
      exact ⟨rfl, .inl ⟨rfl, hpush hb₁⟩⟩
  · rw [if_neg hroom] at h
    obtain ⟨b₁, hb₁, he⟩ := Option.map_eq_some_iff.mp h
    obtain ⟨rfl, rfl⟩ := Prod.mk.inj he
    obtain ⟨hbytes, hcap⟩ := hpush hb₁
    exact .inl ⟨Nat.not_le.mp hroom, hbytes, hcap, rfl⟩

/-- The size of a block that was granted. -/
theorem bufPutc_bounds {b b' : Buffer} {c : Char} {r r' : Ram} (hr : r.Ok) (hcap : b.cap ≤ 2 ^ 60)
    (h : bufPutc b c r = some (b', r')) :
    r'.Ok ∧ b'.cap ≤ 2 ^ 60 ∧ b'.bytes.length ≤ b.bytes.length + 1 := by
  rcases bufPutc_cases hcap h with ⟨-, hbytes, hcap', rfl⟩ | ⟨-, nc, hnc, rfl, hor⟩
  · rw [hcap', hbytes, List.length_append]
    exact ⟨hr, hcap, le_rfl⟩
  · have hsmall : nc ≤ 2 ^ 63 := by
      rw [hnc]
      split_ifs
      · omega
      · decide
    obtain ⟨hok, -, -, hfresh⟩ := Ram.kmalloc_spec hr hsmall
    rcases hor with ⟨hsome, hbytes, hcap'⟩ | ⟨-, rfl⟩
    · obtain ⟨p, hp⟩ := Option.isSome_iff_exists.mp hsome
      obtain ⟨-, hend⟩ := hfresh p hp
      have hused := hok.used_le
      have htotal := hok.total_le
      rw [hcap', hbytes, List.length_append]
      exact ⟨hok, by omega, le_rfl⟩
    · exact ⟨hok, hcap, Nat.le_succ _⟩

/-- Either every block is granted, and the bytes are the input, or some byte is lost. -/
theorem readAllStdin_spec {input : List Char} {b : Buffer} {r r' : Ram} (hr : r.Ok)
    (h : readAllStdin input r = some (b, r')) : r'.Ok ∧ b.cap ≤ 2 ^ 60 ∧
    ((r.grantsAll (growthRequests input.length) = true ∧ b.bytes = input ∧
      b.cap = blockSize input.length ∧ r' = r.afterAll (growthRequests input.length)) ∨
    (r.grantsAll (growthRequests input.length) = false ∧ b.bytes.length < input.length)) := by
  induction input using List.reverseRecOn generalizing b r' with
  | nil =>
    obtain ⟨rfl, rfl⟩ := Prod.mk.inj (Option.some.inj h)
    exact ⟨hr, Nat.zero_le _, .inl ⟨rfl, rfl, rfl, rfl⟩⟩
  | append_singleton input c ih =>
    rw [readAllStdin, readAllLoop_concat] at h
    obtain ⟨⟨b₁, r₁⟩, hrun, hputc⟩ := Option.bind_eq_some_iff.mp h
    obtain ⟨hok, hcap, hor⟩ := ih hrun
    obtain ⟨hok', hcap', hle⟩ := bufPutc_bounds hok hcap hputc
    refine ⟨hok', hcap', ?_⟩
    obtain ⟨hsame, hmore⟩ := blockSize_succ input.length
    rw [List.length_append, List.length_singleton]
    rcases hor with ⟨hgrants, hbytes, hsize, rfl⟩ | ⟨hgrants, hlost⟩
    · rcases bufPutc_cases hcap hputc with
        ⟨hroom, hbytes', hsize', rfl⟩ | ⟨hfull, nc, hnc, rfl, hcase⟩
      · rw [hbytes, hsize] at hroom
        obtain ⟨hsize₁, hrequests⟩ := hsame hroom
        rw [hrequests, hsize₁]
        rw [hbytes] at hbytes'
        exact .inl ⟨hgrants, hbytes', hsize'.trans hsize, rfl⟩
      · rw [hbytes, hsize] at hfull
        obtain ⟨hsize₁, hrequests⟩ := hmore hfull
        rw [hsize, ← hsize₁] at hnc
        obtain ⟨hall, hafter⟩ := Ram.grantsAll_concat (growthRequests input.length)
          (blockSize (input.length + 1)) r
        rw [hrequests, hall, hafter, hgrants, ← hnc, Bool.true_and]
        rcases hcase with ⟨hsome, hbytes', hsize'⟩ | ⟨hnone, rfl⟩
        · rw [hbytes] at hbytes'
          exact .inl ⟨hsome, hbytes', hsize', rfl⟩
        · rw [hbytes]
          exact .inr ⟨hnone, Nat.lt_succ_self _⟩
    · refine .inr ⟨?_, by omega⟩
      rcases Nat.lt_or_ge (input.length + 1) (blockSize input.length) with hroom | hfull
      · rw [(hsame hroom).2, hgrants]
      · rw [(hmore hfull).2, (Ram.grantsAll_concat _ _ r).1, hgrants, Bool.false_and]

/-! ## `read_all_stdin` -/

/-- The byte that `(char)c` makes of what `sh_getc` returns. -/
def lowByte (c : Int) : Char := Char.ofNat (c % 256).toNat

/-- The state of the loop: the calls of `sh_getc` so far, and the buffer. -/
structure ReadState where
  calls : Nat
  buf : BufferAt
  ram : Ram

/-- A round of the loop; `getc k` is what the `k`-th call of `sh_getc` returns. -/
def readStep (getc : Nat → Int) (st : ReadState) : Option (ReadState ⊕ ReadState) :=
  if getc st.calls < 0 then some (.inr { st with calls := st.calls + 1 })
  else (st.buf.putc (lowByte (getc st.calls)) st.ram).map fun s => .inl ⟨st.calls + 1, s.1, s.2⟩

/-- `read_all_stdin` -/
def readAllStdinAt (getc : Nat → Int) (fuel : Nat) (r : Ram) : Option ReadState :=
  Loop.run (readStep getc) fuel ⟨0, .init, r⟩

/-- `f->data != 0 || f->size == 0`, the answer of `open_input`. -/
def openStdin (b : BufferAt) : Bool := b.data ≠ none ∨ b.len = 0

/-- `sh_getc` returns `n` bytes, and then the end of the input. -/
structure EndsAt (getc : Nat → Int) (n : Nat) : Prop where
  bytes : ∀ k < n, 0 ≤ getc k
  last : getc n < 0

/-- What is in the stream in front of its end. -/
def streamBytes (getc : Nat → Int) (n : Nat) : List Char :=
  (List.range n).map fun k => lowByte (getc k)

/-- The byte behind the bytes is in the block, and it is the terminator. -/
def BufferAt.Kept (b : BufferAt) (r : Ram) : Prop :=
  ∀ d, b.data = some d → b.len + 1 ≤ b.cap ∧ r.mem (d + b.len) = NUL

/-- The stream of `n` bytes is read to its end, the terminator is kept all the time, and the buffer
has the bytes of the stream unless `open_input` answers 0. -/
def ReadsStream (getc : Nat → Int) (n : Nat) (r : Ram) : Prop :=
  (∀ st, Loop.Reaches (readStep getc) ⟨0, .init, r⟩ st → st.buf.Kept st.ram) ∧
  ∃ fuel st, readAllStdinAt getc fuel r = some st ∧ st.calls = n + 1 ∧ st.buf.Kept st.ram ∧
    (st.buf.bytes st.ram = streamBytes getc n ∨ openStdin st.buf = false)

/-- In front of a round: so far the buffer is what `readAllStdin` makes of the stream. -/
structure ReadInv (getc : Nat → Int) (n : Nat) (r : Ram) (st : ReadState) : Prop where
  calls_le : st.calls ≤ n
  ok : st.buf.Ok st.ram
  model : readAllStdin (streamBytes getc st.calls) r =
    some (st.buf.buffer st.ram, { st.ram with mem := r.mem })

theorem BufferAt.Ok.kept {b : BufferAt} {r : Ram} (I : b.Ok r) : b.Kept r := fun d hd =>
  ⟨I.room d hd, I.terminated d hd⟩

/-- Without a block nothing is in the buffer, so the answer is never 0. -/
theorem BufferAt.Ok.openStdin {b : BufferAt} {r : Ram} (I : b.Ok r) : openStdin b = true := by
  rw [BojanOS.openStdin, decide_eq_true_eq]
  by_cases h : b.data = none
  · exact .inr (I.null h).1
  · exact .inl h

section stream

variable {getc : Nat → Int} {n : Nat} {r : Ram} (hr : r.Ok) (hend : EndsAt getc n)

include hr hend

/-- A round takes one byte, and the call behind the last byte ends the loop. -/
theorem readStep_advances :
    Loop.Advances (readStep getc) ReadState.calls (fun st => st.calls + 1) (n + 1) ⟨0, .init, r⟩ ∧
      ∀ st, Loop.Reaches (readStep getc) ⟨0, .init, r⟩ st → ReadInv getc n r st := by
  apply Loop.Advances.of_inv
  · exact ⟨Nat.zero_le n, BufferAt.init_ok hr, rfl⟩
  · intro st I
    rw [readStep]
    by_cases hc : getc st.calls < 0
    · exact .inl ⟨_, if_pos hc⟩
    · have hlt : st.calls < n := lt_of_le_of_ne I.calls_le fun h => hc (h ▸ hend.last)
      obtain ⟨b', r', hputc, hok, hmodel⟩ :=
        BufferAt.putc_refines I.ok (lowByte (getc st.calls)) r.mem
      refine .inr ⟨⟨st.calls + 1, b', r'⟩, by rw [if_neg hc, hputc]; rfl, ?_, rfl,
        Nat.lt_succ_self _, Nat.succ_lt_succ hlt⟩
      refine ⟨hlt, hok, ?_⟩
      have hsnoc : streamBytes getc (st.calls + 1) =
          streamBytes getc st.calls ++ [lowByte (getc st.calls)] := by
        rw [streamBytes, List.range_succ, List.map_append]
        rfl
      have hbefore := I.model
      rw [readAllStdin] at hbefore
      rw [hsnoc, readAllStdin, readAllLoop_concat, hbefore]
      exact hmodel

/-- The loop ends behind the stream, with the buffer of `readAllStdin`. -/
theorem readAllStdinAt_refines : ∃ fuel st, readAllStdinAt getc fuel r = some st ∧
    st.calls = n + 1 ∧ st.buf.Ok st.ram ∧ readAllStdin (streamBytes getc n) r =
      some (st.buf.buffer st.ram, { st.ram with mem := r.mem }) := by
  obtain ⟨A, hinv⟩ := readStep_advances hr hend
  obtain ⟨st, hrun⟩ := A.run (Nat.lt_succ_self _)
  obtain ⟨t, hreach, hstep⟩ := Loop.run_sound hrun
  have I := hinv t hreach
  rw [readStep] at hstep
  split_ifs at hstep with hc
  · have hn : t.calls = n := by
      by_contra hne
      have := hend.bytes t.calls (lt_of_le_of_ne I.calls_le hne)
      omega
    obtain rfl := Sum.inr.inj (Option.some.inj hstep)
    have hmodel := I.model
    rw [hn] at hmodel
    exact ⟨_, _, hrun, congrArg (· + 1) hn, I.ok, hmodel⟩
  · obtain ⟨s, -, h⟩ := Option.map_eq_some_iff.mp hstep
    cases h

/-- Either every block is granted and the buffer has the stream, or it has fewer bytes. -/
theorem readAllStdinAt_spec : ∃ fuel st, readAllStdinAt getc fuel r = some st ∧
    st.calls = n + 1 ∧ st.buf.Ok st.ram ∧
    (r.grantsAll (growthRequests n) = true ∧ st.buf.bytes st.ram = streamBytes getc n ∨
      r.grantsAll (growthRequests n) = false ∧ st.buf.bytes st.ram ≠ streamBytes getc n) := by
  obtain ⟨fuel, st, hrun, hcalls, I, hmodel⟩ := readAllStdinAt_refines hr hend
  have hlen : (streamBytes getc n).length = n := by
    rw [streamBytes, List.length_map, List.length_range]
  obtain ⟨-, -, hspec⟩ := readAllStdin_spec hr hmodel
  rw [hlen] at hspec
  refine ⟨fuel, st, hrun, hcalls, I, ?_⟩
  rcases hspec with ⟨hgrants, hbytes, -⟩ | ⟨hgrants, hlost⟩
  · exact .inl ⟨hgrants, hbytes⟩
  · refine .inr ⟨hgrants, fun hbytes => ?_⟩
    have hlength := congrArg List.length hbytes
    rw [hlen] at hlength
    exact absurd hlost (Nat.not_lt.mpr hlength.ge)

theorem ReadsStream.grants (H : ReadsStream getc n r) :
    r.grantsAll (growthRequests n) = true := by
  obtain ⟨fuel, st, hrun, -, I, hor⟩ := readAllStdinAt_spec hr hend
  obtain ⟨-, fuel', st', hrun', -, -, hread⟩ := H
  obtain rfl := Loop.run_det hrun hrun'
  rcases hor with ⟨hgrants, -⟩ | ⟨-, hlost⟩
  · exact hgrants
  · rcases hread with hbytes | hzero
    · exact absurd hbytes hlost
    · rw [I.openStdin] at hzero
      cases hzero

/-- Bytes are lost without a trace when one of the blocks for them is refused, and only then. -/
theorem readsStream_iff : ReadsStream getc n r ↔ r.grantsAll (growthRequests n) = true := by
  obtain ⟨-, hinv⟩ := readStep_advances hr hend
  obtain ⟨fuel, st, hrun, hcalls, I, hor⟩ := readAllStdinAt_spec hr hend
  constructor
  · exact fun H => H.grants hr hend
  · intro hgrants
    refine ⟨fun t ht => (hinv t ht).ok.kept, fuel, st, hrun, hcalls, I.kept, .inl ?_⟩
    rcases hor with ⟨-, hbytes⟩ | ⟨hno, -⟩
    · exact hbytes
    · rw [hgrants] at hno
      cases hno

end stream

/-- Three bytes on the standard input. -/
def threeBytes (k : Nat) : Int := if k < 3 then 'a'.toNat else -1

theorem threeBytes_end : EndsAt threeBytes 3 :=
  ⟨by decide, by decide⟩

theorem readsStream_iff_three : ReadsStream threeBytes 3 bootRam :=
  (readsStream_iff ⟨by decide, by decide⟩ threeBytes_end).mpr (by decide +kernel)

/-- No block is left on the heap. -/
def fullRam : Ram :=
  { bootRam with heap := { used := HEAP_MAX - HEAP_START, total := HEAP_MAX - HEAP_START } }

/-- With a full heap the buffer stays empty, and the answer is 1. -/
theorem not_readsStream_full : fullRam.Ok ∧ EndsAt threeBytes 3 ∧
    ¬ ReadsStream threeBytes 3 fullRam := by
  have hok : fullRam.Ok := ⟨by decide, by decide⟩
  refine ⟨hok, threeBytes_end, fun H => ?_⟩
  have hgrants := H.grants hok threeBytes_end
  exact absurd hgrants (by decide +kernel)

/-! ## The standard input of a command -/

theorem Ram.mem_kmalloc (r : Ram) (n : Nat) : (r.kmalloc n).2.mem = r.mem :=
  congrArg (fun s => s.2.mem) (r.kmalloc_mem n r.mem)

theorem bufPutc_mem {b b' : Buffer} {c : Char} {r r' : Ram} (h : bufPutc b c r = some (b', r')) :
    r'.mem = r.mem := by
  rw [bufPutc] at h
  by_cases hcap : b.cap ≤ b.bytes.length + 1
  · rw [if_pos hcap] at h
    generalize (if b.cap ≠ 0 then b.cap * 2 % 2 ^ 64 else 256) = nc at h
    have hmem := r.mem_kmalloc nc
    simp only at h
    rcases hk : r.kmalloc nc with ⟨_ | nb, r₁⟩
    · rw [hk] at h hmem
      obtain ⟨-, rfl⟩ := Prod.mk.inj (Option.some.inj h)
      exact hmem
    · rw [hk] at h hmem
      simp only at h
      split_ifs at h
      obtain ⟨b₁, -, he⟩ := Option.map_eq_some_iff.mp h
      obtain ⟨-, rfl⟩ := Prod.mk.inj he
      exact hmem
  · rw [if_neg hcap] at h
    obtain ⟨b₁, -, he⟩ := Option.map_eq_some_iff.mp h
    obtain ⟨-, rfl⟩ := Prod.mk.inj he
    rfl

namespace Shell

/-- With another allocator. -/
abbrev withRam (σ : Shell) (ram : Ram) : Shell := { σ with vfs := { σ.vfs with ram } }

/-- `sh_getc` gives the bytes of a text one by one, and then the end of the input. -/
inductive Delivers : Shell → List Char → Shell → Prop where
  | last {σ σ' : Shell} {c : Int} (h : σ.shGetc = some (c, σ')) (hc : c < 0) : Delivers σ [] σ'
  | byte {σ σ₁ σ' : Shell} {c : Int} {text : List Char} (h : σ.shGetc = some (c, σ₁)) (hc : 0 ≤ c)
    (hrest : Delivers σ₁ text σ') : Delivers σ (lowByte c :: text) σ'

variable {σ σ' : Shell} {text : List Char} {ram : Ram}

/-- Only the bytes of the heap are read. -/
theorem shGetc_withRam {c : Int} (h : σ.shGetc = some (c, σ')) (hmem : ram.mem = σ.vfs.ram.mem) :
    σ'.vfs = σ.vfs ∧ (σ.withRam ram).shGetc = some (c, σ'.withRam ram) := by
  rw [shGetc] at h ⊢
  have hin : (σ.withRam ram).inFile = σ.inFile := rfl
  have hpipe : (σ.withRam ram).pipeReader = σ.pipeReader := rfl
  rw [hin, hpipe]
  split at h
  · simp only [hmem]
    split_ifs at h ⊢
    · obtain ⟨rfl, rfl⟩ := Prod.mk.inj (Option.some.inj h)
      exact ⟨rfl, rfl⟩
    · obtain ⟨d, hd, he⟩ := Option.map_eq_some_iff.mp h
      obtain ⟨rfl, rfl⟩ := Prod.mk.inj he
      exact ⟨rfl, by rw [hd]; rfl⟩
  · split at h
    · split at h
      · rename_i hb
        obtain ⟨rfl, rfl⟩ := Prod.mk.inj (Option.some.inj h)
        exact ⟨rfl, by simp only [hb]⟩
      · rename_i hb
        obtain ⟨rfl, rfl⟩ := Prod.mk.inj (Option.some.inj h)
        exact ⟨rfl, by simp only [hb]⟩
    · obtain ⟨rfl, rfl⟩ := Prod.mk.inj (Option.some.inj h)
      exact ⟨rfl, rfl⟩

open Prog

/-- `read_all_stdin` in the shell is `readAllStdin` of what it is given. -/
theorem Delivers.readStdin (D : σ.Delivers text σ') {fuel : Nat} (hfuel : text.length < fuel)
    (b : Buffer) (hmem : ram.mem = σ.vfs.ram.mem) : (readStdin fuel b).run (σ.withRam ram) =
      (readAllLoop text b ram).map fun s => (s.1, σ'.withRam s.2) := by
  induction D generalizing fuel b ram with
  | @last σ σ' c h hc =>
    obtain ⟨fuel, rfl⟩ := Nat.exists_eq_succ_of_ne_zero (Nat.ne_of_gt hfuel)
    obtain ⟨-, hget⟩ := shGetc_withRam h hmem
    rw [Prog.readStdin, run, hget, Option.bind_some, if_pos hc]
    rfl
  | @byte σ σ₁ σ' c text h hc D ih =>
    obtain ⟨fuel, rfl⟩ := Nat.exists_eq_succ_of_ne_zero (Nat.ne_of_gt (Nat.zero_lt_of_lt hfuel))
    obtain ⟨hvfs, hget⟩ := shGetc_withRam h hmem
    rw [Prog.readStdin, run, hget, Option.bind_some, if_neg (Int.not_lt.mpr hc), run_bind, run_fs,
      readAllLoop, lowByte]
    rcases hput : bufPutc b (Char.ofNat (c % 256).toNat) ram with _ | ⟨b', ram'⟩
    · rfl
    · have hmem' : ram'.mem = σ₁.vfs.ram.mem := by
        rw [bufPutc_mem hput, hmem, hvfs]
      exact ih (Nat.lt_of_succ_lt_succ hfuel) b' hmem'

/-- On the standard input `open_input` always answers 1. What it gives is the stream if all blocks
for it are granted, and has fewer bytes otherwise. -/
theorem Delivers.opens (D : σ.Delivers text σ') (hr : σ.vfs.ram.Ok) {fuel : Nat}
    (hfuel : text.length < fuel) : ∃ ram given, Opens fuel none σ given (σ'.withRam ram) ∧
      (σ.vfs.ram.grantsAll (growthRequests text.length) = true ∧ given = text ∨
        σ.vfs.ram.grantsAll (growthRequests text.length) = false ∧ given.length < text.length) := by
  have hinit : Buffer.init.Backed := fun _ => ⟨rfl, rfl⟩
  obtain ⟨b, ram, hread, hB⟩ := readAllLoop_backed (r := σ.vfs.ram) text hinit
  obtain ⟨-, -, hspec⟩ := readAllStdin_spec hr hread
  have hrun := D.readStdin hfuel .init rfl
  have hanswer : b.data ≠ none ∨ b.bytes = [] := by
    by_cases hd : b.data = none
    · exact .inr (hB hd).2
    · exact .inl hd
  refine ⟨ram, b.bytes, ⟨b.data.map fun _ => b.bytes, ?_, ?_⟩, ?_⟩
  · rw [openInput, run_bind]
    have hself : σ.withRam σ.vfs.ram = σ := rfl
    rw [hself, hread] at hrun
    rw [hrun]
    simp only [Option.map_some, Option.bind_some, run_pure, if_pos hanswer]
  · cases hd : b.data with
    | none => rw [(hB hd).2]; rfl
    | some d => rfl
  · rcases hspec with ⟨hgrants, hbytes, -⟩ | ⟨hgrants, hlost⟩
    · exact .inl ⟨hgrants, hbytes⟩
    · exact .inr ⟨hgrants, hlost⟩

theorem shGetc_pipe {r : Bool} (hin : σ.inFile = none) (hr : σ.pipeReader = some r) :
    σ.shGetc = some ((σ.pipes r).bytes[σ.pipeInOff]?.elim ((-1 : Int), σ) fun c =>
      ((c.toNat : Int), { σ with pipeInOff := σ.pipeInOff + 1 })) := by
  rw [shGetc, hin]
  simp only [hr]
  cases (σ.pipes r).bytes[σ.pipeInOff]? with
  | none => rfl
  | some c => rfl

/-- A stage of a pipeline is given what is in the pipe. -/
theorem delivers_pipe {r : Bool} (hin : σ.inFile = none) (hr : σ.pipeReader = some r)
    (h : (σ.pipes r).bytes.drop σ.pipeInOff = text) :
    ∃ off, σ.Delivers (text.map fun c => lowByte c.toNat) { σ with pipeInOff := off } := by
  have hget := shGetc_pipe hin hr
  rw [← List.head?_drop, h] at hget
  induction text generalizing σ with
  | nil => exact ⟨σ.pipeInOff, .last hget (by decide)⟩
  | cons c text ih =>
    have hdrop : (σ.pipes r).bytes.drop (σ.pipeInOff + 1) = text := by
      rw [← List.tail_drop, h]
      rfl
    have hnext := shGetc_pipe (σ := { σ with pipeInOff := σ.pipeInOff + 1 }) hin hr
    rw [← List.head?_drop, hdrop] at hnext
    obtain ⟨off, D⟩ := ih (σ := { σ with pipeInOff := σ.pipeInOff + 1 }) hin hr hdrop hnext
    exact ⟨off, .byte hget (Int.natCast_nonneg _) D⟩

end Shell

end BojanOS
