import BojanOS.Lib.Bytes

/-!
# Interrupts of a 64-bit processor

The descriptors of segments and gates as the processor reads them from their tables, the frame that
it pushes when it takes an interrupt, and `iretq`. The stack is seen in quadwords, so all addresses
of one stack have to agree modulo 8.
-/

namespace X86

open Bytes

inductive Reg where
  | rax | rbx | rcx | rdx | rsi | rdi | rbp
  | r8 | r9 | r10 | r11 | r12 | r13 | r14 | r15
  deriving DecidableEq

structure Cpu where
  reg : Reg → BitVec 64
  rsp : BitVec 64
  rip : BitVec 64
  cs : BitVec 16
  ss : BitVec 16
  rflags : BitVec 64
  /-- The quadword at an address. -/
  mem : BitVec 64 → BitVec 64

namespace Cpu

variable {c : Cpu} {n : Nat} {v : BitVec 64} {l : List (BitVec 64)} {r : Reg} {rs : List Reg}
  {f : Reg → BitVec 64}

/-! ## The stack -/

def push (v : BitVec 64) (c : Cpu) : Cpu :=
  { c with rsp := c.rsp - 8#64, mem := Function.update c.mem (c.rsp - 8#64) v }

/-- The quadword `i` places above the one that the stack pointer points to. -/
def word (c : Cpu) (i : Nat) : BitVec 64 := c.mem (c.rsp + BitVec.ofNat 64 (8 * i))

/-- The `n` quadwords from the stack pointer upwards. -/
def stack (c : Cpu) (n : Nat) : List (BitVec 64) := (List.range n).map c.word

/-- `addq $(8 * n), %rsp` -/
def drop (n : Nat) (c : Cpu) : Cpu := { c with rsp := c.rsp + BitVec.ofNat 64 (8 * n) }

def pushReg (r : Reg) (c : Cpu) : Cpu := c.push (c.reg r)

def popReg (r : Reg) (c : Cpu) : Cpu :=
  { c with reg := Function.update c.reg r (c.word 0), rsp := c.rsp + 8#64 }

def pushAll (l : List (BitVec 64)) (c : Cpu) : Cpu := l.foldl (fun c v => c.push v) c

def pushRegs (rs : List Reg) (c : Cpu) : Cpu := rs.foldl (fun c r => c.pushReg r) c

def popRegs (rs : List Reg) (c : Cpu) : Cpu := rs.foldl (fun c r => c.popReg r) c

theorem word_zero (c : Cpu) : c.word 0 = c.mem c.rsp := congrArg c.mem (BitVec.add_zero _)

theorem word_drop (c : Cpu) (k i : Nat) : (c.drop k).word i = c.word (k + i) := by
  have haddr : c.rsp + BitVec.ofNat 64 (8 * k) + BitVec.ofNat 64 (8 * i) =
      c.rsp + BitVec.ofNat 64 (8 * (k + i)) := by
    rw [BitVec.add_assoc, Nat.mul_add, BitVec.ofNat_add]
  exact congrArg c.mem haddr

theorem stack_congr {d : Cpu} (hmem : c.mem = d.mem) (hrsp : c.rsp = d.rsp) :
    c.stack n = d.stack n := by
  refine List.map_congr_left fun i _ => ?_
  rw [word, word, hmem, hrsp]

theorem stack_succ (c : Cpu) (n : Nat) : c.stack (n + 1) = c.word 0 :: (c.drop 1).stack n := by
  rw [stack, List.range_succ_eq_map, List.map_cons, List.map_map, stack]
  refine congrArg _ (List.map_congr_left fun i _ => ?_)
  rw [word_drop, Nat.add_comm]
  rfl

theorem stack_getElem? (h : n < k) : (stack c k)[n]? = some (c.word n) := by
  rw [stack, List.getElem?_map, List.getElem?_range h]
  rfl

theorem stack_add (c : Cpu) (k n : Nat) : c.stack (k + n) = c.stack k ++ (c.drop k).stack n := by
  rw [stack, List.range_add, List.map_append, List.map_map]
  refine congrArg _ (List.map_congr_left fun i _ => ?_)
  rw [word_drop]
  rfl

/-- Nothing above the stack pointer is overwritten, unless the stack fills the address space. -/
theorem stack_push (hn : n < 2 ^ 61 - 1) (v : BitVec 64) (c : Cpu) :
    (c.push v).stack (n + 1) = v :: c.stack n := by
  have haddr : ∀ i, c.rsp - 8#64 + BitVec.ofNat 64 (8 * (i + 1)) =
      c.rsp + BitVec.ofNat 64 (8 * i) := by
    intro i
    rw [Nat.mul_succ, Nat.add_comm, BitVec.ofNat_add, ← BitVec.add_assoc, BitVec.sub_add_cancel]
  have hne : ∀ i < n, c.rsp + BitVec.ofNat 64 (8 * i) ≠ c.rsp - 8#64 := by
    intro i hi h
    have h' := congrArg BitVec.toNat h
    rw [BitVec.toNat_add, BitVec.toNat_sub, BitVec.toNat_ofNat, BitVec.toNat_ofNat] at h'
    have := c.rsp.isLt
    omega
  rw [stack_succ, word_zero]
  congr 1
  · exact Function.update_self ..
  · refine List.map_congr_left fun i hi => ?_
    rw [word_drop, word, Nat.add_comm 1 i]
    refine (congrArg (c.push v).mem (haddr i)).trans ?_
    exact Function.update_of_ne (hne i (List.mem_range.mp hi)) _ _

theorem stack_pushAll (l : List (BitVec 64)) (c : Cpu) (hn : l.length + n < 2 ^ 61) :
    (c.pushAll l).stack (l.length + n) = l.reverse ++ c.stack n := by
  induction l generalizing c n with
  | nil => rw [List.length_nil, Nat.zero_add]; rfl
  | cons v l ih =>
    rw [List.length_cons] at hn
    have hlen : (v :: l).length + n = l.length + (n + 1) := by
      rw [List.length_cons]
      omega
    have hpush : (c.push v).stack (n + 1) = v :: c.stack n := stack_push (by omega) v c
    rw [hlen, pushAll, List.foldl_cons]
    refine (ih (c.push v) (by omega)).trans ?_
    rw [hpush, List.reverse_cons, List.append_assoc]
    rfl

/-! ## Registers on the stack -/

@[simp] theorem pushReg_reg (r : Reg) (c : Cpu) : (c.pushReg r).reg = c.reg := rfl

@[simp] theorem popReg_reg (r : Reg) (c : Cpu) :
    (c.popReg r).reg = Function.update c.reg r (c.word 0) := rfl

theorem pushRegs_eq (rs : List Reg) (c : Cpu) : c.pushRegs rs = c.pushAll (rs.map c.reg) := by
  induction rs generalizing c with
  | nil => rfl
  | cons r rs ih => exact ih (c.pushReg r)

/-- What `popRegs` leaves behind. -/
theorem popRegs_spec (h : c.stack (rs.length + n) = rs.map f ++ l) :
    (∀ r, (c.popRegs rs).reg r = if r ∈ rs then f r else c.reg r) ∧
      (c.popRegs rs).stack n = l ∧
      c.popRegs rs = { c with reg := (c.popRegs rs).reg, rsp := (c.popRegs rs).rsp } ∧
      (c.popRegs rs).rsp = c.rsp + BitVec.ofNat 64 (8 * rs.length) := by
  induction rs generalizing c with
  | nil =>
    refine ⟨fun r => ?_, ?_, rfl, ?_⟩
    · simp [popRegs]
    · simpa [popRegs] using h
    · simp [popRegs]
  | cons r rs ih =>
    have hlen : (r :: rs).length + n = rs.length + n + 1 := by
      rw [List.length_cons]
      omega
    rw [hlen, stack_succ, List.map_cons, List.cons_append] at h
    obtain ⟨hword, hrest⟩ := List.cons.inj h
    have hmem : (c.popReg r).stack (rs.length + n) = rs.map f ++ l := by
      rw [← hrest]
      rfl
    obtain ⟨hreg, hstack, hother, hrsp⟩ := ih hmem
    refine ⟨fun r' => ?_, hstack, hother, ?_⟩
    · rw [popRegs, List.foldl_cons]
      refine (hreg r').trans ?_
      by_cases hin : r' ∈ rs
      · rw [if_pos hin, if_pos (List.mem_cons_of_mem _ hin)]
      · by_cases hr : r' = r
        · subst hr
          rw [if_neg hin, if_pos List.mem_cons_self, popReg_reg, Function.update_self, hword]
        · rw [if_neg hin, if_neg (List.not_mem_cons_of_ne_of_not_mem hr hin), popReg_reg,
            Function.update_of_ne hr]
    · refine hrsp.trans ?_
      have hsum : 8 * (r :: rs).length = 8 + 8 * rs.length := by
        rw [List.length_cons]
        omega
      rw [popReg, BitVec.add_assoc, hsum, BitVec.ofNat_add]

/-! ## Taking an interrupt and returning from it -/

/-- The flags that an interrupt gate clears: TF, IF, NT, RF and VM. -/
def gateFlags : BitVec 64 := 0x34300#64

/-- What the processor pushes, besides an error code. -/
def frame (c : Cpu) : List (BitVec 64) :=
  [c.ss.setWidth 64, c.rsp, c.rflags, c.cs.setWidth 64, c.rip]

/-- An interrupt without a change of the privilege level. -/
def interrupt (offset : BitVec 64) (selector : BitVec 16) (err : Option (BitVec 64)) (c : Cpu) :
    Cpu :=
  let pushed := { c with rsp := c.rsp &&& ~~~15#64 }.pushAll (c.frame ++ err.toList)
  { pushed with rip := offset, cs := selector, rflags := c.rflags &&& ~~~gateFlags }

theorem pushAll_reg (l : List (BitVec 64)) (c : Cpu) : (c.pushAll l).reg = c.reg := by
  induction l generalizing c with
  | nil => rfl
  | cons v l ih => exact ih (c.push v)

@[simp] theorem interrupt_reg (offset : BitVec 64) (selector : BitVec 16)
    (err : Option (BitVec 64)) (c : Cpu) : (c.interrupt offset selector err).reg = c.reg :=
  pushAll_reg _ _

def iretq (c : Cpu) : Cpu :=
  { c with
    rip := c.word 0
    cs := (c.word 1).setWidth 16
    rflags := c.word 2
    rsp := c.word 3
    ss := (c.word 4).setWidth 16 }

theorem stack_interrupt (offset : BitVec 64) (selector : BitVec 16) (err : Option (BitVec 64))
    (c : Cpu) : (c.interrupt offset selector err).stack (err.toList.length + 5) =
      err.toList ++ c.frame.reverse := by
  have hlen : (c.frame ++ err.toList).length + 0 = err.toList.length + 5 := by
    rw [Nat.add_zero, List.length_append]
    exact Nat.add_comm _ _
  have hfits : (c.frame ++ err.toList).length + 0 < 2 ^ 61 := by
    rw [hlen]
    cases err <;> simp
  have hstack := stack_pushAll (c.frame ++ err.toList) { c with rsp := c.rsp &&& ~~~15#64 } hfits
  rw [hlen] at hstack
  refine hstack.trans ?_
  have herr : err.toList.reverse = err.toList := by cases err <;> rfl
  rw [List.reverse_append, herr]
  exact List.append_nil _

/-- A processor that finds the frame of `c` again goes on as `c` does. -/
theorem iretq_frame {d : Cpu} (h : d.stack 5 = c.frame.reverse) (hreg : d.reg = c.reg) :
    d.iretq = { c with mem := d.mem } := by
  have hword : ∀ i, i < 5 → some (d.word i) = c.frame.reverse[i]? := fun i hi =>
    h ▸ (stack_getElem? hi).symm
  have h0 : d.word 0 = c.rip := Option.some.inj (hword 0 (by decide))
  have h1 : d.word 1 = c.cs.setWidth 64 := Option.some.inj (hword 1 (by decide))
  have h2 : d.word 2 = c.rflags := Option.some.inj (hword 2 (by decide))
  have h3 : d.word 3 = c.rsp := Option.some.inj (hword 3 (by decide))
  have h4 : d.word 4 = c.ss.setWidth 64 := Option.some.inj (hword 4 (by decide))
  have hback : ∀ s : BitVec 16, (s.setWidth 64).setWidth 16 = s := fun s =>
    BitVec.setWidth_setWidth_of_le s (by decide)
  rw [iretq, h0, h1, h2, h3, h4, hback, hback, hreg]

end Cpu

/-! ## Descriptors -/

structure Segment where
  base : Nat
  limit : Nat
  access : Nat
  flags : Nat
  deriving DecidableEq

/-- The eight bytes of a segment descriptor. -/
def segmentOf (d : List UInt8) : Segment where
  base := leVal (slice d 2 2) + 2 ^ 16 * leVal (slice d 4 1) + 2 ^ 24 * leVal (slice d 7 1)
  limit := leVal (slice d 0 2) + 2 ^ 16 * (leVal (slice d 6 1) % 16)
  access := leVal (slice d 5 1)
  flags := leVal (slice d 6 1) / 16

namespace Segment

def present (s : Segment) : Bool := s.access / 128 % 2 = 1

def dpl (s : Segment) : Nat := s.access / 32 % 4

/-- A code segment, not one of the system. -/
def code (s : Segment) : Bool := s.access / 16 % 2 = 1 ∧ s.access / 8 % 2 = 1

def writable (s : Segment) : Bool := s.access / 16 % 2 = 1 ∧ s.access / 8 % 2 = 0 ∧ s.access / 2 % 2 = 1

/-- The flag L without the flag D. -/
def long (s : Segment) : Bool := s.flags / 2 % 2 = 1 ∧ s.flags / 4 % 2 = 0

end Segment

structure Gate where
  offset : Nat
  selector : Nat
  ist : Nat
  flags : Nat
  deriving DecidableEq

/-- The sixteen bytes of a gate. -/
def gateOf (d : List UInt8) : Gate where
  offset := leVal (slice d 0 2) + 2 ^ 16 * leVal (slice d 6 2) + 2 ^ 32 * leVal (slice d 8 4)
  selector := leVal (slice d 2 2)
  ist := leVal (slice d 4 1) % 8
  flags := leVal (slice d 5 1)

namespace Gate

def present (g : Gate) : Bool := g.flags / 128 % 2 = 1

/-- The type of a 64-bit interrupt gate, which clears the interrupt flag. -/
def interrupt (g : Gate) : Bool := g.flags % 32 = 14

end Gate

/-- The descriptor with the number `i` in a table with entries of `size` bytes, if the limit allows
for it. -/
def descriptor (table : List UInt8) (limit size i : Nat) : Option (List UInt8) :=
  if size * i + (size - 1) ≤ limit then some (slice table (size * i) size) else none

/-- The segment of a selector; the first entry of the table is not used, and there is no local
table. -/
def segmentAt (gdt : List UInt8) (limit selector : Nat) : Option Segment :=
  if selector / 4 % 2 = 1 ∨ selector / 8 = 0 then none
  else ((descriptor gdt limit 8 (selector / 8)).map segmentOf).filter Segment.present

def gateAt (idt : List UInt8) (limit v : Nat) : Option Gate :=
  ((descriptor idt limit 16 v).map gateOf).filter Gate.present

/-- The exceptions with an error code. -/
def hasError (v : Nat) : Bool := v ∈ [8, 10, 11, 12, 13, 14, 17, 21, 29, 30]

/-- The interrupt `v` of a processor at level 0, through an interrupt gate to 64-bit code of level 0;
everything else has no result here. -/
def deliver (idt : List UInt8) (idtLimit : Nat) (gdt : List UInt8) (gdtLimit v : Nat)
    (err : Option (BitVec 64)) (c : Cpu) : Option Cpu := do
  let g ← gateAt idt idtLimit v
  let s ← segmentAt gdt gdtLimit g.selector
  if g.interrupt ∧ g.ist = 0 ∧ s.code ∧ s.long ∧ s.dpl = 0 then
    some (c.interrupt (BitVec.ofNat 64 g.offset) (BitVec.ofNat 16 g.selector) err)
  else none

/-! ## Rules for tables -/

variable {α : Type} {f : α → List UInt8} {l : List α} {a : α} {size limit i : Nat}

/-- A table of entries of one size. -/
theorem descriptor_flatMap (hf : ∀ a, (f a).length = size) (ha : l[i]? = some a)
    (hi : size * i + (size - 1) ≤ limit) : descriptor (l.flatMap f) limit size i = some (f a) := by
  have hlen : ∀ l : List α, (l.flatMap f).length = size * l.length := by
    intro l
    induction l with
    | nil => rfl
    | cons b l ih =>
      rw [List.flatMap_cons, List.length_append, hf, ih, List.length_cons, Nat.mul_succ, Nat.add_comm]
  obtain ⟨hlt, rfl⟩ := List.getElem?_eq_some_iff.mp ha
  have hsplit : l = l.take i ++ l[i] :: l.drop (i + 1) := by
    rw [← List.drop_eq_getElem_cons hlt, List.take_append_drop]
  have hbytes : l.flatMap f =
      (l.take i).flatMap f ++ (f l[i] ++ (l.drop (i + 1)).flatMap f) := by
    conv_lhs => rw [hsplit]
    rw [List.flatMap_append, List.flatMap_cons]
  have hpre : ((l.take i).flatMap f).length = size * i := by
    rw [hlen, List.length_take, Nat.min_eq_left hlt.le]
  rw [descriptor, if_pos hi, hbytes, slice_append hpre (hf _)]

end X86
