import BojanOS.Dev.Descriptors

/-!
# The interrupt stubs (`isr.S`)

A stub completes what the processor has pushed to a `regs_t`, calls `isr_handler` and goes back to
where the interrupt came from. `PUSHAQ` pushes `%r15` first, so it is the last of the general
registers in memory, and the fields of `regs_t` name them in the opposite order.
-/

namespace BojanOS

open X86

/-- The vectors of `ISR_ERR`. -/
def isrErr (v : Nat) : Bool := v ∈ [8, 10, 11, 12, 13, 14, 17, 30]

/-- `PUSHAQ` -/
def pushaq : List Reg :=
  [.r15, .r14, .r13, .r12, .r11, .r10, .r9, .r8, .rbp, .rdi, .rsi, .rdx, .rcx, .rbx, .rax]

/-- `POPAQ` -/
def popaq : List Reg :=
  [.rax, .rbx, .rcx, .rdx, .rsi, .rdi, .rbp, .r8, .r9, .r10, .r11, .r12, .r13, .r14, .r15]

/-- `ISR_NOERR v` or `ISR_ERR v`. -/
def isrStub (v : Nat) (c : Cpu) : Cpu :=
  if isrErr v then c.push (BitVec.ofNat 64 v) else (c.push 0).push (BitVec.ofNat 64 v)

/-- DF, which `cld` clears. -/
def directionFlag : BitVec 64 := 0x400#64

/-- `isr_common` in front of the call. -/
def isrEnter (c : Cpu) : Cpu :=
  let c := c.pushRegs pushaq
  { c with reg := Function.update c.reg .rdi c.rsp, rflags := c.rflags &&& ~~~directionFlag }

/-- `isr_common` behind the call. -/
def isrLeave (c : Cpu) : Cpu := ((c.popRegs popaq).drop 2).iretq

structure Regs where
  r15 : BitVec 64
  r14 : BitVec 64
  r13 : BitVec 64
  r12 : BitVec 64
  r11 : BitVec 64
  r10 : BitVec 64
  r9 : BitVec 64
  r8 : BitVec 64
  rbp : BitVec 64
  rdi : BitVec 64
  rsi : BitVec 64
  rdx : BitVec 64
  rcx : BitVec 64
  rbx : BitVec 64
  rax : BitVec 64
  vec : BitVec 64
  err : BitVec 64
  rip : BitVec 64
  cs : BitVec 64
  rflags : BitVec 64
  rsp : BitVec 64
  ss : BitVec 64

namespace Regs

/-- The record at the address `p`. -/
def load (mem : BitVec 64 → BitVec 64) (p : BitVec 64) : Regs :=
  let field (i : Nat) := mem (p + BitVec.ofNat 64 (8 * i))
  { r15 := field 0, r14 := field 1, r13 := field 2, r12 := field 3, r11 := field 4, r10 := field 5
    r9 := field 6, r8 := field 7, rbp := field 8, rdi := field 9, rsi := field 10, rdx := field 11
    rcx := field 12, rbx := field 13, rax := field 14, vec := field 15, err := field 16
    rip := field 17, cs := field 18, rflags := field 19, rsp := field 20, ss := field 21 }

/-- The fields of the general registers, in the order of the structure. -/
def general (r : Regs) : List (BitVec 64) :=
  [r.r15, r.r14, r.r13, r.r12, r.r11, r.r10, r.r9, r.r8, r.rbp, r.rdi, r.rsi, r.rdx, r.rcx, r.rbx,
    r.rax]

/-- What the processor has pushed, from the top of the stack. -/
def frame (r : Regs) : List (BitVec 64) := [r.rip, r.cs, r.rflags, r.rsp, r.ss]

/-- The number of the fields. -/
def COUNT : Nat := 22

theorem load_stack (c : Cpu) : c.stack COUNT = (load c.mem c.rsp).general ++
    ((load c.mem c.rsp).vec :: (load c.mem c.rsp).err :: (load c.mem c.rsp).frame) := rfl

end Regs

/-- What the calling convention and the body of `isr_handler` promise: the stack pointer is back, and
the record has not been written to. -/
def Returns (handler : Cpu → Cpu) : Prop :=
  ∀ d, (handler d).rsp = d.rsp ∧ (handler d).stack Regs.COUNT = d.stack Regs.COUNT

variable {c d : Cpu} {v : Nat} {err : Option (BitVec 64)} {l : List (BitVec 64)}

theorem pushaq_reverse : pushaq.reverse = popaq := by decide

theorem mem_popaq (r : Reg) : r ∈ popaq := by cases r <;> decide

theorem hasError_eq : ∀ v < 48, v ≠ 21 ∧ v ≠ 29 → hasError v = isrErr v := by decide

/-- Behind the stub there is an error code under the vector. -/
theorem isrStub_stack (herr : err.isSome = isrErr v) (offset : BitVec 64) (cs : BitVec 16)
    (c : Cpu) : (isrStub v (c.interrupt offset cs err)).stack 7 =
      BitVec.ofNat 64 v :: err.getD 0 :: c.frame.reverse := by
  have hstack := Cpu.stack_interrupt offset cs err c
  rw [isrStub, ← herr]
  cases err with
  | none =>
    have hzero : ((c.interrupt offset cs none).push 0).stack 6 = 0 :: c.frame.reverse :=
      (Cpu.stack_push (by decide) _ _).trans (congrArg _ hstack)
    exact (Cpu.stack_push (by decide) _ _).trans (congrArg _ hzero)
  | some e => exact (Cpu.stack_push (by decide) _ _).trans (congrArg _ hstack)

theorem isrStub_reg (v : Nat) (c : Cpu) : (isrStub v c).reg = c.reg := by
  rw [isrStub]
  split <;> rfl

theorem isrEnter_rdi (c : Cpu) : (isrEnter c).reg .rdi = (isrEnter c).rsp := by
  rw [isrEnter]
  generalize c.pushRegs pushaq = d
  exact Function.update_self Reg.rdi d.rsp d.reg

/-- The record that `isr_common` passes on. -/
theorem isrEnter_stack (h : c.stack 7 = l) :
    (isrEnter c).stack Regs.COUNT = popaq.map c.reg ++ l := by
  have hlen : (pushaq.map c.reg).length + 7 = Regs.COUNT := by
    rw [List.length_map]
    rfl
  have hpush : (c.pushRegs pushaq).stack Regs.COUNT = (pushaq.map c.reg).reverse ++ c.stack 7 := by
    rw [Cpu.pushRegs_eq, ← hlen]
    exact Cpu.stack_pushAll _ _ (hlen ▸ by decide)
  rw [← List.map_reverse, pushaq_reverse, h] at hpush
  rw [isrEnter, ← hpush]
  generalize c.pushRegs pushaq = d
  exact Cpu.stack_congr rfl rfl

/-- `POPAQ` and `iretq` find what was pushed. -/
theorem isrLeave_eq {vec e : BitVec 64}
    (h : d.stack Regs.COUNT = popaq.map c.reg ++ (vec :: e :: c.frame.reverse)) :
    isrLeave d = { c with mem := d.mem } := by
  have hlen : popaq.length + 7 = Regs.COUNT := rfl
  obtain ⟨hreg, hstack, hother, -⟩ := Cpu.popRegs_spec (hlen ▸ h)
  have hall : (d.popRegs popaq).reg = c.reg := funext fun r => by
    rw [hreg, if_pos (mem_popaq r)]
  have hmem : (d.popRegs popaq).mem = d.mem := by rw [hother]
  have hframe : ((d.popRegs popaq).drop 2).stack 5 = c.frame.reverse := by
    have hsplit := Cpu.stack_add (d.popRegs popaq) 2 5
    rw [hstack] at hsplit
    have hsplit : [vec, e] ++ c.frame.reverse = _ := hsplit
    exact (List.append_inj' hsplit rfl).2.symm
  rw [isrLeave, Cpu.iretq_frame hframe hall]
  exact congrArg (fun m => { c with mem := m }) hmem

/-- Each of the 48 interrupts, apart from two exceptions whose error code the stubs do not expect,
enters its stub at level 0 with the interrupts off. `isr_handler` finds the vector, the error code
and the frame of the processor in their fields, and the general registers in the opposite order. It
returns to a processor that differs from the interrupted one in its memory only. -/
theorem isr_transparent (stubs : Nat → BitVec 64) (c : Cpu) (v : Nat) (err : Option (BitVec 64))
    (handler : Cpu → Cpu) (hv : v < 48) (hown : v ≠ 21 ∧ v ≠ 29) (herr : err.isSome = hasError v)
    (hret : Returns handler) :
    ∃ d, deliver (idt stubs) idtLimit gdt gdtLimit v err c = some d ∧ d.rip = stubs v ∧
      d.cs = 0x08#16 ∧ d.rflags.getLsbD 9 = false ∧
      (let r := Regs.load (isrEnter (isrStub v d)).mem ((isrEnter (isrStub v d)).reg .rdi)
      r.vec = BitVec.ofNat 64 v ∧ r.err = err.getD 0 ∧
        r.frame = [c.rip, c.cs.setWidth 64, c.rflags, c.rsp, c.ss.setWidth 64] ∧
        r.general = pushaq.reverse.map c.reg) ∧
      isrLeave (handler (isrEnter (isrStub v d))) =
        { c with mem := (handler (isrEnter (isrStub v d))).mem } := by
  have hconv : err.isSome = isrErr v := herr.trans (hasError_eq v hv hown)
  refine ⟨c.interrupt (stubs v) 0x08#16 err, ?_, rfl, rfl, ?_, ?_, ?_⟩
  · rw [deliver_stub, if_pos hv]
  · have hflag : (~~~Cpu.gateFlags).getLsbD 9 = false := by decide
    show (c.rflags &&& ~~~Cpu.gateFlags).getLsbD 9 = false
    rw [BitVec.getLsbD_and, hflag, Bool.and_false]
  all_goals
    have hrdi := isrEnter_rdi (isrStub v (c.interrupt (stubs v) 0x08#16 err))
    have hstack := isrEnter_stack (isrStub_stack hconv (stubs v) 0x08#16 c)
    rw [isrStub_reg, Cpu.interrupt_reg] at hstack
    generalize isrEnter (isrStub v (c.interrupt (stubs v) 0x08#16 err)) = d at hrdi hstack ⊢
  · -- the fields are the quadwords of the stack
    rw [Regs.load_stack d] at hstack
    obtain ⟨hgeneral, hrest⟩ := List.append_inj hstack rfl
    obtain ⟨hvec, hrest⟩ := List.cons.inj hrest
    obtain ⟨herror, hframe⟩ := List.cons.inj hrest
    rw [hrdi, pushaq_reverse]
    exact ⟨hvec, herror, hframe, hgeneral⟩
  · obtain ⟨-, hsame⟩ := hret d
    exact isrLeave_eq (hsame.trans hstack)

/-- Somewhere in the kernel, with the interrupts on and a number in each register. -/
def kernelCpu : Cpu where
  reg r := BitVec.ofNat 64 (pushaq.idxOf r + 1)
  rsp := 0x90F08#64
  rip := 0x101234#64
  cs := 0x08#16
  ss := 0x10#16
  rflags := 0x202#64
  mem _ := 0

/-- A page fault, with a handler that does nothing: the field `r15` holds what was in `%rax`, and so
on down to the field `rax`. -/
theorem isr_transparent_pageFault :
    ∃ d, deliver (idt fun v => BitVec.ofNat 64 (0x100000 + 16 * v)) idtLimit gdt gdtLimit 14
        (some 2#64) kernelCpu = some d ∧ d.rip = BitVec.ofNat 64 (0x100000 + 16 * 14) ∧
      d.cs = 0x08#16 ∧ d.rflags.getLsbD 9 = false ∧
      (let r := Regs.load (isrEnter (isrStub 14 d)).mem ((isrEnter (isrStub 14 d)).reg .rdi)
      r.vec = 14#64 ∧ r.err = 2#64 ∧
        r.frame = [0x101234#64, 0x08#64, 0x202#64, 0x90F08#64, 0x10#64] ∧
        r.general = [15#64, 14#64, 13#64, 12#64, 11#64, 10#64, 9#64, 8#64, 7#64, 6#64, 5#64, 4#64,
          3#64, 2#64, 1#64]) ∧
      isrLeave (id (isrEnter (isrStub 14 d))) =
        { kernelCpu with mem := (id (isrEnter (isrStub 14 d))).mem } := by
  have hgeneral : pushaq.reverse.map kernelCpu.reg = [15#64, 14#64, 13#64, 12#64, 11#64, 10#64,
      9#64, 8#64, 7#64, 6#64, 5#64, 4#64, 3#64, 2#64, 1#64] := by decide
  have H := isr_transparent (fun v => BitVec.ofNat 64 (0x100000 + 16 * v)) kernelCpu 14 (some 2#64)
    id (by decide) (by decide) rfl fun _ => ⟨rfl, rfl⟩
  rw [hgeneral] at H
  exact H

end BojanOS
