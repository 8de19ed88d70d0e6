import BojanOS.Lib.Pic8259

/-!
# The interrupt controllers (`pic.c`)

What `pic.c` writes to the ports of the two controllers. After `pic_init` the lines have the vectors
32 to 47 and are masked.
-/

namespace BojanOS

open Pic8259

namespace Pic

def outb (port : Nat) (v : BitVec 8) (p : Pair) : Pair :=
  if port = 0x20 then { p with master := p.master.command v }
  else if port = 0xA0 then { p with slave := p.slave.command v }
  else if port = 0x21 then { p with master := p.master.data v }
  else if port = 0xA1 then { p with slave := p.slave.data v }
  else p

/-- The data ports show the masks. -/
def inb (port : Nat) (p : Pair) : BitVec 8 := if port = 0x21 then p.master.imr else p.slave.imr

def outs (l : List (Nat × BitVec 8)) (p : Pair) : Pair := l.foldl (fun p w => outb w.1 w.2 p) p

/-- `io_wait` writes to a port that nobody listens to. -/
def ioWait : Nat × BitVec 8 := (0x80, 0)

def picInit : List (Nat × BitVec 8) :=
  [(0x20, 0x11#8), ioWait, (0xA0, 0x11#8), ioWait, (0x21, 0x20#8), ioWait, (0xA1, 0x28#8), ioWait,
    (0x21, 0x04#8), ioWait, (0xA1, 0x02#8), ioWait, (0x21, 0x01#8), ioWait, (0xA1, 0x01#8), ioWait,
    (0x21, 0xFF#8), (0xA1, 0xFF#8)]

def picEoi (irq : Nat) : List (Nat × BitVec 8) :=
  (if 8 ≤ irq then [(0xA0, 0x20#8)] else []) ++ [(0x20, 0x20#8)]

def picUnmask (irq : Nat) (p : Pair) : Pair :=
  let port := if irq < 8 then 0x21 else 0xA1
  let irq := if 8 ≤ irq then irq - 8 else irq
  outb port (inb port p &&& ~~~line irq) p

def picMask (irq : Nat) (p : Pair) : Pair :=
  let port := if irq < 8 then 0x21 else 0xA1
  let irq := if 8 ≤ irq then irq - 8 else irq
  outb port (inb port p ||| line irq) p

/-- The controllers as `pic_init` has set them up. -/
structure Ready (p : Pair) : Prop where
  master : p.master.expects = .mask
  slave : p.slave.expects = .mask
  masterOffset : p.master.offset = 0x20#8
  slaveOffset : p.slave.offset = 0x28#8
  linked : p.linked = true

variable {p : Pair} {q r : Nat}

theorem picInit_ready (p : Pair) : Ready (outs picInit p) where
  master := rfl
  slave := rfl
  masterOffset := rfl
  slaveOffset := rfl
  linked := by
    show decide ((0x04#8).getLsbD 2 = true ∧ 0x02#8 = 2#8) = true
    rfl

theorem picInit_idle (p : Pair) : (outs picInit p).Idle := ⟨rfl, rfl⟩

theorem picInit_requested (p : Pair) (q : Nat) : (outs picInit p).requested q = false := by
  have hm : (outs picInit p).master.irr = 0 := rfl
  have hs : (outs picInit p).slave.irr = 0 := rfl
  rw [Pair.requested, hm, hs]
  simp

/-- Line `q` of the two has the vector `32 + q`. -/
theorem Ready.vector (R : Ready p) (q : Nat) : p.vector q = 32 + q := by
  rw [Pair.vector, R.masterOffset, R.slaveOffset]
  split
  · rfl
  · show 40 + (q - 8) = 32 + q
    omega

theorem picUnmask_cases (R : Ready p) (q : Nat) : picUnmask q p =
    if q < 8 then { p with master.imr := p.master.imr &&& ~~~line q }
    else { p with slave.imr := p.slave.imr &&& ~~~line (q - 8) } := by
  rw [picUnmask]
  split_ifs with hq h8
  · omega
  · show { p with master := p.master.data (p.master.imr &&& ~~~line q) } = _
    rw [Chip.data_mask R.master]
  · show { p with slave := p.slave.data (p.slave.imr &&& ~~~line (q - 8)) } = _
    rw [Chip.data_mask R.slave]
  · omega

theorem picMask_cases (R : Ready p) (q : Nat) : picMask q p =
    if q < 8 then { p with master.imr := p.master.imr ||| line q }
    else { p with slave.imr := p.slave.imr ||| line (q - 8) } := by
  rw [picMask]
  split_ifs with hq h8
  · omega
  · show { p with master := p.master.data (p.master.imr ||| line q) } = _
    rw [Chip.data_mask R.master]
  · show { p with slave := p.slave.data (p.slave.imr ||| line (q - 8)) } = _
    rw [Chip.data_mask R.slave]
  · omega

/-- Only the masks change. -/
theorem picUnmask_keeps (R : Ready p) (q : Nat) :
    (∀ r, (picUnmask q p).requested r = p.requested r) ∧
      (picUnmask q p).master.isr = p.master.isr ∧ (picUnmask q p).slave.isr = p.slave.isr := by
  rw [picUnmask_cases R]
  split_ifs <;> exact ⟨fun _ => rfl, rfl, rfl⟩

theorem picMask_keeps (R : Ready p) (q : Nat) :
    (∀ r, (picMask q p).requested r = p.requested r) ∧
      (picMask q p).master.isr = p.master.isr ∧ (picMask q p).slave.isr = p.slave.isr := by
  rw [picMask_cases R]
  split_ifs <;> exact ⟨fun _ => rfl, rfl, rfl⟩

theorem outb_master (h : Alone p.master.isr) :
    outb 0x20 0x20#8 p = { p with master.isr := 0 } := by
  show { p with master := p.master.endOfInterrupt } = _
  rw [Chip.endOfInterrupt_alone h]

theorem outb_slave (h : Alone p.slave.isr) : outb 0xA0 0x20#8 p = { p with slave.isr := 0 } := by
  show { p with slave := p.slave.endOfInterrupt } = _
  rw [Chip.endOfInterrupt_alone h]

/-- What only concerns requests, masks and the lines in service leaves the set-up alone. -/
theorem Ready.congr {p' : Pair} (R : Ready p)
    (hm : p'.master = { p.master with
      irr := p'.master.irr, isr := p'.master.isr, imr := p'.master.imr })
    (hs : p'.slave = { p.slave with
      irr := p'.slave.irr, isr := p'.slave.isr, imr := p'.slave.imr }) : Ready p' where
  master := hm ▸ R.master
  slave := hs ▸ R.slave
  masterOffset := hm ▸ R.masterOffset
  slaveOffset := hs ▸ R.slaveOffset
  linked := by
    rw [Pair.linked, hm, hs]
    exact R.linked

theorem Ready.raise (R : Ready p) (q : Nat) : Ready (p.raise q) := by
  rw [Pair.raise]
  split_ifs <;> exact R.congr rfl rfl

theorem Ready.serve (R : Ready p) (q : Nat) : Ready (p.serve q) := by
  rw [Pair.serve]
  split_ifs <;> exact R.congr rfl rfl

theorem Ready.unmask (R : Ready p) (q : Nat) : Ready (picUnmask q p) := by
  rw [picUnmask_cases R]
  split_ifs <;> exact R.congr rfl rfl

theorem Ready.mask (R : Ready p) (q : Nat) : Ready (picMask q p) := by
  rw [picMask_cases R]
  split_ifs <;> exact R.congr rfl rfl

end Pic

end BojanOS
