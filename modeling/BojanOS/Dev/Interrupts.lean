import BojanOS.Dev.Pic
import BojanOS.Dev.Scancodes

/-!
# Interrupts (`isr_handler`, `timer.c`)

The devices raise their lines, the processor takes an interrupt between two instructions of the
program that runs, and `isr_handler` works through a list of steps; a device may raise its line
between any two of them. The vector reaches `isr_handler` through the stubs (`isr_transparent`).

Ticks of the timer and bytes of the keyboard are counted in the record of the run.
-/

namespace BojanOS

open Pic8259 Trace

namespace Isr

/-! ## `isr_handler` -/

def names : List String :=
  ["Divide by zero", "Debug", "NMI", "Breakpoint", "Overflow", "Bound range", "Invalid opcode",
    "Device not available", "Double fault", "Coprocessor overrun", "Invalid TSS",
    "Segment not present", "Stack fault", "General protection fault", "Page fault", "Reserved",
    "x87 FP exception", "Alignment check", "Machine check", "SIMD FP exception"]

def excName (v : Nat) : String := names.getD v "Exception"

/-- A step of the handler. `report` stands for the two messages about an exception, and `halt` for
the loop behind them. -/
inductive Op where
  | tick
  | keyboard
  | out (port : Nat) (v : BitVec 8)
  | report (name : String) (vec : Nat) (err rip : BitVec 64)
  | halt
  deriving DecidableEq

def eoi (irq : Nat) : List Op := (Pic.picEoi irq).map fun w => .out w.1 w.2

/-- `isr_handler`, for the three fields of the record that it reads. -/
def isrHandler (vec : Nat) (err rip : BitVec 64) : List Op :=
  if vec = 32 then .tick :: eoi 0
  else if vec = 33 then .keyboard :: eoi 1
  else if 32 ≤ vec ∧ vec ≤ 47 then eoi (vec - 32)
  else if vec < 32 then [.report (excName vec) vec err rip, .halt]
  else []

/-! ## The machine -/

structure Machine where
  pics : Pair
  /-- The interrupt flag. -/
  interrupts : Bool
  /-- What is left to do for `isr_handler`, while it runs. -/
  handler : Option (List Op)
  ticks : BitVec 64
  /-- The keyboard buffer, and the program's call of `keyboard_get`. -/
  reader : Keyboard.Reader
  /-- The byte that the keyboard has sent last, and whether it has not been read yet. -/
  latch : UInt8
  full : Bool

inductive Act where
  /-- The timer, the keyboard, or another device. -/
  | edge
  | key (b : UInt8)
  | raise (q : Nat)
  /-- The processor takes an interrupt, also one whose request has gone away, or an exception. -/
  | accept (rip : BitVec 64)
  | spurious (slave : Bool) (rip : BitVec 64)
  | fault (v : Nat) (err rip : BitVec 64)
  /-- The next step of `isr_handler`, or its end. -/
  | handler
  /-- The program that runs otherwise; `get` is the next step of `keyboard_get`. -/
  | mask (q : Nat)
  | unmask (q : Nat)
  | sti
  | cli
  | get

inductive Ans where
  | done
  /-- A request of the timer was still waiting. -/
  | lost
  | ticked
  /-- `keyboard_irq` has read the byte, and whether it had no room for its code. -/
  | scancode (b : UInt8) (dropped : Bool)
  | vector (v : Nat)
  | returned (c : Int)

def Ans.ofKeyboard : Keyboard.Ans → Ans
  | .returned c => .returned c
  | _ => .done

/-- `buf_push` would have to drop the code of the byte. -/
def overflows (sc : UInt8) (kb : Keyboard) : Bool :=
  (kb.mods.code sc).isSome ∧ (kb.bufHead + 1) % BUFSZ = kb.bufTail

/-- The gates behind the 48 stubs are not present. -/
def enter (v : Nat) (err rip : BitVec 64) (m : Machine) : Option (Ans × Machine) :=
  if v < 48 then
    some (.vector v, { m with handler := some (isrHandler v err rip), interrupts := false })
  else none

def perform (op : Op) (ops : List Op) (m : Machine) : Ans × Machine :=
  match op with
  | .tick => (.ticked, { m with handler := some ops, ticks := m.ticks + 1#64 })
  | .keyboard =>
    (.scancode m.latch (overflows m.latch m.reader.kb),
      { m with
        handler := some ops
        reader := { m.reader with kb := m.reader.kb.keyboardIrq m.latch }
        full := false })
  | .out port v => (.done, { m with handler := some ops, pics := Pic.outb port v m.pics })
  | .report .. => (.done, { m with handler := some ops })
  | .halt => (.done, { m with interrupts := false })

def step : Act → Machine → Option (Ans × Machine)
  | .edge, m =>
    some (if m.pics.requested 0 then .lost else .done, { m with pics := m.pics.raise 0 })
  | .key b, m =>
    if m.full then none
    else some (.done, { m with latch := b, full := true, pics := m.pics.raise 1 })
  | .raise q, m =>
    if 3 ≤ q ∧ q < 16 then some (.done, { m with pics := m.pics.raise q }) else none
  | .accept rip, m =>
    if m.interrupts then
      m.pics.acknowledge.bind fun r => enter r.1 0 rip { m with pics := r.2 }
    else none
  | .spurious slave rip, m =>
    if m.interrupts then
      let r := m.pics.spurious slave
      enter r.1 0 rip { m with pics := r.2 }
    else none
  | .fault v err rip, m => if v < 32 then enter v err rip m else none
  | .handler, m =>
    match m.handler with
    | none => none
    | some [] => some (.done, { m with handler := none, interrupts := true })
    | some (op :: ops) => some (perform op ops m)
  | .mask q, m =>
    if m.handler = none ∧ q < 16 then some (.done, { m with pics := Pic.picMask q m.pics }) else none
  | .unmask q, m =>
    if m.handler = none ∧ q < 16 then some (.done, { m with pics := Pic.picUnmask q m.pics })
    else none
  | .sti, m => if m.handler = none then some (.done, { m with interrupts := true }) else none
  | .cli, m => if m.handler = none then some (.done, { m with interrupts := false }) else none
  | .get, m =>
    if m.handler = none then
      (Keyboard.step .get m.reader).map fun r => (.ofKeyboard r.1, { m with reader := r.2 })
    else none

/-- The machine when `kmain` turns the interrupts on. What the controllers and the keyboard were
before does not matter, apart from a byte that the keyboard has already sent. -/
def boot (p : Pair) (kb : Keyboard) (latch : UInt8) (full : Bool) : Machine where
  pics := Pic.picUnmask 1 (Pic.picUnmask 0 (Pic.outs Pic.picInit p))
  interrupts := true
  handler := none
  ticks := 0
  reader := Keyboard.start kb
  latch := latch
  full := full

variable {m m' : Machine} {a : Act} {b : Ans} {q v : Nat} {p : Pair}

/-! ## The steps of the handler -/

/-- What the handler does for the line `q`. -/
def lineOps (q : Nat) : List Op :=
  (if q = 0 then [.tick] else if q = 1 then [.keyboard] else []) ++ eoi q

theorem isrHandler_line (hq : q < 16) (err rip : BitVec 64) :
    isrHandler (32 + q) err rip = lineOps q := by
  obtain rfl | rfl | h : q = 0 ∨ q = 1 ∨ 2 ≤ q := by omega
  · rfl
  · rfl
  · rw [isrHandler, if_neg (by omega), if_neg (by omega), if_pos (by omega), lineOps,
      if_neg (by omega), if_neg (by omega), Nat.add_sub_cancel_left]
    rfl

theorem isrHandler_fault (hv : v < 32) (err rip : BitVec 64) :
    isrHandler v err rip = [.report (excName v) v err rip, .halt] := by
  rw [isrHandler, if_neg (by omega), if_neg (by omega), if_neg (by omega), if_pos hv]

theorem mem_lineOps {op : Op} (h : op ∈ lineOps q) :
    op = .tick ∧ q = 0 ∨ op = .keyboard ∧ q = 1 ∨ op = .out 0xA0 0x20#8 ∧ 8 ≤ q ∨
      op = .out 0x20 0x20#8 := by
  rw [lineOps, eoi, Pic.picEoi] at h
  grind

theorem master_mem_lineOps (q : Nat) : Op.out 0x20 0x20#8 ∈ lineOps q := by
  rw [lineOps, eoi, Pic.picEoi]
  simp

theorem slave_mem_lineOps (hq : 8 ≤ q) : Op.out 0xA0 0x20#8 ∈ lineOps q := by
  rw [lineOps, eoi, Pic.picEoi, if_pos hq]
  simp

/-- What is left of the handler: a part of what it does for a line, or the end of an exception. -/
def Todo (ops : List Op) : Prop :=
  (∃ q < 16, ops <:+ lineOps q) ∨
    ∃ name v err rip, ops <:+ [.report name v err rip, .halt] ∧ ops ≠ []

theorem Todo.tail {op : Op} {ops : List Op} (h : Todo (op :: ops)) (hop : op ≠ .halt) :
    Todo ops := by
  rcases h with ⟨q, hq, hs⟩ | ⟨name, v, err, rip, hs, -⟩
  · exact .inl ⟨q, hq, (List.suffix_cons op ops).trans hs⟩
  · rcases List.suffix_cons_iff.mp hs with he | hs
    · obtain ⟨-, rfl⟩ := List.cons.inj he
      exact .inr ⟨name, v, err, rip, List.suffix_cons _ _, List.cons_ne_nil _ _⟩
    · rcases List.suffix_cons_iff.mp hs with he | hs
      · exact absurd (List.cons.inj he).1 hop
      · exact absurd (List.suffix_nil.mp hs) (List.cons_ne_nil _ _)

/-- The only writes of a handler end interrupts. -/
theorem Todo.out {port : Nat} {v : BitVec 8} {ops : List Op} (h : Todo (.out port v :: ops)) :
    v = 0x20#8 ∧ (port = 0xA0 ∨ port = 0x20) := by
  rcases h with ⟨q, -, hs⟩ | ⟨name, v, err, rip, hs, -⟩
  · have hmem := mem_lineOps (hs.subset List.mem_cons_self)
    simp only [reduceCtorEq, false_and, false_or, Op.out.injEq] at hmem
    grind
  · simpa using hs.subset List.mem_cons_self

namespace Machine

/-- The handler will still do this. -/
def Pending (m : Machine) (op : Op) : Prop := ∃ ops, m.handler = some ops ∧ op ∈ ops

/-- An exception has stopped the machine. -/
def Halted (m : Machine) : Prop := m.Pending .halt

/-- Handlers do not nest, and what is in service will be done with. -/
structure Inv (m : Machine) : Prop where
  ready : Pic.Ready m.pics
  main : m.interrupts = true → m.handler = none
  todo : ∀ ops, m.handler = some ops → Todo ops
  masterAlone : Alone m.pics.master.isr
  slaveAlone : Alone m.pics.slave.isr
  master : m.pics.master.isr = 0 ∨ m.Pending (.out 0x20 0x20#8) ∨ m.Halted
  slave : m.pics.slave.isr = 0 ∨ m.Pending (.out 0xA0 0x20#8) ∨ m.Halted

variable {op : Op} {ops : List Op}

theorem not_pending (h : m.handler = none) (op : Op) : ¬ m.Pending op := by
  rintro ⟨ops, hops, -⟩
  rw [h] at hops
  cases hops

theorem Pending.congr (h : m.Pending op) (hh : m'.handler = m.handler) : m'.Pending op := by
  obtain ⟨ops, hops, hmem⟩ := h
  exact ⟨ops, hh.trans hops, hmem⟩

/-- The other steps are still to come. -/
theorem Pending.tail {x : Op} (h : m.Pending x) (hh : m.handler = some (op :: ops)) (hx : x ≠ op)
    (hh' : m'.handler = some ops) : m'.Pending x := by
  obtain ⟨l, hl, hmem⟩ := h
  obtain rfl := Option.some.inj (hh.symm.trans hl)
  exact ⟨ops, hh', (List.mem_cons.mp hmem).resolve_left hx⟩

theorem Inv.idle (I : m.Inv) (h : m.handler = none) : m.pics.Idle where
  master := I.master.resolve_right fun hp => hp.elim (not_pending h _) (not_pending h _)
  slave := I.slave.resolve_right fun hp => hp.elim (not_pending h _) (not_pending h _)

/-- Changes of requests and masks only. -/
theorem Inv.congr (I : m.Inv) (hh : m'.handler = m.handler)
    (hi : m'.interrupts = true → m'.handler = none) (R : Pic.Ready m'.pics)
    (hm : m'.pics.master.isr = m.pics.master.isr) (hs : m'.pics.slave.isr = m.pics.slave.isr) :
    m'.Inv where
  ready := R
  main := hi
  todo ops h := I.todo ops (hh ▸ h)
  masterAlone := hm ▸ I.masterAlone
  slaveAlone := hs ▸ I.slaveAlone
  master := by
    rw [hm]
    exact I.master.imp id (.imp (·.congr hh) (·.congr hh))
  slave := by
    rw [hs]
    exact I.slave.imp id (.imp (·.congr hh) (·.congr hh))

/-- A handler that was entered for the line `q`. -/
theorem Inv.entered (m : Machine) (hq : q < 16) (err rip : BitVec 64) (R : Pic.Ready p)
    (hm : p.master.isr = 0 ∨ ∃ i < 8, p.master.isr = line i)
    (hs : p.slave.isr = 0 ∨ 8 ≤ q ∧ ∃ i < 8, p.slave.isr = line i) :
    Inv { m with
      pics := p, handler := some (isrHandler (32 + q) err rip), interrupts := false } := by
  have hops := isrHandler_line hq err rip
  refine ⟨R, nofun, ?_, hm, hs.imp id And.right, hm.imp id ?_, hs.imp id ?_⟩
  · intro ops h
    obtain rfl := Option.some.inj h
    exact .inl ⟨q, hq, hops ▸ List.suffix_rfl⟩
  · intro _
    exact .inl ⟨_, rfl, hops ▸ master_mem_lineOps q⟩
  · intro h
    exact .inl ⟨_, rfl, hops ▸ slave_mem_lineOps h.1⟩

/-- What taking an interrupt can do. -/
theorem Inv.accept (I : m.Inv) {rip : BitVec 64} (h : step (.accept rip) m = some (b, m')) :
    m.handler = none ∧ m.interrupts = true ∧ ∃ q, m.pics.deliverable q = true ∧
      b = .vector (32 + q) ∧ m' = { m with
        pics := m.pics.serve q
        handler := some (isrHandler (32 + q) 0 rip)
        interrupts := false } := by
  rw [step] at h
  split at h
  · rename_i hi
    have hmain := I.main hi
    refine ⟨hmain, hi, ?_⟩
    rcases Pair.acknowledge_cases I.ready.linked (I.idle hmain) with ⟨hnone, -⟩ | ⟨q, hq, hack⟩
    · rw [hnone] at h
      cases h
    · have hlt : q < 16 := (of_decide_eq_true hq).1
      rw [hack, I.ready.vector, Option.bind_some, enter, if_pos (by omega)] at h
      obtain ⟨rfl, rfl⟩ := Prod.mk.inj (Option.some.inj h)
      exact ⟨q, hq, rfl, rfl⟩
  · cases h

/-- What an interrupt without a request can do: it looks like line 7 or line 15. -/
theorem Inv.spurious (I : m.Inv) {slave : Bool} {rip : BitVec 64}
    (h : step (.spurious slave rip) m = some (b, m')) :
    m.handler = none ∧ m.interrupts = true ∧ ∃ q p,
      (q = 7 ∧ p = m.pics ∨ q = 15 ∧ p = { m.pics with master := m.pics.master.serve 2 }) ∧
      b = .vector (32 + q) ∧ m' = { m with
        pics := p
        handler := some (isrHandler (32 + q) 0 rip)
        interrupts := false } := by
  rw [step] at h
  split at h
  · rename_i hi
    refine ⟨I.main hi, hi, ?_⟩
    cases slave with
    | false =>
      have hv : m.pics.spurious false = (32 + 7, m.pics) := by
        rw [Pair.spurious, if_neg (by decide), I.ready.masterOffset]
        rfl
      rw [hv, enter, if_pos (by omega)] at h
      obtain ⟨rfl, rfl⟩ := Prod.mk.inj (Option.some.inj h)
      exact ⟨7, _, .inl ⟨rfl, rfl⟩, rfl, rfl⟩
    | true =>
      have hv : m.pics.spurious true =
          (32 + 15, { m.pics with master := m.pics.master.serve 2 }) := by
        rw [Pair.spurious, if_pos rfl, I.ready.slaveOffset]
        rfl
      rw [hv, enter, if_pos (by omega)] at h
      obtain ⟨rfl, rfl⟩ := Prod.mk.inj (Option.some.inj h)
      exact ⟨15, _, .inr ⟨rfl, rfl⟩, rfl, rfl⟩
  · cases h

/-- What the next step of the handler can do. -/
theorem handler_cases (h : step .handler m = some (b, m')) :
    m.handler = some [] ∧ b = .done ∧ m' = { m with handler := none, interrupts := true } ∨
      ∃ op ops, m.handler = some (op :: ops) ∧ perform op ops m = (b, m') := by
  rw [step] at h
  split at h
  · cases h
  · rename_i hh
    obtain ⟨rfl, rfl⟩ := Prod.mk.inj (Option.some.inj h)
    exact .inl ⟨hh, rfl, rfl⟩
  · rename_i op ops hh
    exact .inr ⟨op, ops, hh, Option.some.inj h⟩

/-- What a step of `keyboard_get` can do. -/
theorem get_cases (h : step .get m = some (b, m')) : m.handler = none ∧
    ∃ r, Keyboard.step .get m.reader = some r ∧ b = .ofKeyboard r.1 ∧
      m' = { m with reader := r.2 } := by
  rw [step] at h
  split at h
  · rename_i hmain
    obtain ⟨r, hr, he⟩ := Option.map_eq_some_iff.mp h
    obtain ⟨rfl, rfl⟩ := Prod.mk.inj he
    exact ⟨hmain, r, hr, rfl, rfl⟩
  · cases h

theorem alone_serve {c : Chip} (h : c.isr = 0) (i : Nat) : (c.serve i).isr = line i := by
  show c.isr ||| line i = line i
  rw [h]
  simp

theorem Inv.perform (I : m.Inv) (hh : m.handler = some (op :: ops))
    (h : Isr.perform op ops m = (b, m')) : m'.Inv := by
  have htodo := I.todo _ hh
  by_cases hhalt : op = .halt
  · -- the machine stays where it is
    subst hhalt
    obtain ⟨-, rfl⟩ := Prod.mk.inj h
    exact I.congr rfl nofun I.ready rfl rfl
  have htail : Todo ops := htodo.tail hhalt
  have hoff : m.interrupts ≠ true := fun h => by
    rw [I.main h] at hh
    cases hh
  have hkeep : ∀ m'' : Machine, m''.handler = some ops → m''.pics = m.pics →
      m''.interrupts = m.interrupts → (∀ port, op ≠ .out port 0x20#8) → m''.Inv := by
    intro m'' hh'' hp hi hne
    refine ⟨hp ▸ I.ready, fun h => absurd (hi ▸ h) hoff, ?_, hp ▸ I.masterAlone, hp ▸ I.slaveAlone, ?_, ?_⟩
    · intro l hl
      obtain rfl := Option.some.inj (hh''.symm.trans hl)
      exact htail
    · rw [hp]
      exact I.master.imp id
        (.imp (·.tail hh (hne _).symm hh'') (·.tail hh (Ne.symm hhalt) hh''))
    · rw [hp]
      exact I.slave.imp id
        (.imp (·.tail hh (hne _).symm hh'') (·.tail hh (Ne.symm hhalt) hh''))
  cases op with
  | tick | keyboard | report =>
    obtain ⟨-, rfl⟩ := Prod.mk.inj h
    exact hkeep _ rfl rfl rfl fun _ => nofun
  | halt => exact absurd rfl hhalt
  | out port v =>
    obtain ⟨-, rfl⟩ := Prod.mk.inj h
    obtain ⟨rfl, rfl | rfl⟩ := htodo.out
    · have hp := Pic.outb_slave I.slaveAlone
      refine ⟨?_, ?_, ?_, ?_, ?_, ?_, ?_⟩ <;> simp only [hp]
      · exact I.ready.congr rfl rfl
      · exact fun h => absurd h hoff
      · intro l hl
        obtain rfl := Option.some.inj hl
        exact htail
      · exact I.masterAlone
      · exact .inl rfl
      · exact I.master.imp id
          (.imp (·.tail hh (by decide) rfl) (·.tail hh (by decide) rfl))
      · exact .inl trivial
    · have hp := Pic.outb_master I.masterAlone
      refine ⟨?_, ?_, ?_, ?_, ?_, ?_, ?_⟩ <;> simp only [hp]
      · exact I.ready.congr rfl rfl
      · exact fun h => absurd h hoff
      · intro l hl
        obtain rfl := Option.some.inj hl
        exact htail
      · exact .inl rfl
      · exact I.slaveAlone
      · exact .inl trivial
      · exact I.slave.imp id
          (.imp (·.tail hh (by decide) rfl) (·.tail hh (by decide) rfl))

theorem isr_raise (q : Nat) (p : Pair) :
    (p.raise q).master.isr = p.master.isr ∧ (p.raise q).slave.isr = p.slave.isr := by
  rw [Pair.raise]
  split_ifs <;> exact ⟨rfl, rfl⟩

/-- One step keeps the invariant. -/
theorem Inv.step (I : m.Inv) (h : Isr.step a m = some (b, m')) : m'.Inv := by
  cases a with
  | edge =>
    obtain ⟨-, rfl⟩ := Prod.mk.inj (Option.some.inj h)
    exact I.congr rfl I.main (I.ready.raise 0) (isr_raise 0 _).1 (isr_raise 0 _).2
  | key c =>
    rw [Isr.step] at h
    split at h
    · cases h
    · obtain ⟨-, rfl⟩ := Prod.mk.inj (Option.some.inj h)
      exact I.congr rfl I.main (I.ready.raise 1) (isr_raise 1 _).1 (isr_raise 1 _).2
  | raise q =>
    rw [Isr.step] at h
    split at h
    · obtain ⟨-, rfl⟩ := Prod.mk.inj (Option.some.inj h)
      exact I.congr rfl I.main (I.ready.raise q) (isr_raise q _).1 (isr_raise q _).2
    · cases h
  | accept rip =>
    obtain ⟨hmain, -, q, hq, -, rfl⟩ := I.accept h
    have hlt : q < 16 := (of_decide_eq_true hq).1
    have hidle := I.idle hmain
    apply Inv.entered m hlt 0 rip (I.ready.serve q)
    · rw [Pair.serve]
      split_ifs
      · exact .inr ⟨q, ‹_›, alone_serve hidle.master q⟩
      · exact .inr ⟨2, by decide, alone_serve hidle.master 2⟩
    · rw [Pair.serve]
      split_ifs
      · exact .inl hidle.slave
      · exact .inr ⟨by omega, q - 8, by omega, alone_serve hidle.slave _⟩
  | spurious slave rip =>
    obtain ⟨hmain, -, q, p, hqp, -, rfl⟩ := I.spurious h
    have hidle := I.idle hmain
    obtain ⟨rfl, rfl⟩ | ⟨rfl, rfl⟩ := hqp
    · exact Inv.entered m (by decide) 0 rip I.ready (.inl hidle.master) (.inl hidle.slave)
    · exact Inv.entered m (by decide) 0 rip (I.ready.congr rfl rfl)
        (.inr ⟨2, by decide, alone_serve hidle.master 2⟩) (.inl hidle.slave)
  | fault v err rip =>
    rw [Isr.step] at h
    split at h
    · rename_i hv
      rw [enter, if_pos (by omega), isrHandler_fault hv] at h
      obtain ⟨-, rfl⟩ := Prod.mk.inj (Option.some.inj h)
      have hhalt : Halted { m with
          handler := some [.report (excName v) v err rip, .halt], interrupts := false } :=
        ⟨_, rfl, by simp⟩
      refine ⟨I.ready, fun hi => Bool.noConfusion hi, ?_, I.masterAlone, I.slaveAlone,
        .inr (.inr hhalt), .inr (.inr hhalt)⟩
      intro ops hops
      obtain rfl := Option.some.inj hops
      exact .inr ⟨_, v, err, rip, List.suffix_rfl, List.cons_ne_nil _ _⟩
    · cases h
  | handler =>
    rcases handler_cases h with ⟨hh, -, rfl⟩ | ⟨op, ops, hh, hp⟩
    · -- `iretq`, with nothing left to do
      have hno : ∀ op, ¬ m.Pending op := by
        rintro op ⟨l, hl, hmem⟩
        obtain rfl := Option.some.inj (hh.symm.trans hl)
        cases hmem
      have hdone : ∀ ops, (none : Option (List Op)) = some ops → Todo ops := by
        intro ops hops
        cases hops
      exact ⟨I.ready, fun _ => rfl, hdone, I.masterAlone, I.slaveAlone,
        .inl (I.master.resolve_right fun hp => hp.elim (hno _) (hno _)),
        .inl (I.slave.resolve_right fun hp => hp.elim (hno _) (hno _))⟩
    · exact I.perform hh hp
  | mask q =>
    rw [Isr.step] at h
    split at h
    · obtain ⟨-, rfl⟩ := Prod.mk.inj (Option.some.inj h)
      have hkeep := Pic.picMask_keeps I.ready q
      exact I.congr rfl I.main (I.ready.mask q) hkeep.2.1 hkeep.2.2
    · cases h
  | unmask q =>
    rw [Isr.step] at h
    split at h
    · obtain ⟨-, rfl⟩ := Prod.mk.inj (Option.some.inj h)
      have hkeep := Pic.picUnmask_keeps I.ready q
      exact I.congr rfl I.main (I.ready.unmask q) hkeep.2.1 hkeep.2.2
    · cases h
  | cli =>
    rw [Isr.step] at h
    split at h
    · obtain ⟨-, rfl⟩ := Prod.mk.inj (Option.some.inj h)
      exact I.congr rfl (fun hi => Bool.noConfusion hi) I.ready rfl rfl
    · cases h
  | sti =>
    rw [Isr.step] at h
    split at h
    · rename_i hmain
      obtain ⟨-, rfl⟩ := Prod.mk.inj (Option.some.inj h)
      exact I.congr rfl (fun _ => hmain) I.ready rfl rfl
    · cases h
  | get =>
    obtain ⟨-, r, -, -, rfl⟩ := get_cases h
    exact I.congr rfl I.main I.ready rfl rfl

/-- What `kmain` does to the controllers. -/
theorem boot_pics (p : Pair) (kb : Keyboard) (latch : UInt8) (full : Bool) :
    Pic.Ready (boot p kb latch full).pics ∧
    (boot p kb latch full).pics.Idle ∧
    ∀ r, (boot p kb latch full).pics.requested r = false := by
  have R := Pic.picInit_ready p
  have hidle := Pic.picInit_idle p
  obtain ⟨hr₀, hm₀, hs₀⟩ := Pic.picUnmask_keeps R 0
  obtain ⟨hr₁, hm₁, hs₁⟩ := Pic.picUnmask_keeps (R.unmask 0) 1
  refine ⟨(R.unmask 0).unmask 1, ⟨?_, ?_⟩, fun r => ?_⟩
  · exact hm₁.trans (hm₀.trans hidle.master)
  · exact hs₁.trans (hs₀.trans hidle.slave)
  · exact (hr₁ r).trans ((hr₀ r).trans (Pic.picInit_requested p r))

theorem boot_inv (p : Pair) (kb : Keyboard) (latch : UInt8) (full : Bool) :
    (boot p kb latch full).Inv := by
  obtain ⟨R, hidle, -⟩ := boot_pics p kb latch full
  exact ⟨R, fun _ => rfl, nofun, .inl hidle.master, .inl hidle.slave, .inl hidle.master,
    .inl hidle.slave⟩

/-- A step of the handler leaves requests and masks alone. -/
theorem Inv.perform_lines (I : m.Inv) (hh : m.handler = some (op :: ops)) (r : Nat) :
    (Isr.perform op ops m).2.pics.requested r = m.pics.requested r ∧
      (Isr.perform op ops m).2.pics.masked r = m.pics.masked r := by
  cases op with
  | tick | keyboard | report | halt => exact ⟨rfl, rfl⟩
  | out port v =>
    obtain ⟨rfl, rfl | rfl⟩ := (I.todo _ hh).out
    · rw [Isr.perform, Pic.outb_slave I.slaveAlone]
      exact ⟨rfl, rfl⟩
    · rw [Isr.perform, Pic.outb_master I.masterAlone]
      exact ⟨rfl, rfl⟩

theorem run_inv {kb : Keyboard} {latch : UInt8} {full : Bool} {tr : List (Act × Ans)}
    (H : Run Isr.step (boot p kb latch full) tr m) : m.Inv :=
  H.inv (fun _ _ _ _ I h => I.step h) (boot_inv p kb latch full)

/-! ## Every request is served -/

/-- The vectors that the processor has taken. -/
def vectors (tr : List (Act × Ans)) : List Nat :=
  tr.filterMap fun e => match e.2 with
    | .vector v => some v
    | _ => none

theorem vectors_cons (e : Act × Ans) (tr : List (Act × Ans)) :
    vectors (e :: tr) = vectors [e] ++ vectors tr := List.filterMap_append (l := [e])

/-- The lines whose requests get through. -/
def deliverables (p : Pair) : List Nat := (List.range 16).filter p.deliverable

/-- A run of the processor alone, which comes back to the program. -/
structure Serves (rip : BitVec 64) (m : Machine) (tr : List (Act × Ans)) (m' : Machine) : Prop where
  run : Run Isr.step m tr m'
  main : m'.handler = none
  interrupts : m'.interrupts = true
  processor : ∀ e ∈ tr, e.1 = .handler ∨ e.1 = .accept rip

variable {rip : BitVec 64}

/-- The handler goes on to its end. -/
theorem Inv.finish (I : m.Inv) (rip : BitVec 64) (hh : m.handler = some ops) (hhalt : .halt ∉ ops) :
    ∃ tr m', Serves rip m tr m' ∧ tr.length = ops.length + 1 ∧ vectors tr = [] ∧
      ∀ r, m'.pics.requested r = m.pics.requested r ∧ m'.pics.masked r = m.pics.masked r := by
  induction ops generalizing m with
  | nil =>
    have hstep : Isr.step .handler m =
        some (.done, { m with handler := none, interrupts := true }) := by
      rw [Isr.step, hh]
    exact ⟨_, _, ⟨.snoc .nil hstep, rfl, rfl, by simp⟩, rfl, rfl, fun _ => ⟨rfl, rfl⟩⟩
  | cons op ops ih =>
    rw [List.mem_cons, not_or] at hhalt
    have hlines := I.perform_lines hh
    have hnext : (Isr.perform op ops m).2.handler = some ops := by
      cases op with
      | halt => exact absurd rfl hhalt.1
      | tick | keyboard | out | report => rfl
    have hvector : vectors [(.handler, (Isr.perform op ops m).1)] = [] := by
      cases op <;> rfl
    rcases hp : Isr.perform op ops m with ⟨b, m₁⟩
    rw [hp] at hlines hnext hvector
    have hstep : Isr.step .handler m = some (b, m₁) := by
      rw [Isr.step, hh]
      exact congrArg some hp
    obtain ⟨tr, m', S, hlen, hv, hkeep⟩ := ih (I.perform hh hp) hnext hhalt.2
    refine ⟨_, m', ⟨.cons hstep S.run, S.main, S.interrupts, ?_⟩, congrArg (· + 1) hlen, ?_,
      fun r => ?_⟩
    · rintro e (_ | ⟨_, he⟩)
      · exact .inl rfl
      · exact S.processor e he
    · rw [vectors_cons, hvector, hv]
      rfl
    · exact ⟨(hkeep r).1.trans (hlines r).1, (hkeep r).2.trans (hlines r).2⟩

theorem deliverables_served {p' : Pair} (hq : q < 16) (p : Pair)
    (hkeep : ∀ r, p'.requested r = (p.serve q).requested r ∧ p'.masked r = (p.serve q).masked r) :
    deliverables p' = (deliverables p).erase q := by
  have hnodup : (deliverables p).Nodup := List.nodup_range.filter _
  rw [hnodup.erase_eq_filter, deliverables, deliverables, List.filter_filter]
  refine List.filter_congr fun r hr => ?_
  have hr := List.mem_range.mp hr
  by_cases h2 : r = 2
  · subst h2
    simp [Pair.deliverable]
  · have hreq := (hkeep r).1.trans (Pair.requested_serve hq hr h2 p)
    have hmask := (hkeep r).2.trans (Pair.masked_serve q p r)
    have hcascade := (hkeep 2).2.trans (Pair.masked_serve q p 2)
    rw [Pair.deliverable, Pair.deliverable, hreq, hmask, hcascade]
    by_cases hqr : r = q
    · simp [hqr]
    · simp [hqr]

/-- One request. -/
theorem Inv.serve (I : m.Inv) (hmain : m.handler = none) (hi : m.interrupts = true)
    (hsome : deliverables m.pics ≠ []) (rip : BitVec 64) :
    ∃ q ∈ deliverables m.pics, ∃ tr m', Serves rip m tr m' ∧ tr.length ≤ 4 ∧
      vectors tr = [32 + q] ∧ deliverables m'.pics = (deliverables m.pics).erase q := by
  rcases Pair.acknowledge_cases I.ready.linked (I.idle hmain) with ⟨-, hnone⟩ | ⟨q, hq, hack⟩
  · refine absurd (List.filter_eq_nil_iff.mpr fun q _ => ?_) hsome
    rw [hnone q]
    exact Bool.false_ne_true
  have hlt : q < 16 := (of_decide_eq_true hq).1
  have hstep : Isr.step (.accept rip) m = some (.vector (32 + q), { m with
      pics := m.pics.serve q
      handler := some (isrHandler (32 + q) 0 rip)
      interrupts := false }) := by
    rw [Isr.step, if_pos hi, hack, I.ready.vector, Option.bind_some, enter, if_pos (by omega)]
  have hops := isrHandler_line hlt 0 rip
  have hhalt : .halt ∉ isrHandler (32 + q) 0 rip := by
    rw [hops]
    intro h
    simpa using mem_lineOps h
  obtain ⟨tr, m', S, hlen, hv, hkeep⟩ := (I.step hstep).finish rip rfl hhalt
  refine ⟨q, List.mem_filter.mpr ⟨List.mem_range.mpr hlt, hq⟩, _, m',
    ⟨.cons hstep S.run, S.main, S.interrupts, ?_⟩, ?_, ?_, deliverables_served hlt _ hkeep⟩
  · rintro e (_ | ⟨_, he⟩)
    · exact .inr rfl
    · exact S.processor e he
  · have hfew : (lineOps q).length ≤ 2 := by
      rw [lineOps, List.length_append, eoi, List.length_map, Pic.picEoi]
      split_ifs <;> simp_all
    rw [List.length_cons, hlen, hops]
    omega
  · rw [vectors_cons, hv]
    rfl

/-- All of them, one after the other. -/
theorem Inv.serve_all (I : m.Inv) (hmain : m.handler = none) (hi : m.interrupts = true)
    (rip : BitVec 64) : ∃ tr m', Serves rip m tr m' ∧
      tr.length ≤ 4 * (deliverables m.pics).length ∧
      (vectors tr).Perm ((deliverables m.pics).map (32 + ·)) ∧ deliverables m'.pics = [] := by
  induction hn : (deliverables m.pics).length generalizing m with
  | zero =>
    have hnil := List.eq_nil_of_length_eq_zero hn
    rw [hnil]
    exact ⟨[], m, ⟨.nil, hmain, hi, by simp⟩, Nat.zero_le _, .nil, hnil⟩
  | succ n ih =>
    have hsome : deliverables m.pics ≠ [] := by
      intro hnil
      rw [hnil] at hn
      cases hn
    obtain ⟨q, hq, tr₁, m₁, S₁, hlen₁, hv₁, hrest⟩ := I.serve hmain hi hsome rip
    have I₁ : m₁.Inv := S₁.run.inv (fun _ _ _ _ I h => I.step h) I
    have hn₁ : (deliverables m₁.pics).length = n := by
      rw [hrest, List.length_erase_of_mem hq, hn, Nat.add_sub_cancel]
    obtain ⟨tr, m', S, hlen, hv, hdone⟩ := ih I₁ S₁.main S₁.interrupts hn₁
    refine ⟨tr₁ ++ tr, m', ⟨S₁.run.trans S.run, S.main, S.interrupts, ?_⟩, ?_, ?_, hdone⟩
    · intro e he
      exact (List.mem_append.mp he).elim (S₁.processor e) (S.processor e)
    · rw [List.length_append]
      omega
    · rw [vectors, List.filterMap_append, ← vectors, hv₁]
      exact ((hrest ▸ hv).cons (32 + q)).trans ((List.perm_cons_erase hq).map (32 + ·)).symm

end Machine

open Machine in
/-- Whenever an interrupt can be taken the program runs, nothing is in service, and the processor
serves every request that is not masked: one interrupt for each of them, of at most four steps,
behind which nothing is left in service or to serve. -/
theorem requests_served {kb : Keyboard} {latch : UInt8} {full : Bool} {tr : List (Act × Ans)}
    (H : Run step (boot p kb latch full) tr m) (hi : m.interrupts = true) (rip : BitVec 64) :
    m.handler = none ∧ m.pics.Idle ∧ ∃ tr' m', Serves rip m tr' m' ∧
      tr'.length ≤ 4 * (deliverables m.pics).length ∧
      (vectors tr').Perm ((deliverables m.pics).map (32 + ·)) ∧
      deliverables m'.pics = [] ∧ m'.pics.Idle := by
  have I := run_inv H
  have hmain := I.main hi
  obtain ⟨tr', m', S, hlen, hv, hdone⟩ := I.serve_all hmain hi rip
  have I' : m'.Inv := S.run.inv (fun _ _ _ _ I h => I.step h) I
  exact ⟨hmain, I.idle hmain, tr', m', S, hlen, hv, hdone, I'.idle S.main⟩

/-- The controllers before `pic_init`, with requests that nobody waits for. -/
def stray : Pair :=
  ⟨⟨0xFF#8, 0x10#8, 0, 8#8, 0, 0, .mask, false, false⟩,
    ⟨0xFF#8, 0, 0, 0x70#8, 0, 0, .offset, false, false⟩⟩

/-- The keyboard comes behind the timer, and the slave's line 12 is masked. -/
theorem requests_served_two : ∃ tr m, Run step (boot stray .zero 0 false) tr m ∧
    ∃ tr' m', Machine.Serves 0x1000#64 m tr' m' ∧ tr'.length ≤ 8 ∧
      (Machine.vectors tr').Perm [32, 33] ∧ m'.pics.Idle := by
  have H : Run step (boot stray .zero 0 false) _ _ :=
    .of_exec [.key 0x1E, .raise 12, .edge] rfl
  obtain ⟨-, -, tr', m', S, hlen, hv, -, hidle⟩ := requests_served H rfl 0x1000#64
  exact ⟨_, _, H, tr', m', S, hlen, hv, hidle⟩

end Isr

end BojanOS
