import Mathlib.Data.List.Basic
import Mathlib.Tactic.SplitIfs

/-!
# The interrupt controller 8259A

A chip has eight lines: `irr` are the requests it has latched, `isr` the lines in service, `imr` the
masked ones, and line 0 comes first. In a pair the second chip asks at line 2 of the first, so there
are sixteen lines, and what the second one asks for is number 8 and up. Requests are edges, the mode
is the fully nested one, and there is no rotation of the priorities.
-/

namespace Pic8259

abbrev Lines := BitVec 8

def line (i : Nat) : Lines := 1#8 <<< i

/-- The line of the highest priority in a set. -/
def first (s : Lines) : Option Nat := (List.range 8).find? fun i => s.getLsbD i

/-- What the next byte at the data port is. -/
inductive Expects where
  | offset
  | cascade
  | mode
  | mask
  deriving DecidableEq

structure Chip where
  irr : Lines
  isr : Lines
  imr : Lines
  /-- The vector of line 0. -/
  offset : BitVec 8
  cascade : BitVec 8
  mode : BitVec 8
  expects : Expects
  /-- There will be a byte for the cascade, and one for the mode. -/
  withCascade : Bool
  withMode : Bool

namespace Chip

/-- The end of an interrupt that does not say which: the first line in service is done. -/
def endOfInterrupt (c : Chip) : Chip :=
  match first c.isr with
  | none => c
  | some i => { c with isr := c.isr &&& ~~~line i }

/-- A byte at the command port. The commands that rotate priorities, name a line or select a register
are not here. -/
def command (v : BitVec 8) (c : Chip) : Chip :=
  if v.getLsbD 4 then
    { c with
      irr := 0, isr := 0, imr := 0, mode := 0
      expects := .offset, withCascade := !v.getLsbD 1, withMode := v.getLsbD 0 }
  else if v = 0x20#8 then c.endOfInterrupt
  else c

/-- A byte at the data port. -/
def data (v : BitVec 8) (c : Chip) : Chip :=
  let afterCascade : Expects := if c.withMode then .mode else .mask
  match c.expects with
  | .offset =>
    { c with offset := v &&& 0xF8#8, expects := if c.withCascade then .cascade else afterCascade }
  | .cascade => { c with cascade := v, expects := afterCascade }
  | .mode => { c with mode := v, expects := .mask }
  | .mask => { c with imr := v }

/-- The line that the chip asks for, if none of its priority or above is in service. -/
def asks (c : Chip) : Option Nat :=
  (first (c.irr &&& ~~~c.imr)).filter fun i => (first c.isr).all fun j => i < j

def raise (i : Nat) (c : Chip) : Chip := { c with irr := c.irr ||| line i }

def serve (i : Nat) (c : Chip) : Chip :=
  { c with irr := c.irr &&& ~~~line i, isr := c.isr ||| line i }

end Chip

structure Pair where
  master : Chip
  slave : Chip

namespace Pair

def requested (p : Pair) (q : Nat) : Bool :=
  if q < 8 then p.master.irr.getLsbD q else p.slave.irr.getLsbD (q - 8)

def masked (p : Pair) (q : Nat) : Bool :=
  if q < 8 then p.master.imr.getLsbD q else p.slave.imr.getLsbD (q - 8)

/-- A device raises its line. -/
def raise (q : Nat) (p : Pair) : Pair :=
  if q < 8 then { p with master := p.master.raise q }
  else { p with slave := p.slave.raise (q - 8) }

/-- The first chip, with the second one at its line 2. -/
def cascaded (p : Pair) : Chip :=
  { p.master with
    irr := if p.slave.asks.isSome then p.master.irr ||| line 2 else p.master.irr &&& ~~~line 2 }

/-- The chips know of each other. -/
def linked (p : Pair) : Bool := p.master.cascade.getLsbD 2 ∧ p.slave.cascade = 2#8

/-- The processor asks for the vector. -/
def acknowledge (p : Pair) : Option (Nat × Pair) := do
  let i ← p.cascaded.asks
  if i = 2 ∧ p.linked then do
    let j ← p.slave.asks
    some (p.slave.offset.toNat + j, ⟨p.master.serve 2, p.slave.serve j⟩)
  else some (p.master.offset.toNat + i, { p with master := p.master.serve i })

/-- The processor asks for the vector of a request that has gone away: line 7 of the chip, without
being in service there. -/
def spurious (slave : Bool) (p : Pair) : Nat × Pair :=
  if slave then (p.slave.offset.toNat + 7, { p with master := p.master.serve 2 })
  else (p.master.offset.toNat + 7, p)

end Pair

/-! ## Lines -/

variable {s t : Lines} {i j : Nat}

theorem getLsbD_line (hi : i < 8) (j : Nat) : (line i).getLsbD j = decide (j = i) := by
  rw [line, BitVec.getLsbD_shiftLeft, BitVec.getLsbD_one]
  grind

theorem getLsbD_or_line (hi : i < 8) (s : Lines) (j : Nat) :
    (s ||| line i).getLsbD j = (s.getLsbD j || decide (j = i)) := by
  rw [BitVec.getLsbD_or, getLsbD_line hi]

theorem getLsbD_and_line (hi : i < 8) (hj : j < 8) (s : Lines) :
    (s &&& ~~~line i).getLsbD j = (s.getLsbD j && !decide (j = i)) := by
  rw [BitVec.getLsbD_and, BitVec.getLsbD_not, getLsbD_line hi, decide_eq_true hj, Bool.true_and]

theorem first_eq_some : first s = some i ↔
    i < 8 ∧ s.getLsbD i = true ∧ ∀ j < i, s.getLsbD j = false := by
  rw [first, List.find?_range_eq_some]
  simp only [List.mem_range, Bool.not_eq_true']
  grind

theorem first_eq_none : first s = none ↔ s = 0 := by
  rw [first, List.find?_eq_none]
  constructor
  · intro h
    refine BitVec.eq_of_getLsbD_eq fun i hi => ?_
    simpa using h i (List.mem_range.mpr hi)
  · rintro rfl i -
    simp

theorem first_line : ∀ i < 8, first (line i) = some i := by decide

/-- At most one line is in the set. -/
def Alone (s : Lines) : Prop := s = 0 ∨ ∃ i < 8, s = line i

theorem Chip.endOfInterrupt_alone {c : Chip} (h : Alone c.isr) :
    c.endOfInterrupt = { c with isr := 0 } := by
  rcases h with h | ⟨i, hi, h⟩
  · rw [endOfInterrupt, h, first_eq_none.mpr rfl, ← h]
  · have hclear : line i &&& ~~~line i = 0 := by
      refine BitVec.eq_of_getLsbD_eq fun j hj => ?_
      rw [getLsbD_and_line hi hj, getLsbD_line hi]
      simp
    rw [endOfInterrupt, h, first_line i hi, ← hclear]

theorem Chip.data_mask {c : Chip} (h : c.expects = .mask) (v : BitVec 8) :
    c.data v = { c with imr := v } := by rw [data, h]

/-- With nothing in service the first unmasked request is asked for. -/
theorem Chip.asks_idle {c : Chip} (h : c.isr = 0) : c.asks = first (c.irr &&& ~~~c.imr) := by
  rw [asks, h, first_eq_none.mpr rfl]
  cases first (c.irr &&& ~~~c.imr) with
  | none => rfl
  | some i => rfl

/-! ## Pairs with nothing in service -/

namespace Pair

variable {p : Pair} {q r : Nat}

/-- The lines whose request gets through to the processor. Line 2 belongs to the second chip. -/
def deliverable (p : Pair) (q : Nat) : Bool :=
  q < 16 ∧ q ≠ 2 ∧ p.requested q = true ∧ p.masked q = false ∧ (8 ≤ q → p.masked 2 = false)

def vector (p : Pair) (q : Nat) : Nat :=
  if q < 8 then p.master.offset.toNat + q else p.slave.offset.toNat + (q - 8)

def serve (q : Nat) (p : Pair) : Pair :=
  if q < 8 then { p with master := p.master.serve q }
  else ⟨p.master.serve 2, p.slave.serve (q - 8)⟩

/-- Nothing is in service. -/
structure Idle (p : Pair) : Prop where
  master : p.master.isr = 0
  slave : p.slave.isr = 0

theorem getLsbD_unmasked {c : Chip} (hi : i < 8) :
    (c.irr &&& ~~~c.imr).getLsbD i = (c.irr.getLsbD i && !c.imr.getLsbD i) := by
  rw [BitVec.getLsbD_and, BitVec.getLsbD_not, decide_eq_true hi, Bool.true_and]

/-- An idle pair gives the vector of a line that gets through, if there is one. -/
theorem acknowledge_cases (hl : p.linked = true) (I : p.Idle) :
    (p.acknowledge = none ∧ ∀ q, p.deliverable q = false) ∨
      ∃ q, p.deliverable q = true ∧ p.acknowledge = some (p.vector q, p.serve q) := by
  have hm : p.cascaded.asks = first (p.cascaded.irr &&& ~~~p.master.imr) :=
    Chip.asks_idle I.master
  have hs : p.slave.asks = first (p.slave.irr &&& ~~~p.slave.imr) := Chip.asks_idle I.slave
  have hirr : ∀ j < 8, p.cascaded.irr.getLsbD j =
      if j = 2 then p.slave.asks.isSome else p.master.irr.getLsbD j := by
    intro j hj
    rw [cascaded]
    split
    · rename_i hasks
      rw [hasks, getLsbD_or_line (by decide)]
      grind
    · rename_i hasks
      rw [Bool.eq_false_iff.mpr hasks, getLsbD_and_line (by decide) hj]
      grind
  have hset : ∀ j < 8, (p.cascaded.irr &&& ~~~p.master.imr).getLsbD j =
      ((if j = 2 then p.slave.asks.isSome else p.master.irr.getLsbD j) &&
        !p.master.imr.getLsbD j) := by
    intro j hj
    rw [← hirr j hj]
    exact getLsbD_unmasked (c := p.cascaded) hj
  cases hfirst : first (p.cascaded.irr &&& ~~~p.master.imr) with
  | none =>
    refine .inl ⟨?_, fun q => ?_⟩
    · rw [acknowledge, hm, hfirst]
      rfl
    · -- a line that gets through would have been found
      have hno : ∀ j < 8, ((if j = 2 then p.slave.asks.isSome else p.master.irr.getLsbD j) &&
          !p.master.imr.getLsbD j) = false := by
        intro j hj
        rw [← hset j hj, first_eq_none.mp hfirst]
        simp
      have hslave : ∀ j < 8, p.slave.irr.getLsbD j = true → p.slave.imr.getLsbD j = false →
          p.slave.asks.isSome = true := by
        intro j hj hr hmask
        rw [hs, Option.isSome_iff_ne_none]
        intro hnone
        have hbit := getLsbD_unmasked (c := p.slave) hj
        rw [first_eq_none.mp hnone, hr, hmask] at hbit
        simp at hbit
      rw [deliverable]
      simp only [requested, masked]
      grind
  | some i =>
    obtain ⟨hi, hbit, -⟩ := first_eq_some.mp hfirst
    rw [hset i hi] at hbit
    by_cases h2 : i = 2
    · -- the second chip
      subst h2
      rw [if_pos rfl, Bool.and_eq_true] at hbit
      obtain ⟨j, hj⟩ := Option.isSome_iff_exists.mp hbit.1
      obtain ⟨hj8, hjbit, -⟩ := first_eq_some.mp (hs ▸ hj)
      rw [getLsbD_unmasked hj8] at hjbit
      refine .inr ⟨j + 8, ?_, ?_⟩
      · rw [deliverable]
        simp only [requested, masked]
        grind
      · rw [acknowledge, hm, hfirst, Option.bind_eq_bind, Option.bind_some,
          if_pos ⟨rfl, hl⟩, hj, Option.bind_some, vector, serve, if_neg (by omega),
          if_neg (by omega), Nat.add_sub_cancel]
    · rw [if_neg h2] at hbit
      refine .inr ⟨i, ?_, ?_⟩
      · rw [deliverable]
        simp only [requested, masked]
        grind
      · rw [acknowledge, hm, hfirst, Option.bind_eq_bind, Option.bind_some,
          if_neg fun h => h2 h.1, vector, serve, if_pos hi, if_pos hi]

theorem requested_raise (hq : q < 16) (p : Pair) (r : Nat) :
    (p.raise q).requested r = (p.requested r || decide (r = q)) := by
  rw [requested, requested, raise]
  have hm : ∀ j, j < 8 → q < 8 → (p.master.irr ||| line q).getLsbD j =
      (p.master.irr.getLsbD j || decide (j = q)) := fun j _ h => getLsbD_or_line h _ j
  have hs : ∀ j, 8 ≤ q → (p.slave.irr ||| line (q - 8)).getLsbD j =
      (p.slave.irr.getLsbD j || decide (j = q - 8)) := fun j _ => getLsbD_or_line (by omega) _ j
  simp only [Chip.raise]
  grind

theorem requested_serve (hq : q < 16) (hr : r < 16) (h2 : r ≠ 2) (p : Pair) :
    (p.serve q).requested r = (p.requested r && !decide (r = q)) := by
  rw [requested, requested, serve]
  have hm : ∀ i, i < 8 → r < 8 → (p.master.irr &&& ~~~line i).getLsbD r =
      (p.master.irr.getLsbD r && !decide (r = i)) := fun i hi h => getLsbD_and_line hi h _
  have hs : 8 ≤ q → 8 ≤ r → (p.slave.irr &&& ~~~line (q - 8)).getLsbD (r - 8) =
      (p.slave.irr.getLsbD (r - 8) && !decide (r - 8 = q - 8)) := fun _ _ =>
    getLsbD_and_line (by omega) (by omega) _
  simp only [Chip.serve]
  grind

@[simp] theorem masked_raise (q : Nat) (p : Pair) (r : Nat) :
    (p.raise q).masked r = p.masked r := by
  rw [masked, masked, raise]
  split_ifs <;> rfl

@[simp] theorem masked_serve (q : Nat) (p : Pair) (r : Nat) :
    (p.serve q).masked r = p.masked r := by
  rw [masked, masked, serve]
  split_ifs <;> rfl

end Pair

end Pic8259
