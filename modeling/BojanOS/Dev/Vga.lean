import BojanOS.Lib.Loop
import Mathlib.Algebra.Group.Nat.Defs
import Mathlib.Logic.Function.Basic

/-!
# The text console (`vga.c`)

The screen is an array of 25 * 80 cells, and an access outside it has no result. `Terminal` is a
console of unbounded height that never scrolls; the screen is the window on its last rows.
-/

namespace BojanOS

def VGA_WIDTH : Nat := 80
def VGA_HEIGHT : Nat := 25

structure Vga where
  cells : Nat → UInt16
  row : Nat
  col : Nat
  attr : UInt8
  /-- The registers 14 and 15 of the controller, the place of the cursor. -/
  high : Nat
  low : Nat
  /-- The calls of `scroll` since `vga_clear`. The source does not count them. -/
  scrolls : Nat

namespace Vga

def cell (st : Vga) (c : UInt8) : UInt16 := c.toUInt16 ||| st.attr.toUInt16 <<< 8

/-- `VGA[i]` -/
def load (st : Vga) (i : Nat) : Option UInt16 :=
  if i < VGA_HEIGHT * VGA_WIDTH then some (st.cells i) else none

/-- `VGA[i] = w` -/
def store (i : Nat) (w : UInt16) (st : Vga) : Option Vga :=
  if i < VGA_HEIGHT * VGA_WIDTH then some { st with cells := Function.update st.cells i w } else none

def moveCursor (st : Vga) : Vga :=
  let pos := (st.row * VGA_WIDTH + st.col) % 2 ^ 16
  { st with high := pos >>> 8 &&& 0xFF, low := pos &&& 0xFF }

def vgaClear (st : Vga) : Option Vga :=
  (Loop.upTo (fun y => Loop.upTo (fun x st => st.store (y * VGA_WIDTH + x) (st.cell 32)) VGA_WIDTH)
    VGA_HEIGHT st).map fun st => { st with row := 0, col := 0, scrolls := 0 }.moveCursor

def scroll (st : Vga) : Option Vga :=
  (Loop.upTo (fun y => Loop.upTo (fun x st =>
      (st.load ((y + 1) * VGA_WIDTH + x)).bind fun w => st.store (y * VGA_WIDTH + x) w) VGA_WIDTH)
    (VGA_HEIGHT - 1) st).bind fun st =>
  (Loop.upTo (fun x st => st.store ((VGA_HEIGHT - 1) * VGA_WIDTH + x) (st.cell 32)) VGA_WIDTH st).map
    fun st => { st with row := VGA_HEIGHT - 1, scrolls := st.scrolls + 1 }

/-- `if (++row >= VGA_HEIGHT) scroll();` -/
def nextRow (st : Vga) : Option Vga :=
  let st := { st with row := st.row + 1 }
  if VGA_HEIGHT ≤ st.row then st.scroll else some st

/-- `while (n-- && col < VGA_WIDTH)` -/
def tabLoop : Nat → Vga → Option Vga
  | 0, st => some st
  | n + 1, st =>
    if st.col < VGA_WIDTH then
      (st.store (st.row * VGA_WIDTH + st.col) (st.cell 32)).bind fun st =>
        tabLoop n { st with col := st.col + 1 }
    else some st

def vgaPutchar (st : Vga) (c : UInt8) : Option Vga :=
  (if c = 10 then { st with col := 0 }.nextRow
  else if c = 9 then
    (tabLoop (4 - st.col % 4) st).bind fun st =>
      if VGA_WIDTH ≤ st.col then { st with col := 0 }.nextRow else some st
  else if c = 13 then some { st with col := 0 }
  else if c = 8 then
    if 0 < st.col then
      let st := { st with col := st.col - 1 }
      st.store (st.row * VGA_WIDTH + st.col) (st.cell 32)
    else some st
  else
    (st.store (st.row * VGA_WIDTH + st.col) (st.cell c)).bind fun st =>
      let st := { st with col := st.col + 1 }
      if VGA_WIDTH ≤ st.col then { st with col := 0 }.nextRow else some st).map moveCursor

/-- `vga_putchar` for one byte after the other. -/
def vgaWrite : List UInt8 → Vga → Option Vga
  | [], st => some st
  | c :: s, st => (st.vgaPutchar c).bind (vgaWrite s)

end Vga

/-! ## The unbounded terminal -/

@[ext] structure Terminal where
  glyphs : Nat → Nat → UInt8
  row : Nat
  col : Nat

namespace Terminal

def blank : Terminal := ⟨fun _ _ => 32, 0, 0⟩

/-- The same glyph in the columns from `a` to `b` of the row of the cursor. -/
def fill (t : Terminal) (a b : Nat) (c : UInt8) : Terminal :=
  { t with glyphs := fun r x => if r = t.row ∧ a ≤ x ∧ x < b then c else t.glyphs r x }

/-- A row that is full goes on in the next one. -/
def wrap (t : Terminal) : Terminal :=
  if t.col = VGA_WIDTH then { t with row := t.row + 1, col := 0 } else t

def type (t : Terminal) (c : UInt8) : Terminal :=
  if c = 10 then { t with row := t.row + 1, col := 0 }
  else if c = 9 then
    let stop := (t.col / 4 + 1) * 4
    { t.fill t.col stop 32 with col := stop }.wrap
  else if c = 13 then { t with col := 0 }
  else if c = 8 then if t.col = 0 then t else { t.fill (t.col - 1) t.col 32 with col := t.col - 1 }
  else { t.fill t.col (t.col + 1) c with col := t.col + 1 }.wrap

def typed (s : List UInt8) : Terminal := s.foldl type blank

end Terminal

namespace Vga

variable {st st' : Vga} {t : Terminal} {a b i k n x y : Nat} {c : UInt8}

def glyph (w : UInt16) : UInt8 := w.toUInt8

theorem glyph_cell (st : Vga) (c : UInt8) : glyph (st.cell c) = c := by
  apply UInt8.toBitVec_inj.mp
  simp [glyph, cell]

/-! ## The loops -/

/-- The screen with blanks from `a` to `b`. -/
def blanked (st : Vga) (a b : Nat) : Vga :=
  { st with cells := fun i => if a ≤ i ∧ i < b then st.cell 32 else st.cells i }

theorem blanked_self (st : Vga) (a : Nat) : st.blanked a a = st := by
  have hcells : (fun i => if a ≤ i ∧ i < a then st.cell 32 else st.cells i) = st.cells :=
    funext fun i => if_neg (by omega)
  rw [blanked, hcells]

theorem store_blanked (hab : a ≤ b) (hb : b < VGA_HEIGHT * VGA_WIDTH) :
    (st.blanked a b).store b ((st.blanked a b).cell 32) = some (st.blanked a (b + 1)) := by
  have hcells : Function.update (st.blanked a b).cells b (st.cell 32) =
      (st.blanked a (b + 1)).cells := by
    funext i
    rcases Nat.lt_trichotomy i b with h | rfl | h
    · rw [Function.update_of_ne (Nat.ne_of_lt h)]
      simp only [blanked, h, Nat.lt_succ_of_lt h]
    · rw [Function.update_self]
      exact (if_pos ⟨hab, Nat.lt_succ_self i⟩).symm
    · rw [Function.update_of_ne (Nat.ne_of_gt h)]
      simp only [blanked, Nat.not_lt_of_gt h, Nat.not_lt_of_ge h, and_false, if_false]
  rw [store, if_pos hb]
  show some { st.blanked a b with cells := Function.update (st.blanked a b).cells b (st.cell 32) } = _
  rw [hcells]
  rfl

theorem vgaClear_eq (st : Vga) : st.vgaClear = some
    { st.blanked 0 (VGA_HEIGHT * VGA_WIDTH) with row := 0, col := 0, scrolls := 0 }.moveCursor := by
  have hrow : ∀ y < VGA_HEIGHT,
      Loop.upTo (fun x st => store (y * VGA_WIDTH + x) (st.cell 32) st) VGA_WIDTH
        (st.blanked 0 (y * VGA_WIDTH)) = some (st.blanked 0 ((y + 1) * VGA_WIDTH)) := by
    intro y hy
    rw [Nat.succ_mul]
    apply Loop.upTo_eq (g := fun x => st.blanked 0 (y * VGA_WIDTH + x))
    intro x hx
    apply store_blanked (Nat.zero_le _)
    rw [VGA_HEIGHT, VGA_WIDTH] at *
    omega
  have hall := Loop.upTo_eq (g := fun y => st.blanked 0 (y * VGA_WIDTH)) hrow
  rw [Nat.zero_mul, blanked_self] at hall
  rw [vgaClear, hall]
  rfl

/-- The screen with the rows above the cell `k` moved up. -/
def shifted (st : Vga) (k : Nat) : Vga :=
  { st with cells := fun i => if i < k then st.cells (i + VGA_WIDTH) else st.cells i }

theorem shifted_zero (st : Vga) : st.shifted 0 = st := by
  have hcells : (fun i => if i < 0 then st.cells (i + VGA_WIDTH) else st.cells i) = st.cells :=
    funext fun i => if_neg (Nat.not_lt_zero i)
  rw [shifted, hcells]

theorem store_shifted (hk : k + VGA_WIDTH < VGA_HEIGHT * VGA_WIDTH) :
    ((st.shifted k).load (k + VGA_WIDTH)).bind (fun w => (st.shifted k).store k w) =
      some (st.shifted (k + 1)) := by
  have hlow : (st.shifted k).cells (k + VGA_WIDTH) = st.cells (k + VGA_WIDTH) := if_neg (by omega)
  have hcells : Function.update (st.shifted k).cells k (st.cells (k + VGA_WIDTH)) =
      (st.shifted (k + 1)).cells := by
    funext i
    rcases Nat.lt_trichotomy i k with h | rfl | h
    · rw [Function.update_of_ne (Nat.ne_of_lt h)]
      simp only [shifted, h, Nat.lt_succ_of_lt h, if_true]
    · rw [Function.update_self]
      exact (if_pos (Nat.lt_succ_self i)).symm
    · rw [Function.update_of_ne (Nat.ne_of_gt h)]
      simp only [shifted, Nat.not_lt_of_gt h, Nat.not_lt_of_ge h, if_false]
  rw [load, if_pos hk, Option.bind_some, store, if_pos (Nat.lt_of_le_of_lt (Nat.le_add_right _ _) hk),
    hlow, hcells]
  rfl

/-- All rows one up, the last one blank. -/
def scrolled (st : Vga) : Vga :=
  { (st.shifted ((VGA_HEIGHT - 1) * VGA_WIDTH)).blanked ((VGA_HEIGHT - 1) * VGA_WIDTH)
      (VGA_HEIGHT * VGA_WIDTH) with row := VGA_HEIGHT - 1, scrolls := st.scrolls + 1 }

theorem scrolled_cells (st : Vga) (i : Nat) : st.scrolled.cells i =
    if (VGA_HEIGHT - 1) * VGA_WIDTH ≤ i ∧ i < VGA_HEIGHT * VGA_WIDTH then st.cell 32
    else if i < (VGA_HEIGHT - 1) * VGA_WIDTH then st.cells (i + VGA_WIDTH) else st.cells i := rfl

theorem scroll_eq (st : Vga) : st.scroll = some st.scrolled := by
  have hrow : ∀ y < VGA_HEIGHT - 1,
      Loop.upTo (fun x st => (st.load ((y + 1) * VGA_WIDTH + x)).bind fun w =>
        store (y * VGA_WIDTH + x) w st) VGA_WIDTH (st.shifted (y * VGA_WIDTH)) =
        some (st.shifted ((y + 1) * VGA_WIDTH)) := by
    intro y hy
    rw [Nat.succ_mul]
    apply Loop.upTo_eq (g := fun x => st.shifted (y * VGA_WIDTH + x))
    intro x hx
    have hsrc : y * VGA_WIDTH + VGA_WIDTH + x = y * VGA_WIDTH + x + VGA_WIDTH := by omega
    rw [hsrc]
    apply store_shifted
    rw [VGA_HEIGHT, VGA_WIDTH] at *
    omega
  have hrows := Loop.upTo_eq (g := fun y => st.shifted (y * VGA_WIDTH)) hrow
  rw [Nat.zero_mul, shifted_zero] at hrows
  have hlast : ∀ st : Vga, Loop.upTo (fun x st => store ((VGA_HEIGHT - 1) * VGA_WIDTH + x)
      (st.cell 32) st) VGA_WIDTH st =
        some (st.blanked ((VGA_HEIGHT - 1) * VGA_WIDTH) (VGA_HEIGHT * VGA_WIDTH)) := by
    intro st
    have hblank := Loop.upTo_eq (n := VGA_WIDTH)
      (f := fun x st => store ((VGA_HEIGHT - 1) * VGA_WIDTH + x) (st.cell 32) st)
      (g := fun x => st.blanked ((VGA_HEIGHT - 1) * VGA_WIDTH) ((VGA_HEIGHT - 1) * VGA_WIDTH + x))
      fun x hx => store_blanked (Nat.le_add_right _ _) (Nat.add_lt_add_left hx _)
    rwa [Nat.add_zero, blanked_self] at hblank
  rw [scroll, hrows, Option.bind_some, hlast]
  rfl

/-! ## The window -/

theorem fill_glyphs (t : Terminal) (a b : Nat) (c : UInt8) (r x : Nat) :
    (t.fill a b c).glyphs r x = if r = t.row ∧ a ≤ x ∧ x < b then c else t.glyphs r x := rfl

theorem fill_self (t : Terminal) (a : Nat) (c : UInt8) : t.fill a a c = t := by
  ext r x
  · rw [fill_glyphs, if_neg (by omega)]
  · rfl
  · rfl

theorem fill_fill {d : Nat} (hab : a ≤ b) (hbd : b ≤ d) :
    (t.fill a b c).fill b d c = t.fill a d c := by
  ext r x
  · rw [fill_glyphs, fill_glyphs, fill_glyphs]
    by_cases h : r = t.row ∧ a ≤ x ∧ x < d
    · by_cases hb : b ≤ x
      · rw [if_pos ⟨h.1, hb, h.2.2⟩, if_pos h]
      · rw [if_neg (by omega), if_pos (by omega), if_pos h]
    · rw [if_neg h, if_neg fun hr => h ⟨hr.1, by omega⟩, if_neg (by omega)]
  · rfl
  · rfl

/-- The rows of the screen are those of the terminal from the number of scrolls on. Below the cursor
the terminal is blank. -/
structure Shows (st : Vga) (t : Terminal) : Prop where
  row_lt : st.row < VGA_HEIGHT
  row : t.row = st.scrolls + st.row
  glyphs : ∀ y < VGA_HEIGHT, ∀ x < VGA_WIDTH,
    glyph (st.cells (y * VGA_WIDTH + x)) = t.glyphs (st.scrolls + y) x
  below : ∀ r > t.row, ∀ x, t.glyphs r x = 32

structure Window (st : Vga) (t : Terminal) : Prop extends Shows st t where
  col_lt : st.col < VGA_WIDTH
  col : t.col = st.col

theorem Shows.setCol (S : Shows st t) (x y : Nat) : Shows { st with col := x } { t with col := y } :=
  ⟨S.row_lt, S.row, S.glyphs, S.below⟩

theorem cell_inj {y x y' x' : Nat} (hx : x < VGA_WIDTH) (hx' : x' < VGA_WIDTH) :
    y * VGA_WIDTH + x = y' * VGA_WIDTH + x' ↔ y = y' ∧ x = x' := by
  rw [VGA_WIDTH] at *
  omega

theorem cell_lt (hy : y < VGA_HEIGHT) (hx : x < VGA_WIDTH) :
    y * VGA_WIDTH + x < VGA_HEIGHT * VGA_WIDTH := by
  rw [VGA_HEIGHT, VGA_WIDTH] at *
  omega

/-- The glyph `c` in the row of the cursor. -/
def put (st : Vga) (x : Nat) (c : UInt8) : Vga :=
  { st with cells := Function.update st.cells (st.row * VGA_WIDTH + x) (st.cell c) }

theorem Shows.store (S : Shows st t) (hx : x < VGA_WIDTH) :
    st.store (st.row * VGA_WIDTH + x) (st.cell c) = some (st.put x c) := by
  rw [Vga.store, if_pos (cell_lt S.row_lt hx)]
  rfl

theorem Shows.put (S : Shows st t) (hx : x < VGA_WIDTH) (c : UInt8) :
    Shows (st.put x c) (t.fill x (x + 1) c) where
  row_lt := S.row_lt
  row := S.row
  glyphs y hy x' hx' := by
    have hold := S.glyphs y hy x' hx'
    have hrow : st.scrolls + y = t.row ↔ y = st.row := by
      have := S.row
      omega
    by_cases he : y = st.row ∧ x' = x
    · obtain ⟨rfl, rfl⟩ := he
      show glyph (Function.update st.cells _ _ _) =
        (t.fill x' (x' + 1) c).glyphs (st.scrolls + st.row) x'
      rw [Function.update_self, glyph_cell, fill_glyphs, if_pos ⟨hrow.mpr rfl, by omega⟩]
    · show glyph (Function.update st.cells _ _ _) = (t.fill x (x + 1) c).glyphs (st.scrolls + y) x'
      rw [Function.update_of_ne fun h => he ((cell_inj hx' hx).mp h), fill_glyphs, if_neg (by omega)]
      exact hold
  below r hr x' := by
    have hne : r ≠ t.row := Nat.ne_of_gt hr
    rw [fill_glyphs, if_neg fun h => hne h.1]
    exact S.below r hr x'

/-- The loop for a tab, as far as there are columns. -/
theorem Shows.tabLoop (S : Shows st t) (h : st.col + n ≤ VGA_WIDTH) :
    ∃ st', Vga.tabLoop n st = some st' ∧
    st'.col = st.col + n ∧ Shows st' (t.fill st.col (st.col + n) 32) := by
  induction n generalizing st t with
  | zero => exact ⟨st, rfl, rfl, by rwa [Nat.add_zero, fill_self]⟩
  | succ n ih =>
    have hcol : st.col < VGA_WIDTH := by omega
    have S' : Shows { st.put st.col 32 with col := st.col + 1 } (t.fill st.col (st.col + 1) 32) :=
      (S.put hcol 32).setCol _ _
    have hrest : st.col + 1 + n = st.col + (n + 1) := by omega
    obtain ⟨st', htab, hcol', hshows⟩ := ih S' (by rw [hrest]; exact h)
    refine ⟨st', ?_, hcol'.trans hrest, ?_⟩
    · rw [Vga.tabLoop, if_pos hcol, S.store hcol]
      exact htab
    · rw [← hrest, ← fill_fill (Nat.le_succ _) (Nat.le_add_right _ n)]
      exact hshows

/-- The cursor goes down, the window with it when it is on its last row. -/
theorem Shows.nextRow (S : Shows st t) : ∃ st', st.nextRow = some st' ∧ st'.col = st.col ∧
    Shows st' { t with row := t.row + 1 } := by
  have hrow := S.row
  have hlt := S.row_lt
  by_cases hlast : VGA_HEIGHT ≤ st.row + 1
  · refine ⟨_, (if_pos hlast).trans (scroll_eq _), rfl, ?_⟩
    constructor
    · show VGA_HEIGHT - 1 < VGA_HEIGHT
      decide
    · show t.row + 1 = st.scrolls + 1 + (VGA_HEIGHT - 1)
      omega
    · intro y hy x hx
      show glyph ({ st with row := st.row + 1 }.scrolled.cells (y * VGA_WIDTH + x)) =
        t.glyphs (st.scrolls + 1 + y) x
      rw [scrolled_cells]
      obtain hup | rfl : y < VGA_HEIGHT - 1 ∨ y = VGA_HEIGHT - 1 := by omega
      · have hcell : y * VGA_WIDTH + x + VGA_WIDTH = (y + 1) * VGA_WIDTH + x := by
          rw [Nat.succ_mul]
          omega
        have hsum : st.scrolls + 1 + y = st.scrolls + (y + 1) := by omega
        have hin : y * VGA_WIDTH + x < (VGA_HEIGHT - 1) * VGA_WIDTH := by
          rw [VGA_HEIGHT, VGA_WIDTH] at *
          omega
        rw [if_neg (by omega), if_pos hin, hcell, hsum]
        exact S.glyphs (y + 1) (by omega) x hx
      · rw [if_pos ⟨Nat.le_add_right _ _, cell_lt hy hx⟩, S.below _ (by omega)]
        exact glyph_cell st 32
    · exact fun r hr x => S.below r (Nat.lt_of_succ_lt hr) x
  · refine ⟨_, if_neg hlast, rfl, Nat.not_le.mp hlast, ?_, S.glyphs, fun r hr x => ?_⟩
    · show t.row + 1 = st.scrolls + (st.row + 1)
      omega
    · exact S.below r (Nat.lt_of_succ_lt hr) x

theorem Shows.newline (S : Shows st t) : ∃ st', { st with col := 0 }.nextRow = some st' ∧
    Window st' { t with row := t.row + 1, col := 0 } := by
  obtain ⟨st', hst', hcol, hshows⟩ := (S.setCol 0 0).nextRow
  refine ⟨st', hst', hshows, ?_, hcol.symm⟩
  rw [hcol]
  exact Nat.zero_lt_succ 79

/-- Behind a store, the cursor may have left the row. -/
theorem Shows.wrap (S : Shows st t) (hle : st.col ≤ VGA_WIDTH) :
    ∃ st', (if VGA_WIDTH ≤ st.col then { st with col := 0 }.nextRow else some st) = some st' ∧
      Window st' { t with col := st.col }.wrap := by
  rw [Terminal.wrap]
  by_cases hfull : st.col = VGA_WIDTH
  · rw [if_pos (Nat.le_of_eq hfull.symm), if_pos hfull]
    exact S.newline
  · rw [if_neg (by omega), if_neg hfull]
    exact ⟨st, rfl, S.setCol st.col st.col, Nat.lt_of_le_of_ne hle hfull, rfl⟩

/-- The registers of the controller have the place of the cursor. -/
def CursorShown (st : Vga) : Prop := st.high * 256 + st.low = st.row * VGA_WIDTH + st.col

theorem moveCursor_shown (hrow : st.row < VGA_HEIGHT) (hcol : st.col < VGA_WIDTH) :
    CursorShown st.moveCursor := by
  have hlt : st.row * VGA_WIDTH + st.col < 2000 := cell_lt hrow hcol
  have hmask : ∀ n, n &&& 0xFF = n % 2 ^ 8 := fun n => Nat.and_two_pow_sub_one_eq_mod n 8
  have hpos : (st.row * VGA_WIDTH + st.col) % 2 ^ 16 = st.row * VGA_WIDTH + st.col :=
    Nat.mod_eq_of_lt (by omega)
  simp only [CursorShown, moveCursor, hmask, hpos, Nat.shiftRight_eq_div_pow]
  omega

/-- Every byte does to the window what it does to the terminal. -/
theorem Window.type (W : Window st t) (c : UInt8) :
    ∃ st', st.vgaPutchar c = some st' ∧ Window st' (t.type c) ∧ CursorShown st' := by
  have hcol := W.col_lt
  have hmove : ∀ {o : Option Vga} {t' : Terminal}, (∃ st', o = some st' ∧ Window st' t') →
      ∃ st', o.map moveCursor = some st' ∧ Window st' t' ∧ CursorShown st' := by
    rintro _ t' ⟨st', rfl, W'⟩
    exact ⟨st'.moveCursor, rfl, ⟨⟨W'.row_lt, W'.row, W'.glyphs, W'.below⟩, W'.col_lt, W'.col⟩,
      moveCursor_shown W'.row_lt W'.col_lt⟩
  rw [vgaPutchar, Terminal.type]
  apply hmove
  split
  · exact W.newline
  split
  · -- the next tab stop is in the row, or just behind it
    have hstop : st.col + (4 - st.col % 4) = (t.col / 4 + 1) * 4 := by
      rw [W.col]
      omega
    have hfits : st.col + (4 - st.col % 4) ≤ VGA_WIDTH := by
      rw [VGA_WIDTH] at *
      omega
    obtain ⟨st', htab, hcol', hshows⟩ := W.tabLoop hfits
    obtain ⟨u, hu, hwrap⟩ := hshows.wrap (hcol' ▸ hfits)
    rw [hcol', hstop, ← W.col] at hwrap
    rw [htab]
    exact ⟨u, hu, hwrap⟩
  split
  · exact ⟨_, rfl, W.setCol 0 0, Nat.zero_lt_succ 79, rfl⟩
  split
  · rw [W.col]
    by_cases h0 : 0 < st.col
    · have hprev : st.col - 1 < VGA_WIDTH := Nat.lt_of_le_of_lt (Nat.sub_le _ _) hcol
      have hback := (W.setCol (st.col - 1) t.col).put hprev 32
      rw [if_pos h0, if_neg (Nat.ne_of_gt h0)]
      refine ⟨_, (W.setCol (st.col - 1) t.col).store hprev, ?_, hprev, rfl⟩
      rw [Nat.sub_add_cancel h0] at hback
      exact hback.setCol _ _
    · rw [if_neg h0, if_pos (Nat.eq_zero_of_not_pos h0)]
      exact ⟨st, rfl, W⟩
  · rw [W.store hcol, Option.bind_some, W.col]
    exact ((W.put hcol c).setCol (st.col + 1) t.col).wrap hcol

theorem vgaClear_window (st : Vga) :
    ∃ st', st.vgaClear = some st' ∧ Window st' Terminal.blank ∧ CursorShown st' := by
  refine ⟨_, vgaClear_eq st, ⟨⟨Nat.zero_lt_succ 24, rfl, fun y hy x hx => ?_, fun _ _ _ => rfl⟩,
    Nat.zero_lt_succ 79, rfl⟩, moveCursor_shown (Nat.zero_lt_succ 24) (Nat.zero_lt_succ 79)⟩
  have hblank : (st.blanked 0 (VGA_HEIGHT * VGA_WIDTH)).cells (y * VGA_WIDTH + x) = st.cell 32 :=
    if_pos ⟨Nat.zero_le _, cell_lt hy hx⟩
  exact (congrArg glyph hblank).trans (glyph_cell st 32)

end Vga

open Vga in
/-- The same for a text. -/
theorem Vga.Window.write {st : Vga} {t : Terminal} (W : Window st t) (s : List UInt8) :
    ∃ st', vgaWrite s st = some st' ∧ Window st' (s.foldl Terminal.type t) ∧
      (CursorShown st → CursorShown st') := by
  induction s generalizing st t with
  | nil => exact ⟨st, rfl, W, id⟩
  | cons c s ih =>
    obtain ⟨st₁, hput, W₁, hcursor₁⟩ := W.type c
    obtain ⟨st', hwrite, W', hcursor'⟩ := ih W₁
    rw [vgaWrite, hput]
    exact ⟨st', hwrite, W', fun _ => hcursor' hcursor₁⟩

open Vga in
/-- Behind `vga_clear` no byte is written outside the screen, and what is seen is the window on the
terminal of unbounded height that starts at the number of scrolls. -/
theorem vgaWrite_window (st : Vga) (s : List UInt8) :
    ∃ st', (st.vgaClear.bind (vgaWrite s)) = some st' ∧ Window st' (Terminal.typed s) ∧
      CursorShown st' := by
  obtain ⟨st', hclear, W, hcursor⟩ := vgaClear_window st
  obtain ⟨st'', hwrite, W', hcursor'⟩ := W.write s
  rw [hclear]
  exact ⟨st'', hwrite, W', hcursor' hcursor⟩

end BojanOS
