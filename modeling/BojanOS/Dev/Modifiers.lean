import BojanOS.Dev.Keyboard

/-!
# Shift and Ctrl (`keyboard_irq`)

There are two keys of each kind and one flag for them. A keyboard is described by the keys that go
down and up and by the bytes they send; the handler sees one byte at a time.
-/

namespace BojanOS

namespace Keyboard

inductive Key where
  | lshift
  | rshift
  | lctrl
  | rctrl
  /-- Any other key, with the bytes it sends when it goes down and up. -/
  | other (make brk : List UInt8)

/-- A key goes down or up. -/
structure KeyEvent where
  key : Key
  down : Bool

/-- The make or break code. -/
def KeyEvent.codes : KeyEvent → List UInt8
  | ⟨.lshift, true⟩ => [0x2A]
  | ⟨.lshift, false⟩ => [0xAA]
  | ⟨.rshift, true⟩ => [0x36]
  | ⟨.rshift, false⟩ => [0xB6]
  | ⟨.lctrl, true⟩ => [0x1D]
  | ⟨.lctrl, false⟩ => [0x9D]
  | ⟨.rctrl, true⟩ => [0xE0, 0x1D]
  | ⟨.rctrl, false⟩ => [0xE0, 0x9D]
  | ⟨.other make _, true⟩ => make
  | ⟨.other _ brk, false⟩ => brk

/-- The modifier keys that are held. -/
structure Held where
  lshift : Bool
  rshift : Bool
  lctrl : Bool
  rctrl : Bool

namespace Held

def none : Held := ⟨false, false, false, false⟩

def after (h : Held) : KeyEvent → Held
  | ⟨.lshift, down⟩ => { h with lshift := down }
  | ⟨.rshift, down⟩ => { h with rshift := down }
  | ⟨.lctrl, down⟩ => { h with lctrl := down }
  | ⟨.rctrl, down⟩ => { h with rctrl := down }
  | ⟨.other _ _, _⟩ => h

def shift (h : Held) : Bool := h.lshift || h.rshift

def ctrl (h : Held) : Bool := h.lctrl || h.rctrl

end Held

/-- The keyboard driver, and the keys whose codes it has seen. -/
structure Desk where
  kb : Keyboard
  held : Held

/-- The flags say what is held. -/
def Desk.Told (d : Desk) : Prop :=
  d.kb.shiftDown = d.held.shift ∧ d.kb.ctrlDown = d.held.ctrl

/-- The states behind the interrupts for the bytes of one code. The key counts as held, or as
released, with the last byte. -/
def byteStates (h : Held) : List UInt8 → Desk → List Desk
  | [], _ => []
  | [b], d => [⟨d.kb.keyboardIrq b, h⟩]
  | b :: bs, d => ⟨d.kb.keyboardIrq b, d.held⟩ :: byteStates h bs ⟨d.kb.keyboardIrq b, d.held⟩

def KeyEvent.states (e : KeyEvent) (d : Desk) : List Desk := byteStates (d.held.after e) e.codes d

/-- The state when the whole code is through. -/
def KeyEvent.run (e : KeyEvent) (d : Desk) : Desk :=
  ⟨e.codes.foldl (fun kb b => kb.keyboardIrq b) d.kb, d.held.after e⟩

/-- The states behind all interrupts of a sequence of events. -/
def states : List KeyEvent → Desk → List Desk
  | [], _ => []
  | e :: es, d => e.states d ++ states es (e.run d)

def plugged (kb : Keyboard) : Desk := ⟨kb.keyboardInit, .none⟩

/-! ## When the flags are right -/

def IsShift (b : UInt8) : Prop := b &&& 0x7F = 0x2A ∨ b &&& 0x7F = 0x36

instance (b : UInt8) : Decidable (IsShift b) := instDecidableOr

def IsCtrl (b : UInt8) : Prop := b &&& 0x7F = 0x1D

instance (b : UInt8) : Decidable (IsCtrl b) := instDecidableEqUInt8 _ _

/-- The break bit. -/
def released (b : UInt8) : Bool := b &&& 0x80 ≠ 0

/-- A Shift or Ctrl key goes up only when the other one is not held. What another key sends looks like
the code of a Shift or Ctrl key only if such a key is, or is not, held already. -/
def KeyEvent.Clear (h : Held) : KeyEvent → Prop
  | ⟨.lshift, down⟩ => down = false → h.rshift = false
  | ⟨.rshift, down⟩ => down = false → h.lshift = false
  | ⟨.lctrl, down⟩ => down = false → h.rctrl = false
  | ⟨.rctrl, down⟩ => down = false → h.lctrl = false
  | ⟨.other make brk, down⟩ => ∀ b ∈ (if down then make else brk),
      (IsShift b → released b = !h.shift) ∧ (IsCtrl b → released b = !h.ctrl)

def AllClear (h : Held) : List KeyEvent → Prop
  | [] => True
  | e :: es => e.Clear h ∧ AllClear (h.after e) es

/-! ## One interrupt -/

variable {kb : Keyboard} {b : UInt8} {h : Held} {d : Desk} {e : KeyEvent} {es : List KeyEvent}

theorem bufPush_shiftDown (c : Int) (kb : Keyboard) : (kb.bufPush c).shiftDown = kb.shiftDown := by
  rw [bufPush]
  split <;> rfl

theorem bufPush_ctrlDown (c : Int) (kb : Keyboard) : (kb.bufPush c).ctrlDown = kb.ctrlDown := by
  rw [bufPush]
  split <;> rfl

theorem not_released : decide (¬ b &&& 0x80 ≠ 0) = !released b := by
  rw [released]
  exact decide_not

theorem keyboardIrq_shift (hb : IsShift b) :
    kb.keyboardIrq b = { kb with shiftDown := !released b } := by
  have hcode : b &&& 0x7F = 0x2A ∨ b &&& 0x7F = 0x36 := hb
  rw [keyboardIrq]
  simp only
  rw [if_pos hcode, not_released]

theorem keyboardIrq_ctrl (hb : IsCtrl b) :
    kb.keyboardIrq b = { kb with ctrlDown := !released b } := by
  have hcode : b &&& 0x7F = 0x1D := hb
  rw [keyboardIrq]
  simp only
  rw [hcode, if_neg (by decide), if_pos rfl, not_released]

/-- The bytes of all other keys leave the flags alone. -/
theorem keyboardIrq_other (hs : ¬ IsShift b) (hc : ¬ IsCtrl b) :
    (kb.keyboardIrq b).shiftDown = kb.shiftDown ∧ (kb.keyboardIrq b).ctrlDown = kb.ctrlDown := by
  have hshift : ¬ (b &&& 0x7F = 0x2A ∨ b &&& 0x7F = 0x36) := hs
  have hctrl : ¬ b &&& 0x7F = 0x1D := hc
  rw [keyboardIrq]
  simp only
  rw [if_neg hshift, if_neg hctrl]
  split
  · exact ⟨rfl, rfl⟩
  split
  · exact ⟨rfl, rfl⟩
  split
  · exact ⟨bufPush_shiftDown _ _, bufPush_ctrlDown _ _⟩
  split
  · exact ⟨bufPush_shiftDown _ _, bufPush_ctrlDown _ _⟩
  split
  · exact ⟨bufPush_shiftDown _ _, bufPush_ctrlDown _ _⟩
  · generalize (if kb.shiftDown then keymapShift else keymap).getD _ 0 = c
    by_cases hc : c ≠ 0
    · rw [if_pos hc]
      exact ⟨bufPush_shiftDown _ _, bufPush_ctrlDown _ _⟩
    · rw [if_neg hc]
      exact ⟨rfl, rfl⟩

theorem not_isCtrl_of_isShift (hs : IsShift b) : ¬ IsCtrl b := by
  intro hc
  rw [IsShift, show b &&& 0x7F = 0x1D from hc] at hs
  exact absurd hs (by decide)

/-- When the flags are right behind a byte, with `h` the keys that are held then. -/
theorem told_shift (H : d.Told) (hb : IsShift b) (hh : h.ctrl = d.held.ctrl) :
    Desk.Told ⟨d.kb.keyboardIrq b, h⟩ ↔ released b = !h.shift := by
  rw [Desk.Told, keyboardIrq_shift hb]
  simp only [hh, H.2, and_true, Bool.not_eq_eq_eq_not]

theorem told_ctrl (H : d.Told) (hb : IsCtrl b) (hh : h.shift = d.held.shift) :
    Desk.Told ⟨d.kb.keyboardIrq b, h⟩ ↔ released b = !h.ctrl := by
  rw [Desk.Told, keyboardIrq_ctrl hb]
  simp only [hh, H.1, true_and, Bool.not_eq_eq_eq_not]

theorem told_other (H : d.Told) (hs : ¬ IsShift b) (hc : ¬ IsCtrl b) :
    Desk.Told ⟨d.kb.keyboardIrq b, d.held⟩ := by
  have hsame : (d.kb.keyboardIrq b).shiftDown = _ ∧ _ := keyboardIrq_other hs hc
  obtain ⟨hshift, hctrl⟩ := hsame
  exact ⟨hshift.trans H.1, hctrl.trans H.2⟩

/-- A byte with which nothing is pressed or released. -/
theorem told_byte (H : d.Told) : Desk.Told ⟨d.kb.keyboardIrq b, d.held⟩ ↔
    (IsShift b → released b = !d.held.shift) ∧ (IsCtrl b → released b = !d.held.ctrl) := by
  by_cases hs : IsShift b
  · rw [told_shift H hs rfl]
    exact ⟨fun h => ⟨fun _ => h, fun hc => absurd hc (not_isCtrl_of_isShift hs)⟩, fun h => h.1 hs⟩
  by_cases hc : IsCtrl b
  · rw [told_ctrl H hc rfl]
    exact ⟨fun h => ⟨fun hs' => absurd hs' hs, fun _ => h⟩, fun h => h.2 hc⟩
  · exact iff_of_true (told_other H hs hc) ⟨fun h => absurd h hs, fun h => absurd h hc⟩

/-! ## One key event -/

theorem told_bytes (H : d.Told) (bs : List UInt8) : (∀ d' ∈ byteStates d.held bs d, d'.Told) ↔
    ∀ b ∈ bs, (IsShift b → released b = !d.held.shift) ∧ (IsCtrl b → released b = !d.held.ctrl) := by
  induction bs generalizing d with
  | nil => exact iff_of_true (fun _ h => nomatch h) fun _ h => nomatch h
  | cons b bs ih =>
    have hstates : byteStates d.held (b :: bs) d = ⟨d.kb.keyboardIrq b, d.held⟩ ::
        byteStates d.held bs ⟨d.kb.keyboardIrq b, d.held⟩ := by cases bs <;> rfl
    rw [hstates, List.forall_mem_cons, List.forall_mem_cons, ← told_byte H]
    exact and_congr_right fun hb => ih hb

/-- The last state is the one behind the whole code. -/
theorem run_mem (h : Held) {bs : List UInt8} (hbs : bs ≠ []) (d : Desk) :
    ⟨bs.foldl (fun kb b => kb.keyboardIrq b) d.kb, h⟩ ∈ byteStates h bs d := by
  induction bs generalizing d with
  | nil => exact absurd rfl hbs
  | cons b bs ih =>
    cases bs with
    | nil => exact List.mem_cons_self
    | cons b' bs => exact List.mem_cons_of_mem _ (ih (List.cons_ne_nil _ _) _)

theorem run_told (H : d.Told) (he : ∀ d' ∈ e.states d, d'.Told) : (e.run d).Told := by
  by_cases hcodes : e.codes = []
  · -- only some other key may send nothing
    obtain ⟨key, down⟩ := e
    have hheld : d.held.after ⟨key, down⟩ = d.held := by
      cases key with
      | other make brk => rfl
      | _ => cases down <;> exact absurd hcodes (List.cons_ne_nil _ _)
    rw [KeyEvent.run, hcodes, hheld]
    exact H
  · exact he _ (run_mem _ hcodes d)

/-- The state behind the prefix of a two-byte code. -/
theorem told_prefix (H : d.Told) : Desk.Told ⟨d.kb.keyboardIrq 0xE0, d.held⟩ :=
  told_other H (by decide) (by decide)

/-- The key of a pair goes down or up, and the other one is or is not held. -/
theorem told_shiftKey {down other : Bool} (H : d.Told) (hb : IsShift b) (hdown : released b = !down)
    (hshift : h.shift = (down || other)) (hctrl : h.ctrl = d.held.ctrl) :
    Desk.Told ⟨d.kb.keyboardIrq b, h⟩ ↔ (down = false → other = false) := by
  rw [told_shift H hb hctrl, hdown, hshift]
  cases down <;> cases other <;> decide

theorem told_ctrlKey {down other : Bool} (H : d.Told) (hb : IsCtrl b) (hdown : released b = !down)
    (hctrl : h.ctrl = (down || other)) (hshift : h.shift = d.held.shift) :
    Desk.Told ⟨d.kb.keyboardIrq b, h⟩ ↔ (down = false → other = false) := by
  rw [told_ctrl H hb hshift, hdown, hctrl]
  cases down <;> cases other <;> decide

theorem told_event (H : d.Told) : (∀ d' ∈ e.states d, d'.Told) ↔ e.Clear d.held := by
  obtain ⟨key, down⟩ := e
  have hone : ∀ d' : Desk, (∀ d'' ∈ [d'], d''.Told) ↔ d'.Told := fun _ => List.forall_mem_singleton
  cases key with
  | lshift =>
    cases down
    all_goals
      apply (hone _).trans
      exact told_shiftKey H (by decide) (by decide) rfl rfl
  | rshift =>
    cases down
    all_goals
      apply (hone _).trans
      exact told_shiftKey H (by decide) (by decide) (Bool.or_comm _ _) rfl
  | lctrl =>
    cases down
    all_goals
      apply (hone _).trans
      exact told_ctrlKey H (by decide) (by decide) rfl rfl
  | rctrl =>
    -- behind the prefix byte nothing has changed yet
    have H' := told_prefix H
    cases down
    all_goals
      refine List.forall_mem_cons.trans ((and_iff_right H').trans ((hone _).trans ?_))
      exact told_ctrlKey H' (by decide) (by decide) (Bool.or_comm _ _) rfl
  | other make brk =>
    cases down
    all_goals exact told_bytes H _

end Keyboard

open Keyboard in
/-- The flags are right behind every interrupt exactly when all events are clear. -/
theorem modifiers_iff (kb : Keyboard) (es : List KeyEvent) :
    (∀ d ∈ states es (plugged kb), d.Told) ↔ AllClear .none es := by
  have hrun : ∀ (es : List KeyEvent) (d : Desk), d.Told →
      ((∀ d' ∈ states es d, d'.Told) ↔ AllClear d.held es) := by
    intro es
    induction es with
    | nil => exact fun d _ => iff_of_true (fun _ h => nomatch h) trivial
    | cons e es ih =>
      intro d H
      rw [states, AllClear, List.forall_mem_append, ← told_event H]
      exact and_congr_right fun he => ih _ (run_told H he)
  exact hrun es (plugged kb) ⟨rfl, rfl⟩

open Keyboard in
/-- Both Shift keys go down, the left one up: the flag is cleared, and the right one still held. -/
theorem shifts_not_told :
    ¬ ∀ d ∈ states [⟨.lshift, true⟩, ⟨.rshift, true⟩, ⟨.lshift, false⟩] (plugged .zero),
      d.Told := by
  intro H
  have htold := H _ (List.mem_of_getElem? (i := 2) rfl)
  cases htold.1

end BojanOS
