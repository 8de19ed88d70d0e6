import BojanOS.Dev.Modifiers
import BojanOS.Shell.LineEditor

/-!
# The codes of a text (`keyboard_irq`)

`keyboard_irq` as a decoder: the two modifiers are its state, the bytes of the keyboard come in and
the codes for `buf_push` come out. `strokes` types a text, and the decoder gives it back.
-/

namespace BojanOS

namespace Keyboard

/-- `shift_down` and `ctrl_down`. -/
structure Mods where
  shift : Bool
  ctrl : Bool
  deriving DecidableEq

namespace Mods

def none : Mods := ⟨false, false⟩

def after (m : Mods) (sc : UInt8) : Mods :=
  if IsShift sc then { m with shift := !released sc }
  else if IsCtrl sc then { m with ctrl := !released sc }
  else m

/-- The code that the byte pushes. -/
def code (m : Mods) (sc : UInt8) : Option Int :=
  if IsShift sc ∨ IsCtrl sc ∨ released sc then Option.none
  else if m.ctrl ∧ sc &&& 0x7F = 0x20 then some KB_CTRL_D
  else if m.ctrl ∧ sc &&& 0x7F = 0x2E then some KB_CTRL_C
  else (special (sc &&& 0x7F)).orElse fun _ =>
    let c := (if m.shift then keymapShift else keymap).getD (sc &&& 0x7F).toNat 0
    if c ≠ 0 then some c else Option.none

/-- The codes that the bytes push. -/
def codes : Mods → List UInt8 → List Int
  | _, [] => []
  | m, sc :: bs => (m.code sc).toList ++ codes (m.after sc) bs

/-- The codes of the bytes that are not marked. -/
def kept : Mods → List (UInt8 × Bool) → List Int
  | _, [] => []
  | m, (sc, marked) :: bs =>
    (if marked then [] else (m.code sc).toList) ++ kept (m.after sc) bs

end Mods

/-- The modifiers of the keyboard. -/
def mods (kb : Keyboard) : Mods := ⟨kb.shiftDown, kb.ctrlDown⟩

variable {kb : Keyboard} {m : Mods} {sc : UInt8} {bs : List UInt8}

namespace Mods

theorem codes_append (m : Mods) (bs bs' : List UInt8) :
    m.codes (bs ++ bs') = m.codes bs ++ (bs.foldl after m).codes bs' := by
  induction bs generalizing m with
  | nil => rfl
  | cons sc bs ih => rw [List.cons_append, codes, ih, codes, List.foldl_cons, List.append_assoc]

theorem codes_snoc (m : Mods) (bs : List UInt8) (sc : UInt8) :
    m.codes (bs ++ [sc]) = m.codes bs ++ ((bs.foldl after m).code sc).toList := by
  rw [codes_append, codes, codes, List.append_nil]

theorem kept_snoc (m : Mods) (bs : List (UInt8 × Bool)) (sc : UInt8) (marked : Bool) :
    m.kept (bs ++ [(sc, marked)]) = m.kept bs ++
      if marked then [] else (((bs.map Prod.fst).foldl after m).code sc).toList := by
  induction bs generalizing m with
  | nil => exact List.append_nil _
  | cons b bs ih => rw [List.cons_append, kept, ih, kept, List.append_assoc, List.map_cons,
      List.foldl_cons]

theorem kept_sublist (m : Mods) (bs : List (UInt8 × Bool)) :
    (m.kept bs).Sublist (m.codes (bs.map Prod.fst)) := by
  induction bs generalizing m with
  | nil => exact .slnil
  | cons b bs ih =>
    rw [kept, List.map_cons, codes]
    refine List.Sublist.append ?_ (ih _)
    split
    · exact List.nil_sublist _
    · exact .refl _

end Mods

/-- The handler is the decoder, with `buf_push` for the code that comes out. -/
theorem keyboardIrq_mods (sc : UInt8) (kb : Keyboard) :
    (kb.keyboardIrq sc).mods = kb.mods.after sc := by
  rw [Mods.after]
  split_ifs with hs hc
  · rw [keyboardIrq_shift hs]
    rfl
  · rw [keyboardIrq_ctrl hc]
    rfl
  · have hsame : (kb.keyboardIrq sc).shiftDown = kb.shiftDown ∧
        (kb.keyboardIrq sc).ctrlDown = kb.ctrlDown := keyboardIrq_other hs hc
    rw [mods, hsame.1, hsame.2, mods]

theorem keyboardIrq_code (sc : UInt8) (kb : Keyboard) :
    (∃ c, kb.mods.code sc = some c ∧ kb.keyboardIrq sc = kb.bufPush c) ∨
      kb.mods.code sc = none ∧ (kb.keyboardIrq sc).buf = kb.buf ∧
        (kb.keyboardIrq sc).bufHead = kb.bufHead ∧ (kb.keyboardIrq sc).bufTail = kb.bufTail := by
  rw [Mods.code, mods]
  simp only
  by_cases hs : IsShift sc
  · rw [keyboardIrq_shift hs, if_pos (.inl hs)]
    exact .inr ⟨rfl, rfl, rfl, rfl⟩
  by_cases hc : IsCtrl sc
  · rw [keyboardIrq_ctrl hc, if_pos (.inr (.inl hc))]
    exact .inr ⟨rfl, rfl, rfl, rfl⟩
  have hshift : ¬ (sc &&& 0x7F = 0x2A ∨ sc &&& 0x7F = 0x36) := hs
  have hctrl : ¬ sc &&& 0x7F = 0x1D := hc
  -- the prefix of the extended keys has the break bit
  have hE0 : sc &&& 0x7F ≠ 0xE0 := by
    intro h
    have hbit : sc &&& 0x7F &&& 0x80 = 0xE0 &&& 0x80 := congrArg (· &&& 0x80) h
    rw [UInt8.and_assoc] at hbit
    have hzero : sc &&& (0x7F &&& 0x80) = 0 := UInt8.and_zero
    rw [hzero] at hbit
    exact absurd hbit (by decide)
  rw [keyboardIrq]
  simp only
  rw [if_neg hshift, if_neg hctrl]
  by_cases hr : released sc
  · rw [if_pos (of_decide_eq_true hr), if_pos (.inr (.inr hr))]
    exact .inr ⟨rfl, rfl, rfl, rfl⟩
  have hbreak : ¬ sc &&& 0x80 ≠ 0 := fun h => hr (decide_eq_true h)
  rw [if_neg hbreak, if_neg hE0, if_neg fun h => h.elim hs (·.elim hc hr)]
  by_cases hD : kb.ctrlDown ∧ sc &&& 0x7F = 0x20
  · rw [if_pos hD, if_pos hD]
    exact .inl ⟨_, rfl, rfl⟩
  by_cases hC : kb.ctrlDown ∧ sc &&& 0x7F = 0x2E
  · rw [if_neg hD, if_neg hD, if_pos hC, if_pos hC]
    exact .inl ⟨_, rfl, rfl⟩
  rw [if_neg hD, if_neg hD, if_neg hC, if_neg hC]
  cases special (sc &&& 0x7F) with
  | some c => exact .inl ⟨c, rfl, rfl⟩
  | none =>
    simp only [Option.orElse]
    generalize (if kb.shiftDown then keymapShift else keymap).getD _ 0 = c
    by_cases hzero : c ≠ 0
    · rw [if_pos hzero, if_pos hzero]
      exact .inl ⟨_, rfl, rfl⟩
    · rw [if_neg hzero, if_neg hzero]
      exact .inr ⟨rfl, rfl, rfl, rfl⟩

/-- The queue does not depend on the modifiers. -/
theorem Inv.congr {tr : List (Act × Ans)} {r : Reader} (I : Inv tr r) (hbuf : kb.buf = r.kb.buf)
    (hhead : kb.bufHead = r.kb.bufHead) (htail : kb.bufTail = r.kb.bufTail) :
    Inv tr { r with kb } := by
  obtain ⟨⟨buf, head, tail, shift, ctrl⟩, pc⟩ := r
  obtain ⟨buf', head', tail', shift', ctrl'⟩ := kb
  obtain rfl : buf' = buf := hbuf
  obtain rfl : head' = head := hhead
  obtain rfl : tail' = tail := htail
  refine ⟨⟨I.head, I.tail⟩, I.queue, ?_⟩
  cases pc with
  | test => trivial
  | read | advance => exact I.pc

theorem mods_get {r r' : Reader} {b : Ans} (h : step .get r = some (b, r')) :
    r'.kb.mods = r.kb.mods := by
  obtain ⟨kb, pc⟩ := r
  cases pc with
  | test | read | advance =>
    obtain ⟨-, rfl⟩ := Prod.mk.inj (Option.some.inj h)
    rfl

/-! ## Typing -/

/-- The bytes of the key for a character, pressed and released, with Shift held if it takes it. -/
def stroke (n : Nat) : List UInt8 :=
  if n ∈ keymap then
    let code := UInt8.ofNat (keymap.idxOf n)
    [code, code ||| 0x80]
  else
    let code := UInt8.ofNat (keymapShift.idxOf n)
    [0x2A, code, code ||| 0x80, 0xAA]

def strokes (l : List Nat) : List UInt8 := l.flatMap stroke

/-- Backspace, Tab, Enter, Escape and what can be printed. -/
def Typeable (n : Nat) : Prop := n = 8 ∨ n = 9 ∨ n = 10 ∨ n = 27 ∨ 32 ≤ n ∧ n < 127

instance (n : Nat) : Decidable (Typeable n) := inferInstanceAs (Decidable (_ ∨ _))

theorem stroke_typeable : ∀ n < 127, Typeable n →
    Mods.none.codes (stroke n) = [(n : Int)] ∧ (stroke n).foldl Mods.after .none = .none := by
  decide +kernel

/-- A text that is typed comes out of the decoder. -/
theorem strokes_codes {l : List Nat} (h : ∀ n ∈ l, Typeable n) :
    Mods.none.codes (strokes l) = l.map Int.ofNat ∧
      (strokes l).foldl Mods.after .none = .none := by
  induction l with
  | nil => exact ⟨rfl, rfl⟩
  | cons n l ih =>
    rw [List.forall_mem_cons] at h
    have hn : n < 127 := by
      rcases h.1 with rfl | rfl | rfl | rfl | h <;> omega
    obtain ⟨hcodes, hafter⟩ := stroke_typeable n hn h.1
    obtain ⟨ihcodes, ihafter⟩ := ih h.2
    rw [strokes, List.flatMap_cons, List.foldl_append, Mods.codes_append, hcodes, hafter]
    exact ⟨congrArg ((n : Int) :: ·) ihcodes, ihafter⟩

end Keyboard

namespace Reader

variable {max : Nat} {h : History} {s : Reader} {place : Nat} {before text : List Char}

theorem key_printable {c : Char} (hc : 32 ≤ c.toNat ∧ c.toNat < 127) (hroom : s.pos < max - 1) :
    Reader.key max h c.toNat s = some ([c], .inl
      { s with buf := Function.update s.buf s.pos c, pos := s.pos + 1 }) := by
  have hcode : ∀ k : Int, k < 32 ∨ 127 ≤ k → (c.toNat : Int) ≠ k := fun k _ => by omega
  have henter : Session.isEnter c.toNat = false := by
    rw [Session.isEnter, decide_eq_false]
    rintro (h | h)
    · exact hcode _ (.inl (by decide)) h
    · exact hcode _ (.inl (by decide)) h
  have hpoke : poke max s.pos c s.buf = some (Function.update s.buf s.pos c) :=
    if_pos (by omega)
  rw [Reader.key, if_neg (by omega), henter, if_neg Bool.false_ne_true,
    if_neg (hcode _ (.inl (by decide))), if_neg (hcode _ (.inr (by decide))),
    if_neg (hcode _ (.inr (by decide))), if_neg (hcode _ (.inr (by decide))),
    if_neg (hcode _ (.inr (by decide))), if_pos (by omega), if_pos hroom]
  simp only [Int.toNat_natCast, Char.ofNat_toNat]
  rw [hpoke]
  rfl

/-- `sh_readline` on the codes of a text and Enter, with room for all of it. -/
theorem Edits.typed (E : Edits max s ⟨before, place⟩)
    (hroom : (before ++ text).length < max) (htext : ∀ c ∈ text, 32 ≤ c.toNat ∧ c.toNat < 127) :
    ∃ s', shReadline max h (text.map (fun c => (c.toNat : Int)) ++ [10]) s =
        some (text ++ ['\n'], ((before ++ text).length : Int), s') ∧
      Holds max (before ++ text) s'.buf := by
  induction text generalizing s before with
  | nil =>
    obtain ⟨buf, hkey, H⟩ := E.enter (h := h) (k := 10) (by decide) (by decide)
    rw [List.append_nil]
    refine ⟨{ s with buf }, ?_, H⟩
    rw [List.map_nil, List.nil_append, shReadline, hkey, E.pos]
    rfl
  | cons c text ih =>
    rw [List.forall_mem_cons] at htext
    rw [List.length_append, List.length_cons] at hroom
    have hnul : NUL ≠ c := by
      rintro rfl
      exact absurd htext.1.1 (by decide)
    have hpos : s.pos < max - 1 := by
      rw [E.pos]
      show before.length < max - 1
      omega
    have hsplit : before ++ c :: text = before ++ [c] ++ text := by simp
    have E₁ := E.append (c := c) (E.pos ▸ hpos) hnul
    obtain ⟨s', hrun, H⟩ := ih E₁ (by simp only [List.length_append, List.length_singleton]; omega)
      htext.2
    refine ⟨s', ?_, hsplit ▸ H⟩
    rw [List.map_cons, List.cons_append, shReadline, key_printable htext.1 hpos,
      Option.bind_eq_bind, Option.bind_some, hsplit]
    simp only
    rw [hrun]
    rfl

end Reader

end BojanOS
