import BojanOS.Lib.Ring
import BojanOS.Lib.Trace

/-!
# The keyboard (`keyboard.c`)

The interrupt handler puts key codes into a ring of 128 slots, and `keyboard_get` takes them out.
`keyboard_get` is split into the steps between which an interrupt may fall; the handler itself is one
step.
-/

namespace BojanOS

open Trace

def KB_KEY_UP : Int := 0x100
def KB_KEY_DOWN : Int := 0x101
def KB_KEY_LEFT : Int := 0x102
def KB_KEY_RIGHT : Int := 0x103
def KB_KEY_HOME : Int := 0x104
def KB_KEY_END : Int := 0x105
def KB_KEY_PGUP : Int := 0x106
def KB_KEY_PGDN : Int := 0x107
def KB_CTRL_D : Int := 0x108
def KB_CTRL_C : Int := 0x109

def BUFSZ : Nat := 128

/-- The codes from 58 on have no character. -/
def keymap : List Nat :=
  [0, 27] ++ "1234567890-=".toList.map Char.toNat ++ [8] ++
  [9] ++ "qwertyuiop[]".toList.map Char.toNat ++ [10] ++
  [0] ++ "asdfghjkl;'`".toList.map Char.toNat ++
  [0] ++ "\\zxcvbnm,./".toList.map Char.toNat ++ [0] ++
  ['*'.toNat, 0, ' '.toNat]

def keymapShift : List Nat :=
  [0, 27] ++ "!@#$%^&*()_+".toList.map Char.toNat ++ [8] ++
  [9] ++ "QWERTYUIOP\x7b\x7d".toList.map Char.toNat ++ [10] ++
  [0] ++ "ASDFGHJKL:\"~".toList.map Char.toNat ++
  [0] ++ "|ZXCVBNM<>?".toList.map Char.toNat ++ [0] ++
  ['*'.toNat, 0, ' '.toNat]

structure Keyboard where
  buf : Nat → Int
  bufHead : Nat
  bufTail : Nat
  shiftDown : Bool
  ctrlDown : Bool

namespace Keyboard

/-- The static variables in front of `keyboard_init`. -/
def zero : Keyboard := ⟨fun _ => 0, 0, 0, false, false⟩

def keyboardInit (kb : Keyboard) : Keyboard :=
  { kb with bufHead := 0, bufTail := 0, shiftDown := false, ctrlDown := false }

def bufPush (c : Int) (kb : Keyboard) : Keyboard :=
  let next := (kb.bufHead + 1) % BUFSZ
  if next = kb.bufTail then kb
  else { kb with buf := Function.update kb.buf kb.bufHead c, bufHead := next }

/-- The code of a key that is not in the keymaps. -/
def special (code : UInt8) : Option Int :=
  if code = 0x48 then some KB_KEY_UP
  else if code = 0x50 then some KB_KEY_DOWN
  else if code = 0x4B then some KB_KEY_LEFT
  else if code = 0x4D then some KB_KEY_RIGHT
  else if code = 0x47 then some KB_KEY_HOME
  else if code = 0x4F then some KB_KEY_END
  else if code = 0x49 then some KB_KEY_PGUP
  else if code = 0x51 then some KB_KEY_PGDN
  else none

/-- The handler, with `sc` the byte at port `0x60`. -/
def keyboardIrq (sc : UInt8) (kb : Keyboard) : Keyboard :=
  let code := sc &&& 0x7F
  let released := sc &&& 0x80 ≠ 0
  if code = 0x2A ∨ code = 0x36 then { kb with shiftDown := ¬ released }
  else if code = 0x1D then { kb with ctrlDown := ¬ released }
  else if released then kb
  else if code = 0xE0 then kb
  else if kb.ctrlDown ∧ code = 0x20 then kb.bufPush KB_CTRL_D
  else if kb.ctrlDown ∧ code = 0x2E then kb.bufPush KB_CTRL_C
  else match special code with
    | some c => kb.bufPush c
    | none =>
      let c := (if kb.shiftDown then keymapShift else keymap).getD code.toNat 0
      if c ≠ 0 then kb.bufPush c else kb

/-! ## Interrupts between the steps of `keyboard_get` -/

/-- Where `keyboard_get` is: at the head of its loop, behind it, or with the value it has read. -/
inductive Pc where
  | test
  | read
  | advance (c : Int)

inductive Act where
  | push (c : Int)
  | get

inductive Ans where
  | accepted
  | dropped
  | returned (c : Int)
  | nothing

/-- The keyboard, and the one caller of `keyboard_get`. -/
structure Reader where
  kb : Keyboard
  pc : Pc

def start (kb : Keyboard) : Reader := ⟨kb.keyboardInit, .test⟩

/-- A `buf_push` of the handler, or the next step of `keyboard_get`; behind a return the next call
is at the head of its loop. -/
def step : Act → Reader → Option (Ans × Reader)
  | .push c, s =>
    some (if (s.kb.bufHead + 1) % BUFSZ = s.kb.bufTail then .dropped else .accepted,
      { s with kb := s.kb.bufPush c })
  | .get, ⟨kb, .test⟩ => some (.nothing, ⟨kb, if kb.bufHead = kb.bufTail then .test else .read⟩)
  | .get, ⟨kb, .read⟩ => some (.nothing, ⟨kb, .advance (kb.buf kb.bufTail)⟩)
  | .get, ⟨kb, .advance c⟩ =>
    some (.returned c, ⟨{ kb with bufTail := (kb.bufTail + 1) % BUFSZ }, .test⟩)

/-- The values that `buf_push` has put into the buffer. -/
def accepted (tr : List (Act × Ans)) : List Int :=
  tr.filterMap fun
    | (.push c, .accepted) => some c
    | _ => none

/-- The values that `keyboard_get` has returned. -/
def returned (tr : List (Act × Ans)) : List Int :=
  tr.filterMap fun
    | (_, .returned c) => some c
    | _ => none

/-! ## The queue -/

def pending (kb : Keyboard) : List Int := Ring.pending BUFSZ kb.buf kb.bufHead kb.bufTail

structure Bounded (kb : Keyboard) : Prop where
  head : kb.bufHead < BUFSZ
  tail : kb.bufTail < BUFSZ

variable {kb : Keyboard} {s s' : Reader} {tr : List (Act × Ans)} {c : Int}

theorem bufPush_full (h : (kb.bufHead + 1) % BUFSZ = kb.bufTail) : kb.bufPush c = kb := if_pos h

theorem bufPush_free (h : (kb.bufHead + 1) % BUFSZ ≠ kb.bufTail) : kb.bufPush c =
    { kb with buf := Function.update kb.buf kb.bufHead c, bufHead := (kb.bufHead + 1) % BUFSZ } :=
  if_neg h

/-- What the step that `keyboard_get` is at relies on. No interrupt takes it away. -/
def Pc.Holds (kb : Keyboard) : Pc → Prop
  | .test => True
  | .read => kb.bufHead ≠ kb.bufTail
  | .advance c => kb.bufHead ≠ kb.bufTail ∧ kb.buf kb.bufTail = c

theorem Pc.Holds.push {pc : Pc} (H : pc.Holds kb) (c : Int) : pc.Holds (kb.bufPush c) := by
  by_cases hfull : (kb.bufHead + 1) % BUFSZ = kb.bufTail
  · rwa [bufPush_full hfull]
  · rw [bufPush_free hfull]
    cases pc with
    | test => trivial
    | read => exact hfull
    | advance d => exact ⟨hfull, (Function.update_of_ne (Ne.symm H.1) _ _).trans H.2⟩

/-- Of the values that were accepted, some have been returned and the others wait. -/
structure Inv (tr : List (Act × Ans)) (s : Reader) : Prop extends Bounded s.kb where
  queue : accepted tr = returned tr ++ s.kb.pending
  pc : s.pc.Holds s.kb

theorem accepted_snoc (tr : List (Act × Ans)) (a : Act) (b : Ans) :
    accepted (tr ++ [(a, b)]) = accepted tr ++ accepted [(a, b)] := List.filterMap_append

theorem returned_snoc (tr : List (Act × Ans)) (a : Act) (b : Ans) :
    returned (tr ++ [(a, b)]) = returned tr ++ returned [(a, b)] := List.filterMap_append

theorem start_inv (kb : Keyboard) : Inv [] (start kb) where
  head := Nat.zero_lt_succ 127
  tail := Nat.zero_lt_succ 127
  queue := Ring.pending_self.symm
  pc := trivial

theorem Inv.push (I : Inv tr s) {b : Ans} (h : step (.push c) s = some (b, s')) :
    Inv (tr ++ [(.push c, b)]) s' := by
  obtain ⟨rfl, rfl⟩ := Prod.mk.inj (Option.some.inj h)
  have hreturned : ∀ P [Decidable P],
      returned [(Act.push c, if P then Ans.dropped else .accepted)] = [] := by
    intro P _
    split <;> rfl
  by_cases hfull : (s.kb.bufHead + 1) % BUFSZ = s.kb.bufTail
  · have hkb : s.kb.bufPush c = s.kb := bufPush_full hfull
    rw [if_pos hfull, hkb]
    refine ⟨I.toBounded, ?_, I.pc⟩
    rw [accepted_snoc, returned_snoc, I.queue]
    exact (List.append_nil _).trans (congrArg (· ++ s.kb.pending) (List.append_nil _).symm)
  · have hpc := I.pc.push c
    have hpending : Ring.pending BUFSZ (Function.update s.kb.buf s.kb.bufHead c)
        (Ring.next BUFSZ s.kb.bufHead) s.kb.bufTail = s.kb.pending ++ [c] :=
      Ring.pending_push I.head I.tail hfull
    rw [bufPush_free hfull] at hpc ⊢
    rw [if_neg hfull]
    refine ⟨⟨Ring.next_lt I.head, I.tail⟩, ?_, hpc⟩
    rw [accepted_snoc, returned_snoc, I.queue]
    show _ = returned tr ++ [] ++ Ring.pending BUFSZ _ (Ring.next BUFSZ s.kb.bufHead) s.kb.bufTail
    rw [hpending, List.append_nil, List.append_assoc]
    rfl

theorem Inv.get (I : Inv tr s) {b : Ans} (h : step .get s = some (b, s')) :
    Inv (tr ++ [(.get, b)]) s' := by
  obtain ⟨kb, pc⟩ := s
  have hpc : pc.Holds kb := I.pc
  cases pc with
  | test =>
    obtain ⟨rfl, rfl⟩ := Prod.mk.inj (Option.some.inj h)
    refine ⟨I.toBounded, ?_, ?_⟩
    · rw [accepted_snoc, returned_snoc, I.queue]
      exact (List.append_nil _).trans (congrArg (· ++ kb.pending) (List.append_nil _).symm)
    · show Pc.Holds kb (if kb.bufHead = kb.bufTail then .test else .read)
      split
      · trivial
      · assumption
  | read =>
    obtain ⟨rfl, rfl⟩ := Prod.mk.inj (Option.some.inj h)
    refine ⟨I.toBounded, ?_, hpc, rfl⟩
    rw [accepted_snoc, returned_snoc, I.queue]
    exact (List.append_nil _).trans (congrArg (· ++ kb.pending) (List.append_nil _).symm)
  | advance d =>
    obtain ⟨rfl, rfl⟩ := Prod.mk.inj (Option.some.inj h)
    refine ⟨⟨I.head, Ring.next_lt I.tail⟩, ?_, trivial⟩
    have hpop : kb.pending = _ := Ring.pending_pop I.head I.tail hpc.1
    rw [hpc.2] at hpop
    rw [accepted_snoc, returned_snoc, I.queue]
    show returned tr ++ kb.pending ++ [] = _
    rw [hpop, List.append_nil, List.append_assoc]
    rfl

theorem run_inv (H : Run step (start kb) tr s) : Inv tr s := by
  induction H with
  | nil => exact start_inv kb
  | @snoc tr a b t u _ h ih =>
    cases a with
    | push c => exact ih.push h
    | get => exact ih.get h

/-- The handler does no more to the ring than one `buf_push`. -/
theorem keyboardIrq_ring (sc : UInt8) (kb : Keyboard) :
    (∃ c, keyboardIrq sc kb = kb.bufPush c) ∨ (keyboardIrq sc kb).buf = kb.buf ∧
      (keyboardIrq sc kb).bufHead = kb.bufHead ∧ (keyboardIrq sc kb).bufTail = kb.bufTail := by
  rw [keyboardIrq]
  generalize sc &&& 0x7F = code
  generalize sc &&& 0x80 = released
  by_cases hshift : code = 0x2A ∨ code = 0x36
  · rw [if_pos hshift]
    exact .inr ⟨rfl, rfl, rfl⟩
  rw [if_neg hshift]
  by_cases hctrl : code = 0x1D
  · rw [if_pos hctrl]
    exact .inr ⟨rfl, rfl, rfl⟩
  rw [if_neg hctrl]
  by_cases hreleased : released ≠ 0
  · rw [if_pos hreleased]
    exact .inr ⟨rfl, rfl, rfl⟩
  rw [if_neg hreleased]
  by_cases hextended : code = 0xE0
  · rw [if_pos hextended]
    exact .inr ⟨rfl, rfl, rfl⟩
  rw [if_neg hextended]
  by_cases hctrlD : kb.ctrlDown ∧ code = 0x20
  · rw [if_pos hctrlD]
    exact .inl ⟨_, rfl⟩
  rw [if_neg hctrlD]
  by_cases hctrlC : kb.ctrlDown ∧ code = 0x2E
  · rw [if_pos hctrlC]
    exact .inl ⟨_, rfl⟩
  rw [if_neg hctrlC]
  cases special code with
  | some c => exact .inl ⟨c, rfl⟩
  | none =>
    -- a key without a character pushes nothing
    generalize (if kb.shiftDown then keymapShift else keymap).getD _ 0 = c
    by_cases hc : c ≠ 0
    · exact .inl ⟨c, if_pos hc⟩
    · rw [if_neg hc]
      exact .inr ⟨rfl, rfl, rfl⟩

end Keyboard

open Keyboard in
/-- The values that were accepted are those that `keyboard_get` has returned, in order, and behind
them those that wait in the ring. A value is dropped only when 127 others wait. -/
theorem keyboardGet_fifo {kb : Keyboard} {tr : List (Act × Ans)} {s : Reader}
    (H : Run step (start kb) tr s) :
    returned tr <+: accepted tr ∧ accepted tr = returned tr ++ s.kb.pending ∧
      s.kb.bufHead < 128 ∧ s.kb.bufTail < 128 ∧
      ∀ c s', step (.push c) s = some (.dropped, s') → s' = s ∧ s.kb.pending.length = 127 := by
  have I := run_inv H
  refine ⟨I.queue ▸ List.prefix_append _ _, I.queue, I.head, I.tail, fun c s' h => ?_⟩
  obtain ⟨hans, rfl⟩ := Prod.mk.inj (Option.some.inj h)
  have hfull : (s.kb.bufHead + 1) % BUFSZ = s.kb.bufTail := by
    by_contra hfree
    rw [if_neg hfree] at hans
    cases hans
  have hcount : Ring.count BUFSZ s.kb.bufHead s.kb.bufTail = 127 :=
    Ring.count_full I.head I.tail hfull
  refine ⟨by rw [bufPush_full hfull], ?_⟩
  rw [Keyboard.pending, Ring.pending_length, hcount]

open Keyboard in
/-- One value goes through while `keyboard_get` runs, and one that comes too late for it waits in
the ring. -/
theorem keyboardGet_late : ∃ tr s, Run step (start .zero) tr s ∧ accepted tr = [97, 98] ∧
    returned tr = [97] ∧ s.kb.pending = [98] ∧ accepted tr = returned tr ++ s.kb.pending :=
  have H : Run step (start .zero) [(.get, .nothing), (.push 97, .accepted), (.get, .nothing),
      (.get, .nothing), (.push 98, .accepted), (.get, .returned 97)] _ :=
    .of_exec [.get, .push 97, .get, .get, .push 98, .get] rfl
  ⟨_, _, H, rfl, rfl, rfl, (keyboardGet_fifo H).2.1⟩

end BojanOS
