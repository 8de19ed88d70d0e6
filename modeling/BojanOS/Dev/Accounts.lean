import BojanOS.Dev.Interrupts

/-!
# What happens to the ticks and the bytes

The record of a run, compared with the state it leads to: how many edges of the timer and which
bytes of the keyboard have got how far, whatever else the machine does between them.
-/

namespace BojanOS

open Pic8259 Trace

namespace Isr

variable {m m' : Machine} {a : Act} {b : Ans} {q v : Nat} {p : Pair}

/-! ## The account of a run -/

/-- The bytes that the keyboard has sent. -/
def sent (tr : List (Act × Ans)) : List UInt8 :=
  tr.filterMap fun e => match e.1 with
    | .key b => some b
    | _ => none

/-- The bytes that `keyboard_irq` has read. -/
def handled (tr : List (Act × Ans)) : List UInt8 :=
  tr.filterMap fun e => match e.2 with
    | .scancode b _ => some b
    | _ => none

/-- The same bytes, and those marked whose codes were dropped. -/
def scans (tr : List (Act × Ans)) : List (UInt8 × Bool) :=
  tr.filterMap fun e => match e.2 with
    | .scancode b d => some (b, d)
    | _ => none

/-- The bytes whose codes were dropped. -/
def dropped (tr : List (Act × Ans)) : Nat :=
  tr.countP fun e => match e.2 with
    | .scancode _ d => d
    | _ => false

/-- What `keyboard_get` has returned. -/
def returned (tr : List (Act × Ans)) : List Int :=
  tr.filterMap fun e => match e.2 with
    | .returned c => some c
    | _ => none

/-- The edges of the timer. -/
def edges (tr : List (Act × Ans)) : Nat :=
  tr.countP fun e => match e.1 with
    | .edge => true
    | _ => false

/-- The edges that came while the one before was waiting. -/
def lost (tr : List (Act × Ans)) : Nat :=
  tr.countP fun e => match e.2 with
    | .lost => true
    | _ => false

/-- The calls of `timer_tick`. -/
def ticked (tr : List (Act × Ans)) : Nat :=
  tr.countP fun e => match e.2 with
    | .ticked => true
    | _ => false

namespace Machine

/-- The byte that is still to be read. -/
def unread (m : Machine) : List UInt8 := if m.full then [m.latch] else []

/-- The calls of `timer_tick` and of `keyboard_irq` that the handler will still make. -/
def due (m : Machine) (op : Op) : Nat := (m.handler.getD []).count op

/-- One request at a time stands for the byte that waits, and one for the tick that does. Nothing
stands for a byte that the keyboard had sent `early`, in front of the run. -/
structure Account (early : List UInt8) (tr : List (Act × Ans)) (m : Machine) : Prop where
  bytes : early ++ sent tr = handled tr ++ m.unread
  byte : ¬ m.Halted →
    m.full.toNat = early.length + (m.pics.requested 1).toNat + m.due .keyboard
  ticks : m.ticks = BitVec.ofNat 64 (ticked tr)
  edges : ¬ m.Halted →
    edges tr = ticked tr + lost tr + (m.pics.requested 0).toNat + m.due .tick

variable {early : List UInt8} {tr : List (Act × Ans)} {e : Act × Ans} {op : Op} {ops : List Op}

theorem sent_snoc (tr : List (Act × Ans)) (e : Act × Ans) :
    sent (tr ++ [e]) = sent tr ++ sent [e] := List.filterMap_append

theorem handled_snoc (tr : List (Act × Ans)) (e : Act × Ans) :
    handled (tr ++ [e]) = handled tr ++ handled [e] := List.filterMap_append

theorem edges_snoc (tr : List (Act × Ans)) (e : Act × Ans) :
    Isr.edges (tr ++ [e]) = Isr.edges tr + Isr.edges [e] := List.countP_append

theorem lost_snoc (tr : List (Act × Ans)) (e : Act × Ans) :
    lost (tr ++ [e]) = lost tr + lost [e] := List.countP_append

theorem ticked_snoc (tr : List (Act × Ans)) (e : Act × Ans) :
    ticked (tr ++ [e]) = ticked tr + ticked [e] := List.countP_append

/-- The events that the account does not know. -/
def Silent (e : Act × Ans) : Prop :=
  sent [e] = [] ∧ handled [e] = [] ∧ Isr.edges [e] = 0 ∧ lost [e] = 0 ∧ ticked [e] = 0

/-- A step that passes on a request at most. -/
theorem Account.silent (A : m.Account early tr) (he : Silent e) (hfull : m'.full = m.full)
    (hlatch : m'.latch = m.latch) (hticks : m'.ticks = m.ticks)
    (hdue : ¬ m'.Halted → ¬ m.Halted ∧ ∀ r op, r = 0 ∧ op = .tick ∨ r = 1 ∧ op = .keyboard →
      (m'.pics.requested r).toNat + m'.due op = (m.pics.requested r).toNat + m.due op) :
    m'.Account early (tr ++ [e]) := by
  obtain ⟨hs, hh, hed, hl, ht⟩ := he
  refine ⟨?_, fun h => ?_, ?_, fun h => ?_⟩
  · rw [sent_snoc, handled_snoc, hs, hh, List.append_nil, List.append_nil, unread, hfull, hlatch]
    exact A.bytes
  · obtain ⟨hrun, hdue⟩ := hdue h
    rw [hfull, Nat.add_assoc, hdue 1 .keyboard (.inr ⟨rfl, rfl⟩), ← Nat.add_assoc]
    exact A.byte hrun
  · rw [ticked_snoc, ht, hticks]
    exact A.ticks
  · obtain ⟨hrun, hdue⟩ := hdue h
    rw [edges_snoc, ticked_snoc, lost_snoc, hed, hl, ht]
    have h0 := hdue 0 .tick (.inl ⟨rfl, rfl⟩)
    have h1 := A.edges hrun
    omega

theorem due_main (h : m.handler = none) (op : Op) : m.due op = 0 := by
  rw [due, h]
  rfl

theorem due_lineOps : ∀ q < 16, (lineOps q).count .tick = (if q = 0 then 1 else 0) ∧
    (lineOps q).count .keyboard = (if q = 1 then 1 else 0) := by decide

/-- Taking an interrupt, with the requests that are left. -/
theorem Account.entered (A : m.Account early tr) (he : Silent e) (hmain : m.handler = none)
    (hq : q < 16) (rip : BitVec 64)
    (hr : ∀ r < 2, (p.requested r).toNat + (if q = r then 1 else 0) =
      (m.pics.requested r).toNat) :
    Account early (tr ++ [e]) { m with
      pics := p, handler := some (isrHandler (32 + q) 0 rip), interrupts := false } := by
  obtain ⟨htick, hkey⟩ := due_lineOps q hq
  refine A.silent he rfl rfl rfl fun _ => ⟨not_pending hmain _, ?_⟩
  rintro r op (⟨rfl, rfl⟩ | ⟨rfl, rfl⟩)
  · rw [due_main hmain, due, isrHandler_line hq]
    exact (congrArg _ htick).trans (hr 0 (by decide))
  · rw [due_main hmain, due, isrHandler_line hq]
    exact (congrArg _ hkey).trans (hr 1 (by decide))

theorem due_cons (h : m.handler = some (op :: ops)) (x : Op) :
    m.due x = ops.count x + if op = x then 1 else 0 := by
  rw [due, h, Option.getD_some, List.count_cons]
  simp only [beq_iff_eq]

/-- The handler of an interrupt does not stop the machine. -/
theorem Inv.not_halted (I : m.Inv) (hh : m.handler = some (.keyboard :: ops)) : ¬ m.Halted := by
  rintro ⟨l, hl, hmem⟩
  obtain rfl := Option.some.inj (hh.symm.trans hl)
  rcases I.todo _ hh with ⟨q, -, hs⟩ | ⟨name, v, err, rip, hs, -⟩
  · simpa using mem_lineOps (hs.subset hmem)
  · simpa using hs.subset List.mem_cons_self

theorem Account.perform (A : m.Account early tr) (I : m.Inv) (hh : m.handler = some (op :: ops))
    (h : Isr.perform op ops m = (b, m')) : m'.Account early (tr ++ [(.handler, b)]) := by
  have hreq : ∀ r, m'.pics.requested r = m.pics.requested r := fun r => by
    rw [← (I.perform_lines hh r).1, h]
  have hrun : op ≠ .halt → m'.handler = some ops → ¬ m'.Halted → ¬ m.Halted :=
    fun hop hh' hrun hhalt => hrun (hhalt.tail hh hop.symm hh')
  have hquiet : op ≠ .tick → op ≠ .keyboard → op ≠ .halt → m'.handler = some ops →
      ¬ m'.Halted → ¬ m.Halted ∧ ∀ r x, r = 0 ∧ x = .tick ∨ r = 1 ∧ x = .keyboard →
        (m'.pics.requested r).toNat + m'.due x = (m.pics.requested r).toNat + m.due x := by
    intro ht hk hop hh' hhalt
    refine ⟨hrun hop hh' hhalt, ?_⟩
    rintro r x (⟨rfl, rfl⟩ | ⟨rfl, rfl⟩)
    · rw [hreq, due_cons hh, if_neg ht, due, hh']
      rfl
    · rw [hreq, due_cons hh, if_neg hk, due, hh']
      rfl
  cases op with
  | halt =>
    obtain ⟨rfl, rfl⟩ := Prod.mk.inj h
    have hhalt : Halted { m with interrupts := false } := ⟨_, hh, List.mem_cons_self⟩
    exact A.silent ⟨rfl, rfl, rfl, rfl, rfl⟩ rfl rfl rfl fun hno => absurd hhalt hno
  | report | out =>
    obtain ⟨rfl, rfl⟩ := Prod.mk.inj h
    exact A.silent ⟨rfl, rfl, rfl, rfl, rfl⟩ rfl rfl rfl (hquiet nofun nofun nofun rfl)
  | tick =>
    obtain ⟨rfl, rfl⟩ := Prod.mk.inj h
    refine ⟨?_, fun hno => ?_, ?_, fun hno => ?_⟩
    · rw [sent_snoc, handled_snoc, ← List.append_assoc]
      exact (List.append_nil _).trans (A.bytes.trans (congrArg (· ++ _) (List.append_nil _).symm))
    · have hbyte := A.byte (hrun nofun rfl hno)
      rw [due_cons hh, if_neg nofun] at hbyte
      exact hbyte
    · show m.ticks + 1#64 = _
      rw [ticked_snoc, A.ticks]
      exact (BitVec.ofNat_add _ _).symm
    · have hedges := A.edges (hrun nofun rfl hno)
      rw [due_cons hh, if_pos rfl] at hedges
      rw [edges_snoc, ticked_snoc, lost_snoc]
      show Isr.edges tr + 0 = ticked tr + 1 + (lost tr + 0) + (m.pics.requested 0).toNat +
        ops.count .tick
      omega
  | keyboard =>
    obtain ⟨rfl, rfl⟩ := Prod.mk.inj h
    have hgoes := I.not_halted hh
    have hbyte := A.byte hgoes
    rw [due_cons hh, if_pos rfl] at hbyte
    have hfull : m.full = true := by
      cases hf : m.full with
      | true => rfl
      | false => rw [hf] at hbyte; simp at hbyte
    rw [hfull] at hbyte
    refine ⟨?_, fun hno => ?_, ?_, fun hno => ?_⟩
    · rw [sent_snoc, handled_snoc, ← List.append_assoc, A.bytes, unread, if_pos hfull]
      exact (List.append_nil _).trans (List.append_nil _).symm
    · show 0 = early.length + (m.pics.requested 1).toNat + ops.count .keyboard
      simp only [Bool.toNat_true] at hbyte
      omega
    · rw [ticked_snoc]
      exact A.ticks
    · have hedges := A.edges hgoes
      rw [due_cons hh, if_neg nofun] at hedges
      rw [edges_snoc, ticked_snoc, lost_snoc]
      exact hedges

/-- A step of the program that runs otherwise, or of another device. -/
theorem Account.elsewhere (A : m.Account early tr) (he : Silent e) (hfull : m'.full = m.full)
    (hlatch : m'.latch = m.latch) (hticks : m'.ticks = m.ticks) (hh : m'.handler = m.handler)
    (hr : ∀ r < 2, m'.pics.requested r = m.pics.requested r) : m'.Account early (tr ++ [e]) := by
  refine A.silent he hfull hlatch hticks fun hno => ⟨fun hhalt => hno (hhalt.congr hh), ?_⟩
  rintro r op (⟨rfl, -⟩ | ⟨rfl, -⟩)
  · rw [hr 0 (by decide), due, due, hh]
  · rw [hr 1 (by decide), due, due, hh]

theorem requested_deliverable (h : p.deliverable q = true) :
    q < 16 ∧ q ≠ 2 ∧ p.requested q = true :=
  let hq := of_decide_eq_true h
  ⟨hq.1, hq.2.1, hq.2.2.1⟩

/-- One step keeps the account. -/
theorem Account.step (A : m.Account early tr) (I : m.Inv) (h : Isr.step a m = some (b, m')) :
    m'.Account early (tr ++ [(a, b)]) := by
  cases a with
  | edge =>
    obtain ⟨rfl, rfl⟩ := Prod.mk.inj (Option.some.inj h)
    have h1 : (m.pics.raise 0).requested 1 = m.pics.requested 1 := by
      rw [Pair.requested_raise (by decide)]
      simp
    have h0 : (m.pics.raise 0).requested 0 = true := by
      rw [Pair.requested_raise (by decide)]
      simp
    refine ⟨?_, fun hno => ?_, ?_, fun hno => ?_⟩
    · rw [sent_snoc, handled_snoc, ← List.append_assoc]
      cases m.pics.requested 0 <;>
        exact (List.append_nil _).trans
          (A.bytes.trans (congrArg (· ++ _) (List.append_nil _).symm))
    · exact (A.byte hno).trans (congrArg (fun r : Bool => early.length + r.toNat + m.due .keyboard) h1.symm)
    · rw [ticked_snoc]
      cases m.pics.requested 0 <;> exact A.ticks
    · -- one more request, or one more that is lost
      have hedges := A.edges hno
      rw [edges_snoc, ticked_snoc, lost_snoc, h0]
      cases hwait : m.pics.requested 0 with
      | true =>
        rw [hwait, Bool.toNat_true] at hedges
        show Isr.edges tr + 1 = ticked tr + 0 + (lost tr + 1) + 1 + m.due .tick
        exact (congrArg (· + 1) hedges).trans (by omega)
      | false =>
        rw [hwait, Bool.toNat_false] at hedges
        show Isr.edges tr + 1 = ticked tr + 0 + (lost tr + 0) + 1 + m.due .tick
        exact (congrArg (· + 1) hedges).trans (by omega)
  | key c =>
    rw [Isr.step] at h
    split at h
    · cases h
    · rename_i hfull
      obtain ⟨rfl, rfl⟩ := Prod.mk.inj (Option.some.inj h)
      have h0 : (m.pics.raise 1).requested 0 = m.pics.requested 0 := by
        rw [Pair.requested_raise (by decide)]
        simp
      have h1 : (m.pics.raise 1).requested 1 = true := by
        rw [Pair.requested_raise (by decide)]
        simp
      have hempty := Bool.eq_false_iff.mpr hfull
      refine ⟨?_, fun hno => ?_, ?_, fun hno => ?_⟩
      · have hbytes := A.bytes
        rw [unread, if_neg hfull, List.append_nil] at hbytes
        rw [sent_snoc, handled_snoc, ← List.append_assoc, hbytes]
        exact congrArg (· ++ [c]) (List.append_nil _).symm
      · -- no request was waiting
        have hbyte := A.byte hno
        rw [hempty] at hbyte
        have hnone : early.length = 0 ∧ m.due .keyboard = 0 := by
          simp only [Bool.toNat_false] at hbyte
          omega
        rw [h1]
        show 1 = early.length + 1 + m.due .keyboard
        rw [hnone.1, hnone.2]
      · rw [ticked_snoc]
        exact A.ticks
      · rw [edges_snoc, ticked_snoc, lost_snoc, h0]
        exact A.edges hno
  | raise q =>
    rw [Isr.step] at h
    split at h
    · rename_i hq
      obtain ⟨rfl, rfl⟩ := Prod.mk.inj (Option.some.inj h)
      refine A.elsewhere ⟨rfl, rfl, rfl, rfl, rfl⟩ rfl rfl rfl rfl fun r hr => ?_
      show (m.pics.raise q).requested r = _
      rw [Pair.requested_raise hq.2, decide_eq_false (by omega), Bool.or_false]
    · cases h
  | accept rip =>
    obtain ⟨hmain, -, q, hq, rfl, rfl⟩ := I.accept h
    obtain ⟨hlt, -, hreq⟩ := requested_deliverable hq
    refine A.entered ⟨rfl, rfl, rfl, rfl, rfl⟩ hmain hlt rip fun r hr => ?_
    rw [Pair.requested_serve hlt (by omega) (by omega)]
    by_cases hqr : q = r
    · subst hqr
      simp [hreq]
    · simp [hqr, Ne.symm hqr]
  | spurious slave rip =>
    obtain ⟨hmain, -, q, p, hqp, rfl, rfl⟩ := I.spurious h
    obtain ⟨rfl, rfl⟩ | ⟨rfl, rfl⟩ := hqp
    · refine A.entered ⟨rfl, rfl, rfl, rfl, rfl⟩ hmain (by decide) rip fun r hr => ?_
      rw [if_neg (by omega), Nat.add_zero]
    · refine A.entered ⟨rfl, rfl, rfl, rfl, rfl⟩ hmain (by decide) rip fun r hr => ?_
      have hbit : (m.pics.master.irr &&& ~~~line 2).getLsbD r = m.pics.master.irr.getLsbD r := by
        rw [getLsbD_and_line (by decide) (by omega), decide_eq_false (by omega)]
        exact Bool.and_true _
      rw [if_neg (by omega), Nat.add_zero, Pair.requested, Pair.requested, if_pos (by omega),
        if_pos (by omega)]
      exact congrArg Bool.toNat hbit
  | fault v err rip =>
    rw [Isr.step] at h
    split at h
    · rename_i hv
      rw [enter, if_pos (by omega), isrHandler_fault hv] at h
      obtain ⟨rfl, rfl⟩ := Prod.mk.inj (Option.some.inj h)
      have hhalt : Halted { m with
          handler := some [.report (excName v) v err rip, .halt], interrupts := false } :=
        ⟨_, rfl, by simp⟩
      exact A.silent ⟨rfl, rfl, rfl, rfl, rfl⟩ rfl rfl rfl fun hno => absurd hhalt hno
    · cases h
  | handler =>
    rcases handler_cases h with ⟨hh, rfl, rfl⟩ | ⟨op, ops, hh, hp⟩
    · refine A.silent ⟨rfl, rfl, rfl, rfl, rfl⟩ rfl rfl rfl fun _ => ⟨?_, fun r op _ => ?_⟩
      · rintro ⟨l, hl, hmem⟩
        obtain rfl := Option.some.inj (hh.symm.trans hl)
        cases hmem
      · rw [due, due, hh]
        rfl
    · exact A.perform I hh hp
  | mask q =>
    rw [Isr.step] at h
    split at h
    · obtain ⟨rfl, rfl⟩ := Prod.mk.inj (Option.some.inj h)
      exact A.elsewhere ⟨rfl, rfl, rfl, rfl, rfl⟩ rfl rfl rfl rfl fun r _ =>
        (Pic.picMask_keeps I.ready q).1 r
    · cases h
  | unmask q =>
    rw [Isr.step] at h
    split at h
    · obtain ⟨rfl, rfl⟩ := Prod.mk.inj (Option.some.inj h)
      exact A.elsewhere ⟨rfl, rfl, rfl, rfl, rfl⟩ rfl rfl rfl rfl fun r _ =>
        (Pic.picUnmask_keeps I.ready q).1 r
    · cases h
  | get =>
    obtain ⟨-, ⟨c, s⟩, -, rfl, rfl⟩ := get_cases h
    cases c with
    | accepted | dropped | nothing | returned =>
      exact A.elsewhere ⟨rfl, rfl, rfl, rfl, rfl⟩ rfl rfl rfl rfl fun _ _ => rfl
  | sti | cli =>
    rw [Isr.step] at h
    split at h
    · obtain ⟨rfl, rfl⟩ := Prod.mk.inj (Option.some.inj h)
      exact A.elsewhere ⟨rfl, rfl, rfl, rfl, rfl⟩ rfl rfl rfl rfl fun _ _ => rfl
    · cases h

/-! ## The codes of a run -/

/-- The codes of the bytes that have been read went through the buffer, if they were not dropped. -/
structure Keys (tr : List (Act × Ans)) (m : Machine) : Prop where
  mods : m.reader.kb.mods = (handled tr).foldl Keyboard.Mods.after .none
  queue : ∃ ktr, Keyboard.Inv ktr m.reader ∧ Keyboard.returned ktr = returned tr ∧
    Keyboard.accepted ktr = Keyboard.Mods.none.kept (scans tr)
  count : (Keyboard.Mods.none.codes (handled tr)).length =
    (Keyboard.Mods.none.kept (scans tr)).length + dropped tr
  full : 0 < dropped tr → BUFSZ ≤ (Keyboard.Mods.none.codes (handled tr)).length

theorem scans_snoc (tr : List (Act × Ans)) (e : Act × Ans) :
    scans (tr ++ [e]) = scans tr ++ scans [e] := List.filterMap_append

theorem handled_eq (tr : List (Act × Ans)) : handled tr = (scans tr).map Prod.fst := by
  rw [scans, List.map_filterMap, handled]
  congr 1
  funext ⟨a, b⟩
  cases b <;> rfl

theorem dropped_snoc (tr : List (Act × Ans)) (e : Act × Ans) :
    dropped (tr ++ [e]) = dropped tr + dropped [e] := List.countP_append

theorem returned_snoc (tr : List (Act × Ans)) (e : Act × Ans) :
    returned (tr ++ [e]) = returned tr ++ returned [e] := List.filterMap_append

/-- A step that reads and returns nothing. -/
theorem Keys.silent (K : m.Keys tr) (hs : scans [e] = []) (hr : returned [e] = [])
    (hd : dropped [e] = 0) (hm : m'.reader = m.reader) : m'.Keys (tr ++ [e]) := by
  have hscans : scans (tr ++ [e]) = scans tr := by
    rw [scans_snoc, hs, List.append_nil]
  have hhandled : handled (tr ++ [e]) = handled tr := by
    rw [handled_eq, handled_eq, hscans]
  refine ⟨?_, ?_, ?_, ?_⟩
  · rw [hm, hhandled]
    exact K.mods
  · rw [hm, hscans, returned_snoc, hr, List.append_nil]
    exact K.queue
  · rw [hhandled, hscans, dropped_snoc, hd]
    exact K.count
  · rw [hhandled, dropped_snoc, hd]
    exact K.full

/-- A step of `keyboard_get`. -/
theorem Keys.get (K : m.Keys tr) (h : Isr.step .get m = some (b, m')) :
    m'.Keys (tr ++ [(.get, b)]) := by
  obtain ⟨-, ⟨c, r⟩, hr, rfl, rfl⟩ := get_cases h
  obtain ⟨ktr, I, hret, hkept⟩ := K.queue
  have hscans : scans (tr ++ [(.get, .ofKeyboard c)]) = scans tr := by
    rw [scans_snoc]
    cases c <;> exact List.append_nil _
  have hhandled : handled (tr ++ [(.get, .ofKeyboard c)]) = handled tr := by
    rw [handled_eq, handled_eq, hscans]
  have hdropped : dropped (tr ++ [(.get, .ofKeyboard c)]) = dropped tr := by
    rw [dropped_snoc]
    cases c <;> rfl
  have haccepted : Keyboard.accepted (ktr ++ [(.get, c)]) = Keyboard.accepted ktr := by
    rw [Keyboard.accepted_snoc]
    exact List.append_nil _
  refine ⟨?_, ⟨_, I.get hr, ?_, ?_⟩, ?_, ?_⟩
  · rw [hhandled]
    exact (Keyboard.mods_get hr).trans K.mods
  · rw [Keyboard.returned_snoc, returned_snoc, hret]
    cases c <;> rfl
  · rw [haccepted, hscans]
    exact hkept
  · rw [hhandled, hscans, hdropped]
    exact K.count
  · rw [hhandled, hdropped]
    exact K.full

/-- The handler marks a byte exactly when its code finds no room in the ring. -/
theorem overflows_iff {sc : UInt8} {kb : Keyboard} (hhead : kb.bufHead < BUFSZ)
    (htail : kb.bufTail < BUFSZ) :
    overflows sc kb = true ↔ (kb.mods.code sc).isSome ∧ kb.pending.length = 127 := by
  rw [overflows, decide_eq_true_iff]
  refine and_congr_right fun _ => ?_
  rw [Keyboard.pending, Ring.pending_length]
  exact (Ring.count_full_iff hhead htail).symm

/-- A marked byte has a code, which is not kept. -/
theorem length_code (sc : UInt8) (kb : Keyboard) : (kb.mods.code sc).toList.length =
    (if overflows sc kb then [] else (kb.mods.code sc).toList).length +
      (overflows sc kb).toNat := by
  cases hover : overflows sc kb with
  | false => rfl
  | true =>
    obtain ⟨c, hc⟩ := Option.isSome_iff_exists.mp (of_decide_eq_true hover).1
    rw [hc]
    rfl

/-- One byte puts its code behind the others, if it is not marked. -/
theorem irq_queue {ktr : List (Keyboard.Act × Keyboard.Ans)} {r : Keyboard.Reader}
    (I : Keyboard.Inv ktr r) (sc : UInt8) :
    ∃ ktr', Keyboard.Inv ktr' { r with kb := r.kb.keyboardIrq sc } ∧
      Keyboard.returned ktr' = Keyboard.returned ktr ∧
      Keyboard.accepted ktr' = Keyboard.accepted ktr ++
        if overflows sc r.kb then [] else (r.kb.mods.code sc).toList := by
  rw [overflows]
  rcases Keyboard.keyboardIrq_code sc r.kb with ⟨c, hc, hirq⟩ | ⟨hc, hb, hh, ht⟩
  · rw [hc, hirq]
    have I' := I.push (c := c) rfl
    by_cases hfull : (r.kb.bufHead + 1) % BUFSZ = r.kb.bufTail
    · rw [if_pos hfull] at I'
      rw [decide_eq_true ⟨rfl, hfull⟩]
      exact ⟨_, I', (Keyboard.returned_snoc _ _ _).trans (List.append_nil _),
        Keyboard.accepted_snoc _ _ _⟩
    · rw [if_neg hfull] at I'
      rw [decide_eq_false fun h => hfull h.2]
      exact ⟨_, I', (Keyboard.returned_snoc _ _ _).trans (List.append_nil _),
        Keyboard.accepted_snoc _ _ _⟩
  · rw [hc, decide_eq_false fun h => absurd h.1 Bool.false_ne_true]
    exact ⟨ktr, I.congr hb hh ht, rfl, (List.append_nil _).symm⟩

/-- What came out of the buffer and what is in it. -/
theorem Keys.kept (K : m.Keys tr) :
    returned tr ++ m.reader.kb.pending = Keyboard.Mods.none.kept (scans tr) := by
  obtain ⟨ktr, I, hret, hkept⟩ := K.queue
  rw [← hkept, I.queue, hret]

/-- `keyboard_irq`. -/
theorem Keys.keyboard (K : m.Keys tr) (ops : List Op) (a : Act) :
    Keys (tr ++ [(a, (Isr.perform .keyboard ops m).1)]) (Isr.perform .keyboard ops m).2 := by
  obtain ⟨ktr, I, hret, hkept⟩ := K.queue
  obtain ⟨ktr', I', hret', hkept'⟩ := irq_queue I m.latch
  have hscans : scans (tr ++ [(a, (Isr.perform .keyboard ops m).1)]) =
      scans tr ++ [(m.latch, overflows m.latch m.reader.kb)] := scans_snoc _ _
  have hhandled : handled (tr ++ [(a, (Isr.perform .keyboard ops m).1)]) =
      handled tr ++ [m.latch] := handled_snoc _ _
  have hreturned : returned (tr ++ [(a, (Isr.perform .keyboard ops m).1)]) = returned tr :=
    (returned_snoc _ _).trans (List.append_nil _)
  have hdropped : dropped (tr ++ [(a, (Isr.perform .keyboard ops m).1)]) =
      dropped tr + (overflows m.latch m.reader.kb).toNat := by
    rw [dropped_snoc]
    show _ + List.countP _ [(a, Ans.scancode m.latch (overflows m.latch m.reader.kb))] = _
    rw [List.countP_singleton]
    cases overflows m.latch m.reader.kb <;> rfl
  have hcodes := congrArg List.length (Keyboard.Mods.codes_snoc .none (handled tr) m.latch)
  rw [← K.mods, List.length_append, length_code] at hcodes
  have hmarked := Keyboard.Mods.kept_snoc .none (scans tr) m.latch
    (overflows m.latch m.reader.kb)
  rw [← handled_eq, ← K.mods] at hmarked
  have hcount := K.count
  refine ⟨?_, ⟨ktr', I', ?_, ?_⟩, ?_, ?_⟩
  · rw [hhandled, List.foldl_append, ← K.mods]
    exact Keyboard.keyboardIrq_mods m.latch m.reader.kb
  · rw [hreturned, hret', hret]
  · rw [hscans, hmarked, hkept', hkept]
  · rw [hhandled, hscans, hdropped, hmarked, List.length_append]
    omega
  · rw [hhandled, hdropped]
    intro hpos
    cases hover : overflows m.latch m.reader.kb with
    | true =>
      -- the 127 codes that wait, and this one
      have hpending := ((overflows_iff I.head I.tail).mp hover).2
      have hqueue := congrArg List.length K.kept
      rw [List.length_append] at hqueue
      rw [hover, Bool.toNat_true] at hcodes
      show 128 ≤ _
      omega
    | false =>
      rw [hover] at hpos
      exact (K.full hpos).trans (hcodes ▸ by omega)

theorem Keys.step (K : m.Keys tr) (I : m.Inv) (h : Isr.step a m = some (b, m')) :
    m'.Keys (tr ++ [(a, b)]) := by
  cases a with
  | get => exact K.get h
  | handler =>
    rcases handler_cases h with ⟨-, rfl, rfl⟩ | ⟨op, ops, -, hp⟩
    · exact K.silent rfl rfl rfl rfl
    · cases op with
      | keyboard =>
        have hkeys := K.keyboard ops .handler
        rw [hp] at hkeys
        exact hkeys
      | tick | out | report | halt =>
        obtain ⟨rfl, rfl⟩ := Prod.mk.inj hp
        exact K.silent rfl rfl rfl rfl
  | accept rip =>
    obtain ⟨-, -, q, -, rfl, rfl⟩ := I.accept h
    exact K.silent rfl rfl rfl rfl
  | spurious slave rip =>
    obtain ⟨-, -, q, p, -, rfl, rfl⟩ := I.spurious h
    exact K.silent rfl rfl rfl rfl
  | edge =>
    obtain ⟨rfl, rfl⟩ := Prod.mk.inj (Option.some.inj h)
    cases m.pics.requested 0 <;> exact K.silent rfl rfl rfl rfl
  | fault v err rip =>
    rw [Isr.step] at h
    split at h
    · rename_i hv
      rw [enter, if_pos (by omega)] at h
      obtain ⟨rfl, rfl⟩ := Prod.mk.inj (Option.some.inj h)
      exact K.silent rfl rfl rfl rfl
    · cases h
  | key | raise | mask | unmask | sti | cli =>
    rw [Isr.step] at h
    split at h
    all_goals first
      | cases h; done
      | obtain ⟨rfl, rfl⟩ := Prod.mk.inj (Option.some.inj h)
        exact K.silent rfl rfl rfl rfl

variable {kb : Keyboard} {latch : UInt8} {full : Bool}

theorem boot_account (p : Pair) (kb : Keyboard) (latch : UInt8) (full : Bool) :
    Account (if full then [latch] else []) [] (boot p kb latch full) := by
  have hreq := (boot_pics p kb latch full).2.2
  refine ⟨List.append_nil _, fun _ => ?_, rfl, fun _ => ?_⟩
  · rw [hreq]
    cases full <;> rfl
  · rw [hreq]
    rfl

/-- When a byte can be sent, and when one can be read. -/
theorem Inv.step_bytes (I : m.Inv) (h : Isr.step a m = some (b, m')) :
    (sent [(a, b)] = [] ∨ m.full = false) ∧
      (handled [(a, b)] = [] ∨ ∃ ops, m.handler = some (.keyboard :: ops)) := by
  cases a with
  | key c =>
    rw [Isr.step] at h
    split at h
    · cases h
    · obtain ⟨rfl, -⟩ := Prod.mk.inj (Option.some.inj h)
      exact ⟨.inr (Bool.eq_false_iff.mpr ‹_›), .inl rfl⟩
  | handler =>
    refine ⟨.inl rfl, ?_⟩
    rcases handler_cases h with ⟨-, rfl, -⟩ | ⟨op, ops, hh, hp⟩
    · exact .inl rfl
    · cases op with
      | keyboard => exact .inr ⟨ops, hh⟩
      | tick | out | report | halt =>
        obtain ⟨rfl, -⟩ := Prod.mk.inj hp
        exact .inl rfl
  | accept rip =>
    obtain ⟨-, -, q, -, rfl, -⟩ := I.accept h
    exact ⟨.inl rfl, .inl rfl⟩
  | spurious slave rip =>
    obtain ⟨-, -, q, p, -, rfl, -⟩ := I.spurious h
    exact ⟨.inl rfl, .inl rfl⟩
  | edge =>
    obtain ⟨rfl, -⟩ := Prod.mk.inj (Option.some.inj h)
    refine ⟨.inl rfl, .inl ?_⟩
    cases m.pics.requested 0 <;> rfl
  | get =>
    obtain ⟨-, ⟨c, s⟩, -, rfl, -⟩ := get_cases h
    refine ⟨.inl rfl, .inl ?_⟩
    cases c <;> rfl
  | fault v err rip =>
    rw [Isr.step] at h
    split at h
    · rename_i hv
      rw [enter, if_pos (by omega)] at h
      obtain ⟨rfl, -⟩ := Prod.mk.inj (Option.some.inj h)
      exact ⟨.inl rfl, .inl rfl⟩
    · cases h
  | raise | mask | unmask | sti | cli =>
    rw [Isr.step] at h
    split at h
    all_goals first
      | cases h; done
      | obtain ⟨rfl, -⟩ := Prod.mk.inj (Option.some.inj h)
        exact ⟨.inl rfl, .inl rfl⟩

theorem boot_keys (p : Pair) (kb : Keyboard) (latch : UInt8) (full : Bool) :
    Keys [] (boot p kb latch full) :=
  ⟨rfl, ⟨[], Keyboard.start_inv kb, rfl, rfl⟩, rfl, fun h => absurd h (by decide)⟩

theorem run_account (H : Run Isr.step (boot p kb latch full) tr m) :
    m.Account (if full then [latch] else []) tr := by
  induction H with
  | nil => exact boot_account p kb latch full
  | snoc H h ih => exact ih.step (run_inv H) h

theorem run_keys (H : Run Isr.step (boot p kb latch full) tr m) : m.Keys tr := by
  induction H with
  | nil => exact boot_keys p kb latch full
  | snoc H h ih => exact ih.step (run_inv H) h

end Machine

variable {kb : Keyboard} {latch : UInt8} {full : Bool} {tr : List (Act × Ans)}

/-- Every byte that the keyboard sends is read once and in order, and at most the last one is still
to be read; its interrupt is then requested or in the handler. What `keyboard_get` has returned and
what waits for it are the codes of the bytes, without those that were dropped, and the code of the
next byte is dropped exactly when 127 codes wait. -/
theorem keyboard_exact (H : Run step (boot p kb latch false) tr m) :
    sent tr = handled tr ++ m.unread ∧
    (¬ m.Halted → m.full.toNat = (m.pics.requested 1).toNat + m.due .keyboard) ∧
    returned tr ++ m.reader.kb.pending = Keyboard.Mods.none.kept (scans tr) ∧
    (returned tr ++ m.reader.kb.pending).Sublist (Keyboard.Mods.none.codes (handled tr)) ∧
    (Keyboard.Mods.none.codes (handled tr)).length =
      (returned tr).length + m.reader.kb.pending.length + dropped tr ∧
    ∀ sc marked m', step .handler m = some (.scancode sc marked, m') →
      (marked = true ↔ (m.reader.kb.mods.code sc).isSome ∧ m.reader.kb.pending.length = 127) := by
  have A := Machine.run_account H
  have K := Machine.run_keys H
  have hkept := K.kept
  refine ⟨A.bytes, fun hno => ?_, hkept, ?_, ?_, fun sc marked m' h => ?_⟩
  · rw [A.byte hno]
    exact congrArg (· + _) (Nat.zero_add _)
  · rw [hkept, Machine.handled_eq]
    exact Keyboard.Mods.kept_sublist _ _
  · rw [K.count, ← hkept, List.length_append]
  · obtain ⟨ktr, I, -⟩ := K.queue
    rcases Machine.handler_cases h with ⟨-, hans, -⟩ | ⟨op, ops, -, hp⟩
    · cases hans
    · cases op with
      | keyboard =>
        obtain ⟨hans, -⟩ := Prod.mk.inj hp
        obtain ⟨rfl, rfl⟩ := Ans.scancode.inj hans
        exact Machine.overflows_iff I.head I.tail
      | tick | out | report | halt =>
        obtain ⟨hans, -⟩ := Prod.mk.inj hp
        cases hans

/-- A byte, and its interrupt. -/
def scan (b : UInt8) : List Act := [.key b, .accept 0x1000#64, .handler, .handler, .handler]

/-- `a` is read and returned, and the byte of its release waits. -/
theorem keyboard_exact_letter : ∃ tr m,
    Run step (boot stray .zero 0 false) tr m ∧ scans tr = [(0x1E, false)] ∧
      sent tr = handled tr ++ [0x9E] ∧
      [97] ++ m.reader.kb.pending = Keyboard.Mods.none.kept [(0x1E, false)] := by
  have H : Run step (boot stray .zero 0 false) _ _ :=
    .of_exec (scan 0x1E ++ [.get, .get, .get, .key 0x9E]) rfl
  obtain ⟨hsent, -, hkept, -⟩ := keyboard_exact H
  exact ⟨_, _, H, rfl, hsent, hkept⟩

theorem typeable_printable {c : Char} (h : 32 ≤ c.toNat ∧ c.toNat < 127) :
    Keyboard.Typeable c.toNat := .inr (.inr (.inr (.inr h)))

/-- A line of up to 126 characters may be typed at any speed: what `keyboard_get` has returned, what
waits in the buffer and the byte that is not read yet are its codes, and `sh_readline` makes the line
of them. -/
theorem typed_line {text : List Char} {max : Nat} (H : Run step (boot p kb latch false) tr m)
    (htext : ∀ c ∈ text, 32 ≤ c.toNat ∧ c.toNat < 127) (hshort : text.length < 127)
    (hmax : text.length < max)
    (hsent : sent tr = Keyboard.strokes ((text ++ ['\n']).map Char.toNat)) :
    returned tr ++ m.reader.kb.pending ++ m.reader.kb.mods.codes m.unread =
        text.map (fun c => (c.toNat : Int)) ++ [10] ∧
      ∀ (h : History) (buf : Nat → Char) (lastExit : Int), ∃ s',
        Reader.shReadline max h (text.map (fun c => (c.toNat : Int)) ++ [10])
            (Reader.entry h buf lastExit) = some (text ++ ['\n'], (text.length : Int), s') ∧
          Reader.Holds max text s'.buf := by
  have hbytes : sent tr = handled tr ++ m.unread := (Machine.run_account H).bytes
  have K := Machine.run_keys H
  have hcodes : Keyboard.Mods.none.codes (sent tr) =
      text.map (fun c => (c.toNat : Int)) ++ [10] := by
    have hall : ∀ n ∈ (text ++ ['\n']).map Char.toNat, Keyboard.Typeable n := by
      intro n hn
      obtain ⟨c, hc, rfl⟩ := List.mem_map.mp hn
      rcases List.mem_append.mp hc with hc | hc
      · exact typeable_printable (htext c hc)
      · exact List.mem_singleton.mp hc ▸ by decide
    rw [hsent, (Keyboard.strokes_codes hall).1, List.map_map, List.map_append]
    rfl
  rw [hbytes, Keyboard.Mods.codes_append, ← K.mods] at hcodes
  have hcount := congrArg List.length hcodes
  simp only [List.length_append, List.length_map, List.length_singleton] at hcount
  have hkept : dropped tr = 0 := by
    by_contra hne
    have hmany : 128 ≤ _ := K.full (Nat.pos_of_ne_zero hne)
    omega
  have hqueue : returned tr ++ m.reader.kb.pending = Keyboard.Mods.none.codes (handled tr) := by
    rw [K.kept, Machine.handled_eq]
    refine (Keyboard.Mods.kept_sublist _ _).eq_of_length ?_
    rw [← Machine.handled_eq, K.count, hkept, Nat.add_zero]
  refine ⟨by rw [hqueue, hcodes], fun h buf lastExit => ?_⟩
  have E : Reader.Edits max (Reader.entry h buf lastExit) ⟨[], h.count⟩ :=
    ⟨rfl, rfl, Nat.zero_lt_of_lt hmax, List.not_mem_nil, rfl⟩
  have hroom : (([] : List Char) ++ text).length < max := hmax
  exact E.typed hroom htext

/-- `ls` and Enter, of which Enter waits. -/
theorem typed_line_ls : ∃ tr m, Run step (boot stray .zero 0 false) tr m ∧
    returned tr = [108, 115] ∧ m.reader.kb.pending = [10] ∧
    ∀ (h : History) (buf : Nat → Char) (lastExit : Int), ∃ s',
      Reader.shReadline 256 h ("ls".toList.map (fun c => (c.toNat : Int)) ++ [10])
          (Reader.entry h buf lastExit) = some ("ls".toList ++ ['\n'], 2, s') ∧
        Reader.Holds 256 "ls".toList s'.buf := by
  have H : Run step (boot stray .zero 0 false) _ _ :=
    .of_exec (scan 0x26 ++ scan 0xA6 ++ [.get, .get, .get] ++ scan 0x1F ++ scan 0x9F ++
      [.get, .get, .get] ++ scan 0x1C ++ scan 0x9C) rfl
  have htext : ∀ c ∈ "ls".toList, 32 ≤ c.toNat ∧ c.toNat < 127 := by simp
  have hmax : "ls".toList.length < 256 := by decide
  exact ⟨_, _, H, rfl, rfl, (typed_line H htext (by decide) hmax rfl).2⟩

/-- A byte that the keyboard has sent too early blocks it: its edge was there before `pic_init`, which
forgets it, and nothing reads the port. -/
theorem keyboard_stuck (H : Run step (boot p kb latch true) tr m) :
    sent tr = [] ∧ handled tr = [] ∧ returned tr = [] := by
  have hbytes : sent tr = [] ∧ handled tr = [] := by
    induction H with
    | nil => exact ⟨rfl, rfl⟩
    | @snoc tr a b m m' H h ih =>
      have A := Machine.run_account H
      have I := Machine.run_inv H
      obtain ⟨hs, hh⟩ := I.step_bytes h
      have hfull : m.full = true := by
        have hbytes := A.bytes
        rw [ih.1, ih.2] at hbytes
        cases hf : m.full with
        | true => rfl
        | false =>
          rw [Machine.unread, hf] at hbytes
          cases hbytes
      have hno : ∀ ops, m.handler ≠ some (.keyboard :: ops) := by
        intro ops hops
        have hbyte := A.byte (I.not_halted hops)
        rw [hfull, Machine.due_cons hops, if_pos rfl, if_pos rfl, List.length_singleton,
          Bool.toNat_true] at hbyte
        omega
      rw [Machine.sent_snoc, Machine.handled_snoc, ih.1, ih.2,
        hs.resolve_right fun h => Bool.noConfusion (hfull.symm.trans h),
        hh.resolve_right fun ⟨ops, hops⟩ => hno ops hops]
      exact ⟨rfl, rfl⟩
  refine ⟨hbytes.1, hbytes.2, ?_⟩
  have hscans : scans tr = [] := by
    rw [Machine.handled_eq] at hbytes
    exact List.map_eq_nil_iff.mp hbytes.2
  have hnone := (Machine.run_keys H).kept
  rw [hscans] at hnone
  exact (List.append_eq_nil_iff.mp hnone).1

/-- The timer still ticks. -/
theorem keyboard_stuck_tick : ∃ tr m, Run step (boot stray .zero 0x1E true) tr m ∧ m.ticks = 1 ∧
    sent tr = [] ∧ handled tr = [] ∧ returned tr = [] := by
  have H : Run step (boot stray .zero 0x1E true) _ _ :=
    .of_exec [.edge, .get, .accept 0x1000#64, .handler, .handler, .handler, .get] rfl
  exact ⟨_, _, H, rfl, keyboard_stuck H⟩

/-- The clock counts the edges of the timer, without those that came while another one waited. -/
theorem ticks_exact (H : Run step (boot p kb latch full) tr m) :
    m.ticks = BitVec.ofNat 64 (ticked tr) ∧
    (¬ m.Halted →
      edges tr = ticked tr + lost tr + (m.pics.requested 0).toNat + m.due .tick) :=
  have A := Machine.run_account H
  ⟨A.ticks, A.edges⟩

/-- Three edges, of which the second comes while the first waits. -/
theorem ticks_exact_lost : ∃ tr m, Run step (boot stray .zero 0 false) tr m ∧
    m.ticks = BitVec.ofNat 64 (ticked tr) ∧ edges tr = 3 ∧ lost tr = 1 := by
  have H : Run step (boot stray .zero 0 false) _ _ :=
    .of_exec [.edge, .edge, .accept 0x1000#64, .handler, .edge, .handler, .handler] rfl
  exact ⟨_, _, H, (ticks_exact H).1, rfl, rfl⟩

end Isr

end BojanOS
