import BojanOS.Lib.X86

/-!
# The descriptor tables (`gdt.c`, `idt.c`, `misc.S`)

The two tables are the bytes of their packed entries. What the processor reads in them is what
`set_entry` and `set_gate` were told.
-/

namespace BojanOS

open Bytes X86

/-! ## `gdt.c` -/

structure GdtEntry where
  limitLo : BitVec 16
  baseLo : BitVec 16
  baseMid : BitVec 8
  access : BitVec 8
  flagsLimitHi : BitVec 8
  baseHi : BitVec 8

namespace GdtEntry

/-- `__attribute__((packed))` -/
def bytes (e : GdtEntry) : List UInt8 :=
  encode [(2, e.limitLo.toNat), (2, e.baseLo.toNat), (1, e.baseMid.toNat), (1, e.access.toNat),
    (1, e.flagsLimitHi.toNat), (1, e.baseHi.toNat)]

def setEntry (base limit : BitVec 32) (access gran : BitVec 8) : GdtEntry where
  baseLo := (base &&& 0xFFFF#32).setWidth 16
  baseMid := (base >>> 16 &&& 0xFF#32).setWidth 8
  baseHi := (base >>> 24 &&& 0xFF#32).setWidth 8
  limitLo := (limit &&& 0xFFFF#32).setWidth 16
  flagsLimitHi := (limit >>> 16 &&& 0x0F#32).setWidth 8 ||| (gran &&& 0xF0#8)
  access := access

end GdtEntry

/-- `gdt[5]` behind `gdt_install`. -/
def gdtEntries : List GdtEntry :=
  [.setEntry 0 0 0 0,
    .setEntry 0 0xFFFFF#32 0x9A#8 0xA0#8,
    .setEntry 0 0xFFFFF#32 0x92#8 0xC0#8,
    .setEntry 0 0xFFFFF#32 0xFA#8 0xA0#8,
    .setEntry 0 0xFFFFF#32 0xF2#8 0xC0#8]

def gdt : List UInt8 := gdtEntries.flatMap GdtEntry.bytes

/-- `p.limit = sizeof(gdt) - 1` -/
def gdtLimit : Nat := gdt.length - 1

/-! ## `idt.c` -/

structure IdtEntry where
  baseLo : BitVec 16
  sel : BitVec 16
  ist : BitVec 8
  flags : BitVec 8
  baseMid : BitVec 16
  baseHi : BitVec 32
  zero : BitVec 32

namespace IdtEntry

def bytes (e : IdtEntry) : List UInt8 :=
  encode [(2, e.baseLo.toNat), (2, e.sel.toNat), (1, e.ist.toNat), (1, e.flags.toNat),
    (2, e.baseMid.toNat), (4, e.baseHi.toNat), (4, e.zero.toNat)]

/-- `memset(idt, 0, sizeof(idt))` -/
def cleared : IdtEntry := ⟨0, 0, 0, 0, 0, 0, 0⟩

def setGate (handler : BitVec 64) : IdtEntry where
  baseLo := (handler &&& 0xFFFF#64).setWidth 16
  sel := 0x08#16
  ist := 0
  flags := 0x8E#8
  baseMid := (handler >>> 16 &&& 0xFFFF#64).setWidth 16
  baseHi := (handler >>> 32 &&& 0xFFFFFFFF#64).setWidth 32
  zero := 0

end IdtEntry

/-- `for (int i = 0; i < 48; i++) set_gate(i, stubs[i]);` on the first `k` gates that are left. -/
def setGates (stubs : Nat → BitVec 64) : Nat → List IdtEntry → List IdtEntry
  | 0, idt => idt
  | k + 1, idt => (setGates stubs k idt).set k (.setGate (stubs k))

/-- `idt[256]` behind `idt_init`. -/
def idtEntries (stubs : Nat → BitVec 64) : List IdtEntry :=
  setGates stubs 48 (List.replicate 256 .cleared)

def idt (stubs : Nat → BitVec 64) : List UInt8 := (idtEntries stubs).flatMap IdtEntry.bytes

/-- `p.limit = sizeof(idt) - 1` -/
def idtLimit : Nat := 256 * 16 - 1

/-! ## What the processor reads -/

section fields

variable {gs : List (Nat × Nat)} {i n v : Nat}

/-- A field of a record. -/
theorem leVal_field (fs : List (Nat × Nat)) (hi : width fs = i) (hv : v < 256 ^ n) :
    leVal (slice (encode (fs ++ (n, v) :: gs)) i n) = v := by
  have hsplit : encode (fs ++ (n, v) :: gs) = encode fs ++ (le n v ++ encode gs) :=
    encode_append _ _
  have hpre : (encode fs).length = i := (encode_length fs).trans hi
  rw [hsplit, slice_append hpre (le_length n v), leVal_le_of_lt hv]

end fields

theorem toNat_field {w m k : Nat} {mask : BitVec w} (x : BitVec w) (hm : mask.toNat = 2 ^ m - 1) :
    ((x >>> k &&& mask).setWidth m).toNat = x.toNat / 2 ^ k % 2 ^ m := by
  rw [BitVec.toNat_setWidth, BitVec.toNat_and, hm, Nat.and_two_pow_sub_one_eq_mod, Nat.mod_mod,
    BitVec.toNat_ushiftRight, Nat.shiftRight_eq_div_pow]

theorem toNat_low {w m : Nat} {mask : BitVec w} (x : BitVec w) (hm : mask.toNat = 2 ^ m - 1) :
    ((x &&& mask).setWidth m).toNat = x.toNat % 2 ^ m := by
  rw [BitVec.toNat_setWidth, BitVec.toNat_and, hm, Nat.and_two_pow_sub_one_eq_mod, Nat.mod_mod]

/-- Two halves of a byte. -/
theorem toNat_halves {x : BitVec 8} (hx : x.toNat < 16) (y : BitVec 8) :
    (x ||| (y &&& 0xF0#8)).toNat = x.toNat + 16 * (y.toNat / 16) := by
  have hy : y &&& 0xF0#8 = y >>> 4 <<< 4 := by
    apply BitVec.eq_of_getLsbD_eq
    intro i hi
    have hmask : ∀ i < 8, (0xF0#8).getLsbD i = decide (4 ≤ i) := by decide
    rw [BitVec.getLsbD_and, hmask i hi]
    grind
  have hlt := y.isLt
  have hhigh : (y.toNat / 16) <<< 4 % 2 ^ 8 = (y.toNat / 16) <<< 4 := by
    rw [Nat.shiftLeft_eq]
    omega
  rw [BitVec.toNat_or, hy, BitVec.toNat_shiftLeft, BitVec.toNat_ushiftRight,
    Nat.shiftRight_eq_div_pow, hhigh, Nat.or_comm, ← Nat.shiftLeft_add_eq_or_of_lt (by omega),
    Nat.shiftLeft_eq]
  omega

/-- `set_entry` and the processor agree. -/
theorem segmentOf_setEntry (base limit : BitVec 32) (access gran : BitVec 8) :
    segmentOf (GdtEntry.setEntry base limit access gran).bytes =
      ⟨base.toNat, limit.toNat % 2 ^ 20, access.toNat, gran.toNat / 16⟩ := by
  generalize he : GdtEntry.setEntry base limit access gran = e
  have hll : leVal (slice e.bytes 0 2) = e.limitLo.toNat :=
    leVal_field [] rfl e.limitLo.isLt
  have hbl : leVal (slice e.bytes 2 2) = e.baseLo.toNat :=
    leVal_field [(2, _)] rfl e.baseLo.isLt
  have hbm : leVal (slice e.bytes 4 1) = e.baseMid.toNat :=
    leVal_field [(2, _), (2, _)] rfl e.baseMid.isLt
  have hac : leVal (slice e.bytes 5 1) = e.access.toNat :=
    leVal_field [(2, _), (2, _), (1, _)] rfl e.access.isLt
  have hfl : leVal (slice e.bytes 6 1) = e.flagsLimitHi.toNat :=
    leVal_field [(2, _), (2, _), (1, _), (1, _)] rfl e.flagsLimitHi.isLt
  have hbh : leVal (slice e.bytes 7 1) = e.baseHi.toNat :=
    leVal_field [(2, _), (2, _), (1, _), (1, _), (1, _)] rfl e.baseHi.isLt
  rw [segmentOf, hll, hbl, hbm, hac, hfl, hbh]
  subst he
  have hhigh : ((limit >>> 16 &&& 0x0F#32).setWidth 8).toNat = limit.toNat / 2 ^ 16 % 16 := by
    have hmask : limit.toNat / 2 ^ 16 &&& (0x0F#32).toNat = limit.toNat / 2 ^ 16 % 16 :=
      Nat.and_two_pow_sub_one_eq_mod _ 4
    rw [BitVec.toNat_setWidth, BitVec.toNat_and, BitVec.toNat_ushiftRight,
      Nat.shiftRight_eq_div_pow, hmask]
    omega
  have hlow : ∀ x : BitVec 32, ((x &&& 0xFFFF#32).setWidth 16).toNat = x.toNat % 2 ^ 16 :=
    fun x => toNat_low x rfl
  have hmid : ((base >>> 16 &&& 0xFF#32).setWidth 8).toNat = base.toNat / 2 ^ 16 % 2 ^ 8 :=
    toNat_field base rfl
  have htop : ((base >>> 24 &&& 0xFF#32).setWidth 8).toNat = base.toNat / 2 ^ 24 % 2 ^ 8 :=
    toNat_field base rfl
  have hbase := base.isLt
  simp only [GdtEntry.setEntry, hlow, hmid, htop, hhigh,
    toNat_halves (hhigh ▸ Nat.mod_lt _ (by decide))]
  congr 1 <;> omega

/-- `set_gate` and the processor agree. -/
theorem gateOf_setGate (handler : BitVec 64) :
    gateOf (IdtEntry.setGate handler).bytes = ⟨handler.toNat, 8, 0, 0x8E⟩ := by
  generalize he : IdtEntry.setGate handler = e
  have hlo : leVal (slice e.bytes 0 2) = e.baseLo.toNat :=
    leVal_field [] rfl e.baseLo.isLt
  have hsel : leVal (slice e.bytes 2 2) = e.sel.toNat :=
    leVal_field [(2, _)] rfl e.sel.isLt
  have hist : leVal (slice e.bytes 4 1) = e.ist.toNat :=
    leVal_field [(2, _), (2, _)] rfl e.ist.isLt
  have hflags : leVal (slice e.bytes 5 1) = e.flags.toNat :=
    leVal_field [(2, _), (2, _), (1, _)] rfl e.flags.isLt
  have hmid : leVal (slice e.bytes 6 2) = e.baseMid.toNat :=
    leVal_field [(2, _), (2, _), (1, _), (1, _)] rfl e.baseMid.isLt
  have hhi : leVal (slice e.bytes 8 4) = e.baseHi.toNat :=
    leVal_field [(2, _), (2, _), (1, _), (1, _), (2, _)] rfl e.baseHi.isLt
  rw [gateOf, hlo, hsel, hist, hflags, hmid, hhi]
  subst he
  have h0 : ((handler &&& 0xFFFF#64).setWidth 16).toNat = handler.toNat % 2 ^ 16 :=
    toNat_low handler rfl
  have h1 : ((handler >>> 16 &&& 0xFFFF#64).setWidth 16).toNat = handler.toNat / 2 ^ 16 % 2 ^ 16 :=
    toNat_field handler rfl
  have h2 : ((handler >>> 32 &&& 0xFFFFFFFF#64).setWidth 32).toNat =
      handler.toNat / 2 ^ 32 % 2 ^ 32 := toNat_field handler rfl
  have hlt := handler.isLt
  simp only [IdtEntry.setGate, h0, h1, h2]
  congr 1
  omega

theorem gateOf_cleared : gateOf IdtEntry.cleared.bytes = ⟨0, 0, 0, 0⟩ := by decide

theorem GdtEntry.bytes_length (e : GdtEntry) : e.bytes.length = 8 := encode_length _

theorem IdtEntry.bytes_length (e : IdtEntry) : e.bytes.length = 16 := encode_length _

/-! ## The tables -/

variable {stubs : Nat → BitVec 64} {v : Nat}

theorem setGates_getElem? (stubs : Nat → BitVec 64) (k : Nat) (l : List IdtEntry) (i : Nat) :
    (setGates stubs k l)[i]? =
      if i < k ∧ i < l.length then some (.setGate (stubs i)) else l[i]? := by
  induction k with
  | zero => rw [setGates, if_neg (by omega)]
  | succ k ih =>
    have hlen : (setGates stubs k l).length = l.length := by
      clear ih
      induction k with
      | zero => rfl
      | succ k ih => rw [setGates, List.length_set, ih]
    rw [setGates, List.getElem?_set, hlen, ih]
    grind

/-- The gates of the 48 stubs are there, and no others. -/
theorem gateAt_idt (stubs : Nat → BitVec 64) (v : Nat) : gateAt (idt stubs) idtLimit v =
    if v < 48 then some ⟨(stubs v).toNat, 8, 0, 0x8E⟩ else none := by
  rcases Nat.lt_or_ge v 256 with hv | hv
  · have hentry : (idtEntries stubs)[v]? =
        some (if v < 48 then .setGate (stubs v) else .cleared) := by
      rw [idtEntries, setGates_getElem?, List.length_replicate, List.getElem?_replicate]
      grind
    have hfits : 16 * v + (16 - 1) ≤ idtLimit := by
      rw [idtLimit]
      omega
    rw [gateAt, idt, descriptor_flatMap IdtEntry.bytes_length hentry hfits]
    split
    · rw [Option.map_some, gateOf_setGate]
      simp [Gate.present]
    · rw [Option.map_some, gateOf_cleared]
      rfl
  · have hout : ¬ 16 * v + (16 - 1) ≤ idtLimit := by
      rw [idtLimit]
      omega
    rw [gateAt, descriptor, if_neg hout, if_neg (by omega)]
    rfl

/-- The segment of `%cs` that the gates name. -/
theorem segmentAt_code : segmentAt gdt gdtLimit 0x08 = some ⟨0, 0xFFFFF, 0x9A, 0xA⟩ := by
  have hentry : gdtEntries[0x08 / 8]? = some (.setEntry 0 0xFFFFF#32 0x9A#8 0xA0#8) := rfl
  have hfits : 8 * (0x08 / 8) + (8 - 1) ≤ gdtLimit := by decide
  rw [segmentAt, if_neg (by decide), gdt, descriptor_flatMap GdtEntry.bytes_length hentry hfits,
    Option.map_some, segmentOf_setEntry]
  rfl

/-- `gdt_flush` loads the selector 0x10. -/
theorem segmentAt_data : segmentAt gdt gdtLimit 0x10 = some ⟨0, 0xFFFFF, 0x92, 0xC⟩ := by
  have hentry : gdtEntries[0x10 / 8]? = some (.setEntry 0 0xFFFFF#32 0x92#8 0xC0#8) := rfl
  have hfits : 8 * (0x10 / 8) + (8 - 1) ≤ gdtLimit := by decide
  rw [segmentAt, if_neg (by decide), gdt, descriptor_flatMap GdtEntry.bytes_length hentry hfits,
    Option.map_some, segmentOf_setEntry]
  rfl

/-- Each of the first 48 interrupts enters its stub, and any other has no gate. -/
theorem deliver_stub (stubs : Nat → BitVec 64) (v : Nat) (err : Option (BitVec 64)) (c : Cpu) :
    deliver (idt stubs) idtLimit gdt gdtLimit v err c =
      if v < 48 then some (c.interrupt (stubs v) 0x08#16 err) else none := by
  rw [deliver, gateAt_idt]
  split
  · have hcode : segmentAt gdt gdtLimit (Gate.mk (stubs v).toNat 8 0 0x8E).selector = _ :=
      segmentAt_code
    have hgate : (Gate.mk (stubs v).toNat 8 0 0x8E).interrupt = true := by simp [Gate.interrupt]
    rw [Option.bind_eq_bind, Option.bind_some, hcode, Option.bind_eq_bind, Option.bind_some,
      if_pos ⟨hgate, rfl, by decide⟩, BitVec.ofNat_toNat, BitVec.setWidth_eq]
  · rfl

end BojanOS
