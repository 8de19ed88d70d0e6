import BojanOS.Lib.Loop
import BojanOS.Lib.PageWalk

/-!
# The page tables (`boot.S`)

`start32` clears the `.bss`, links `pml4` to `pdpt` and `pdpt` to `pd`, and fills `pd` with 512 large
pages of 2 MiB. The tables map the first GiB to itself, but CR3 is loaded with `pd`.
-/

namespace BojanOS

open Bytes PageWalk

/-- The addresses that the linker gives to the `.bss` and to the tables in it. -/
structure Layout where
  bssStart : Nat
  bssEnd : Nat
  pml4 : Nat
  pdpt : Nat
  pd : Nat
  aligned : pml4 % 4096 = 0
  pdpt_eq : pdpt = pml4 + 4096
  pd_eq : pd = pdpt + 4096
  bssStart_le : bssStart ≤ pml4
  le_bssEnd : pd + 4096 ≤ bssEnd
  bssEnd_lt : bssEnd < 2 ^ 32

namespace Start32

abbrev Mem := Nat → UInt8

structure Machine where
  mem : Mem
  cr3 : Nat

/-- `rep stosl` with the number of dwords in `%ecx`. -/
def clearBss (L : Layout) (mem : Mem) (x : Nat) : UInt8 :=
  let ecx := (L.bssEnd - L.bssStart) >>> 2
  if L.bssStart ≤ x ∧ x < L.bssStart + 4 * ecx then 0 else mem x

/-- The body of the loop at `2:`. -/
def fillStep (L : Layout) : Nat × Mem → Option ((Nat × Mem) ⊕ Mem)
  | (edx, mem) =>
    let eax := edx <<< 21 % 2 ^ 32 ||| 0x83
    let mem := poke mem (L.pd + 8 * edx) 4 eax
    let mem := poke mem (L.pd + 4 + 8 * edx) 4 0
    let edx := edx + 1
    some (if edx < 512 then .inl (edx, mem) else .inr mem)

def fillVariant (s : Nat × Mem) : Nat := 512 - s.1

/-- The links, before the loop. -/
def links (L : Layout) (mem : Mem) : Mem :=
  let mem := clearBss L mem
  let mem := poke mem L.pml4 4 (L.pdpt + 0x3)
  poke mem L.pdpt 4 (L.pd + 0x3)

def start32 (L : Layout) (mem : Mem) : Option Machine :=
  (Loop.exec (fillStep L) fillVariant (0, links L mem)).map fun mem => { mem, cr3 := L.pd }

/-! ## The tables -/

variable {L : Layout} {mem : Mem} {i v : Nat}

/-- The entry for the `i`-th large page. -/
def pageEntry (i : Nat) : Nat := i * 2 ^ 21 + 0x83

theorem eax_eq (hi : i < 512) : i <<< 21 % 2 ^ 32 ||| 0x83 = pageEntry i := by
  have hlt : i <<< 21 < 2 ^ 32 := by
    rw [Nat.shiftLeft_eq]
    omega
  rw [Nat.mod_eq_of_lt hlt, ← Nat.shiftLeft_add_eq_or_of_lt (by decide), Nat.shiftLeft_eq]
  rfl

theorem clearBss_page (L : Layout) (mem : Mem) {x : Nat} (h : L.pml4 ≤ x) (hx : x < L.pd + 4093) :
    clearBss L mem x = 0 := by
  have hstart := L.bssStart_le
  have hend := L.le_bssEnd
  have hin : L.bssStart ≤ x ∧ x < L.bssStart + 4 * ((L.bssEnd - L.bssStart) >>> 2) := by
    rw [Nat.shiftRight_eq_div_pow]
    omega
  rw [clearBss]
  exact if_pos hin

/-- An entry whose upper half is clear. -/
theorem entry_eq {m : Mem} {table e : Nat} (hlow : peek m (table + 8 * i) 4 = e)
    (hhigh : peek m (table + 8 * i + 4) 4 = 0) : entry m table i = e := by
  rw [entry, peek_add m _ 4 4, hlow, hhigh]
  rfl

theorem peek_clear {m : Mem} {a : Nat} (h : ∀ x, a ≤ x → x < a + 4 → m x = 0) : peek m a 4 = 0 := by
  have hzero : peek m a 4 = peek (fun _ => 0) a 4 := peek_congr h
  rw [hzero]
  rfl

theorem links_pml4 (L : Layout) (mem : Mem) : entry (links L mem) L.pml4 0 = L.pdpt + 0x3 := by
  have hpdpt := L.pdpt_eq
  have hpd := L.pd_eq
  have hend := L.le_bssEnd
  have hlt := L.bssEnd_lt
  apply entry_eq
  · refine (peek_congr fun x _ hx => ?_).trans (peek_poke (m := clearBss L mem) (n := 4) (by omega))
    exact poke_outside (.inl (by omega))
  · refine peek_clear fun x hle hx => ?_
    rw [links, poke_outside (.inl (by omega)), poke_outside (.inr (by omega))]
    exact clearBss_page L mem (by omega) (by omega)

theorem links_pdpt (L : Layout) (mem : Mem) : entry (links L mem) L.pdpt 0 = L.pd + 0x3 := by
  have hpdpt := L.pdpt_eq
  have hpd := L.pd_eq
  have hend := L.le_bssEnd
  have hlt := L.bssEnd_lt
  apply entry_eq
  · exact peek_poke (by omega)
  · refine peek_clear fun x hle hx => ?_
    rw [links, poke_outside (.inr (by omega)), poke_outside (.inr (by omega))]
    exact clearBss_page L mem (by omega) (by omega)

/-- The head of the loop: the entries below `%edx` are filled, and nothing outside `pd` has changed. -/
structure Filled (L : Layout) (mem0 : Mem) (edx : Nat) (mem : Mem) : Prop where
  entry : ∀ i < edx, PageWalk.entry mem L.pd i = pageEntry i
  outside : ∀ x < L.pd, mem x = mem0 x

namespace Filled

variable {mem0 : Mem} {edx : Nat}

theorem step (H : Filled L mem0 edx mem) (hedx : edx < 512) :
    Filled L mem0 (edx + 1) (poke (poke mem (L.pd + 8 * edx) 4 (edx <<< 21 % 2 ^ 32 ||| 0x83))
      (L.pd + 4 + 8 * edx) 4 0) where
  entry i hi := by
    rw [eax_eq hedx]
    obtain hlt | rfl : i < edx ∨ i = edx := by omega
    · rw [← H.entry i hlt]
      refine peek_congr fun x _ hx => ?_
      rw [poke_outside (.inl (by omega)), poke_outside (.inl (by omega))]
    · have heax : pageEntry i < 256 ^ 4 := by
        rw [pageEntry]
        omega
      apply entry_eq
      · refine (peek_congr fun x _ hx => ?_).trans (peek_poke (m := mem) heax)
        exact poke_outside (.inl (by omega))
      · have haddr : L.pd + 8 * i + 4 = L.pd + 4 + 8 * i := by omega
        rw [haddr]
        exact peek_poke (by decide)
  outside x hx := by
    rw [poke_outside (.inl (by omega)), poke_outside (.inl (by omega))]
    exact H.outside x hx

end Filled

theorem fillVariant_step (L : Layout) : Loop.Variant (fillStep L) fillVariant := by
  rintro ⟨edx, mem⟩ ⟨edx', mem'⟩ h
  simp only [fillStep, Option.some.injEq] at h
  split at h
  · obtain ⟨rfl, -⟩ := Prod.mk.inj (Sum.inl.inj h)
    simp only [fillVariant]
    omega
  · cases h

/-- The loop fills the whole of `pd`. -/
theorem fill_spec (L : Layout) (mem0 : Mem) :
    ∃ mem, Loop.exec (fillStep L) fillVariant (0, mem0) = some mem ∧ Filled L mem0 512 mem := by
  have hnext : ∀ s : Nat × Mem, s.1 < 512 ∧ Filled L mem0 s.1 s.2 → ∃ o, fillStep L s = some o ∧
      (∀ s', o = .inl s' → s'.1 < 512 ∧ Filled L mem0 s'.1 s'.2) ∧
      ∀ mem, o = .inr mem → Filled L mem0 512 mem := by
    rintro ⟨edx, mem⟩ ⟨hedx, H⟩
    refine ⟨_, rfl, fun s' hs => ?_, fun mem' hs => ?_⟩
    · split at hs
      · rename_i hlt
        obtain rfl := Sum.inl.inj hs
        exact ⟨hlt, H.step hedx⟩
      · cases hs
    · split at hs
      · cases hs
      · rename_i hge
        obtain rfl := Sum.inr.inj hs
        obtain rfl : edx = 511 := by omega
        exact H.step hedx
  have h0 : (0 : Nat) < 512 ∧ Filled L mem0 0 mem0 :=
    ⟨by decide, fun i hi => absurd hi (Nat.not_lt_zero i), fun x _ => rfl⟩
  obtain ⟨mem, hmem⟩ := Loop.exec_total (fillVariant_step L) (s := (0, mem0))
    (I := fun s => s.1 < 512 ∧ Filled L mem0 s.1 s.2)
    (fun s hs => (hnext s hs).imp fun o ho => ⟨ho.1, ho.2.1⟩) h0
  obtain ⟨s, hs, hdone⟩ := Loop.exec_sound hmem
  have hI : s.1 < 512 ∧ Filled L mem0 s.1 s.2 := by
    refine hs.inv (I := fun s => s.1 < 512 ∧ Filled L mem0 s.1 s.2) (fun t t' ht h => ?_) h0
    obtain ⟨o, ho, hinl, -⟩ := hnext t ht
    rw [ho] at h
    exact hinl t' (Option.some.inj h)
  obtain ⟨o, ho, -, hinr⟩ := hnext s hI
  rw [ho] at hdone
  exact ⟨mem, hmem, hinr mem (Option.some.inj hdone)⟩

/-! ## The walks -/

/-- What `start32` leaves behind. -/
structure Tables (L : Layout) (mem : Mem) : Prop where
  pml4 : entry mem L.pml4 0 = L.pdpt + 0x3
  pdpt : entry mem L.pdpt 0 = L.pd + 0x3
  pd : ∀ i < 512, entry mem L.pd i = pageEntry i

theorem start32_tables (L : Layout) (mem : Mem) :
    ∃ t, start32 L mem = some t ∧ t.cr3 = L.pd ∧ Tables L t.mem := by
  obtain ⟨mem', hexec, H⟩ := fill_spec L (links L mem)
  have hpdpt := L.pdpt_eq
  have hpd := L.pd_eq
  refine ⟨{ mem := mem', cr3 := L.pd }, by rw [start32, hexec]; rfl, rfl, ?_, ?_, H.entry⟩
  · rw [← links_pml4 L mem]
    exact peek_congr fun x _ hx => H.outside x (by omega)
  · rw [← links_pdpt L mem]
    exact peek_congr fun x _ hx => H.outside x (by omega)

theorem index_root (hv : v < 2 ^ 30) : index 3 v = 0 := by
  have h0 : v / 2 ^ 39 = 0 := Nat.div_eq_of_lt (by omega)
  show v / 2 ^ 39 % 512 = 0
  rw [h0]

namespace Tables

variable (H : Tables L mem) (hv : v < 2 ^ 30)
include H hv

/-- From `pml4` the walk ends in the large page of the address. -/
theorem walk_pml4 : walk mem L.pml4 v = some ⟨v, true⟩ := by
  have hpdpt := L.pdpt_eq
  have hpd := L.pd_eq
  have hend := L.le_bssEnd
  have hlt := L.bssEnd_lt
  have haligned := L.aligned
  have hroot : base 0 L.pml4 = L.pml4 := base_self haligned (by omega)
  have hindex : index 2 v = 0 := by
    have h0 : v / 2 ^ 30 = 0 := Nat.div_eq_of_lt hv
    show v / 2 ^ 30 % 512 = 0
    rw [h0]
  have hpage : index 1 v = v / 2 ^ 21 := by
    show v / 2 ^ 21 % 512 = v / 2 ^ 21
    omega
  have hentry : entry mem L.pd (index 1 v) = pageEntry (v / 2 ^ 21) := by
    rw [hpage]
    exact H.pd _ (by omega)
  have hdir : walkTable mem v 1 L.pd true = some ⟨v, true⟩ := by
    have hpresent : Present (pageEntry (v / 2 ^ 21)) := by
      rw [Present, pageEntry]
      omega
    have hlarge : Large (pageEntry (v / 2 ^ 21)) := by
      rw [Large, pageEntry]
      omega
    have hfree : ¬ Reserved 1 (pageEntry (v / 2 ^ 21)) := by
      show ¬ (v / 2 ^ 21 * 2 ^ 21 + 0x83) % 2 ^ 21 / 2 ^ 13 ≠ 0
      omega
    have hwritable : writable (pageEntry (v / 2 ^ 21)) = true := by
      rw [writable, pageEntry, beq_iff_eq]
      omega
    have hbase : base 1 (pageEntry (v / 2 ^ 21)) + v % 2 ^ shift 1 = v := by
      show (v / 2 ^ 21 * 2 ^ 21 + 0x83) % 2 ^ 52 / 2 ^ 21 * 2 ^ 21 + v % 2 ^ 21 = v
      omega
    rw [walkTable_large hentry hpresent hlarge (by decide) hfree, hbase, hwritable]
    rfl
  have hlink : walkTable mem v 2 L.pdpt true = walkTable mem v 1 L.pd true :=
    walkTable_next (by rw [hindex]; exact H.pdpt) (by omega) (by omega)
  have hlink' : walkTable mem v 3 L.pml4 true = walkTable mem v 2 L.pdpt true :=
    walkTable_next (by rw [index_root hv]; exact H.pml4) (by omega) (by omega)
  rw [walk, hroot, hlink', hlink, hdir]

/-- From `pd` it stops at a large page in the root. -/
theorem walk_pd : walk mem L.pd v = none := by
  have hentry : entry mem L.pd (index 3 v) = pageEntry 0 := by
    rw [index_root hv]
    exact H.pd 0 (by decide)
  have hpdpt := L.pdpt_eq
  have hpd := L.pd_eq
  have hend := L.le_bssEnd
  have hlt := L.bssEnd_lt
  have haligned := L.aligned
  have hroot : base 0 L.pd = L.pd := base_self (by omega) (by omega)
  rw [walk, hroot, walkTable_root hentry (by decide)]

end Tables

/-- No address below 1 GiB is translated, as CR3 holds `pd`. With `pml4` in its place every one would
be mapped to itself, writable. -/
theorem start32_pageFault (L : Layout) (mem : Mem) : ∃ t, start32 L mem = some t ∧
    ∀ v < 2 ^ 30, walk t.mem t.cr3 v = none ∧ walk t.mem L.pml4 v = some ⟨v, true⟩ := by
  obtain ⟨t, ht, hcr3, H⟩ := start32_tables L mem
  refine ⟨t, ht, fun v hv => ⟨?_, H.walk_pml4 hv⟩⟩
  rw [hcr3]
  exact H.walk_pd hv

/-- A kernel with a `.bss` of three pages behind the stack. -/
def sampleLayout : Layout where
  bssStart := 0x110000
  bssEnd := 0x120000
  pml4 := 0x118000
  pdpt := 0x119000
  pd := 0x11A000
  aligned := by decide
  pdpt_eq := by decide
  pd_eq := by decide
  bssStart_le := by decide
  le_bssEnd := by decide
  bssEnd_lt := by decide

theorem kernel_pageFault : ∃ t, start32 sampleLayout (fun _ => 0) = some t ∧
    walk t.mem t.cr3 0x100000 = none :=
  (start32_pageFault sampleLayout fun _ => 0).imp fun _ ht => ⟨ht.1, (ht.2 0x100000 (by decide)).1⟩

/-- The address of the kernel itself is not mapped. -/
theorem kernel_not_mapped : ¬ ∀ v < 2 ^ 30, ∃ t, start32 sampleLayout (fun _ => 0) = some t ∧
    walk t.mem t.cr3 v = some ⟨v, true⟩ := by
  intro h
  obtain ⟨t, ht, hwalk⟩ := h 0x100000 (by decide)
  obtain ⟨u, hu, hcr3, H⟩ := start32_tables sampleLayout fun _ => 0
  obtain rfl : t = u := Option.some.inj (ht.symm.trans hu)
  rw [hcr3, H.walk_pd (by decide)] at hwalk
  cases hwalk

end Start32

end BojanOS
