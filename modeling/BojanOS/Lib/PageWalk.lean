import BojanOS.Lib.Bytes

/-!
# The page walk of a 64-bit processor

Four levels of tables with 512 entries of 8 bytes, numbered from 3 (the root) down to 0. An entry
that is not present stops the walk, and so does one with a reserved bit. Above level 0 an entry may
map a large page, but not in the root, where the bit that says so is reserved.
-/

namespace PageWalk

open Bytes

variable {m : Nat → UInt8} {k table v e : Nat} {w : Bool}

structure Page where
  phys : Nat
  writable : Bool
  deriving DecidableEq

def Present (e : Nat) : Prop := e % 2 = 1

instance (e : Nat) : Decidable (Present e) := Nat.decEq _ _

def writable (e : Nat) : Bool := e / 2 % 2 == 1

def Large (e : Nat) : Prop := e / 2 ^ 7 % 2 = 1

instance (e : Nat) : Decidable (Large e) := Nat.decEq _ _

/-- The bits of an address that are left to a page at the level `k`. -/
def shift (k : Nat) : Nat := 12 + 9 * k

/-- The table or page that an entry points to, as far as the level `k` leaves bits for it. -/
def base (k e : Nat) : Nat := e % 2 ^ 52 / 2 ^ shift k * 2 ^ shift k

/-- Bit 12 of a large page is an attribute, the ones between it and the address are reserved. -/
def Reserved (k e : Nat) : Prop := e % 2 ^ shift k / 2 ^ 13 ≠ 0

instance (k e : Nat) : Decidable (Reserved k e) := instDecidableNot

def entry (m : Nat → UInt8) (table i : Nat) : Nat := peek m (table + 8 * i) 8

def index (k v : Nat) : Nat := v / 2 ^ shift k % 512

def walkTable (m : Nat → UInt8) (v : Nat) : Nat → Nat → Bool → Option Page
  | 0, table, w =>
    let e := entry m table (index 0 v)
    if Present e then some ⟨base 0 e + v % 2 ^ shift 0, w && writable e⟩ else none
  | k + 1, table, w =>
    let e := entry m table (index (k + 1) v)
    if ¬ Present e then none
    else if Large e then
      if k = 2 ∨ Reserved (k + 1) e then none
      else some ⟨base (k + 1) e + v % 2 ^ shift (k + 1), w && writable e⟩
    else walkTable m v k (base 0 e) (w && writable e)

/-- The translation of a virtual address, `none` is a page fault. -/
def walk (m : Nat → UInt8) (cr3 v : Nat) : Option Page := walkTable m v 3 (base 0 cr3) true

/-! ## Rules -/

/-- Over an entry that links to a table. -/
theorem walkTable_link (he : entry m table (index (k + 1) v) = e) (hp : Present e)
    (hl : ¬ Large e) :
    walkTable m v (k + 1) table w = walkTable m v k (base 0 e) (w && writable e) := by
  rw [walkTable, he]
  simp only [hp, not_true, hl, if_false]

theorem walkTable_large (he : entry m table (index (k + 1) v) = e) (hp : Present e) (hl : Large e)
    (hk : k < 2) (hr : ¬ Reserved (k + 1) e) :
    walkTable m v (k + 1) table w = some ⟨base (k + 1) e + v % 2 ^ shift (k + 1), w && writable e⟩ := by
  have hno : ¬ (k = 2 ∨ Reserved (k + 1) e) := not_or.mpr ⟨Nat.ne_of_lt hk, hr⟩
  rw [walkTable, he]
  simp only [hp, not_true, hl, hno, if_false, if_true]

/-- A large page in the root is a fault. -/
theorem walkTable_root (he : entry m table (index 3 v) = e) (hl : Large e) :
    walkTable m v 3 table w = none := by
  rw [walkTable, he]
  simp only [hl, if_true, true_or]
  exact ite_self none

/-- An entry `table + flags` links to `table`. -/
theorem base_add {f : Nat} (ht : table % 4096 = 0) (hlt : table < 2 ^ 32) (hf : f < 4096) :
    base 0 (table + f) = table := by
  have hlow : (table + f) % 2 ^ 52 = table + f := Nat.mod_eq_of_lt (by omega)
  rw [base, hlow]
  show (table + f) / 4096 * 4096 = table
  omega

theorem base_self (ht : table % 4096 = 0) (hlt : table < 2 ^ 32) : base 0 table = table :=
  base_add (f := 0) ht hlt (by decide)

/-- Over a writable link to the table at `t`. -/
theorem walkTable_next {t : Nat} (he : entry m table (index (k + 1) v) = t + 3) (ht : t % 4096 = 0)
    (hlt : t < 2 ^ 32) : walkTable m v (k + 1) table true = walkTable m v k t true := by
  have hp : Present (t + 3) := by
    rw [Present]
    omega
  have hl : ¬ Large (t + 3) := by
    rw [Large]
    omega
  have hw : writable (t + 3) = true := by
    rw [writable, beq_iff_eq]
    omega
  rw [walkTable_link he hp hl, base_add ht hlt (by decide), hw]
  rfl

end PageWalk
