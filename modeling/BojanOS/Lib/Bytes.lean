import Mathlib.Algebra.GroupWithZero.Nat
import Mathlib.Algebra.Order.Group.Nat
import BojanOS.Lib.Arena

/-!
# Numbers as bytes

Little-endian numbers of a given width in lists of bytes (`le`, `leVal`), and the parts of a list
that stand at an offset (`slice`). A memory is a function from addresses to bytes; `window` is what
stands at an address, and `place` the memory that holds a list.
-/

namespace Bytes

variable {α : Type}

/-! ## Numbers -/

/-- The `n` low bytes of a number, least significant byte first. -/
def le : Nat → Nat → List UInt8
  | 0, _ => []
  | n + 1, v => UInt8.ofNat v :: le n (v / 256)

def leVal : List UInt8 → Nat
  | [] => 0
  | b :: bs => b.toNat + 256 * leVal bs

@[simp] theorem le_length (n v : Nat) : (le n v).length = n := by
  induction n generalizing v with
  | zero => rfl
  | succ n ih => rw [le, List.length_cons, ih]

theorem leVal_le (n v : Nat) : leVal (le n v) = v % 256 ^ n := by
  induction n generalizing v with
  | zero => rw [Nat.pow_zero, Nat.mod_one]; rfl
  | succ n ih =>
    have hpow : 256 ^ (n + 1) = 256 * 256 ^ n := by rw [Nat.pow_succ, Nat.mul_comm]
    rw [le, leVal, ih, UInt8.toNat_ofNat', hpow, Nat.mod_mul]

theorem leVal_le_of_lt {n v : Nat} (h : v < 256 ^ n) : leVal (le n v) = v := by
  rw [leVal_le, Nat.mod_eq_of_lt h]

theorem leVal_append (a b : List UInt8) : leVal (a ++ b) = leVal a + 256 ^ a.length * leVal b := by
  induction a with
  | nil =>
    rw [List.nil_append, leVal, List.length_nil]
    omega
  | cons c a ih =>
    have hpow : 256 ^ (a.length + 1) = 256 * 256 ^ a.length := by rw [Nat.pow_succ, Nat.mul_comm]
    rw [List.cons_append, leVal, ih, leVal, List.length_cons, hpow, Nat.mul_assoc]
    omega

theorem leVal_lt (l : List UInt8) : leVal l < 256 ^ l.length := by
  induction l with
  | nil => exact Nat.one_pos
  | cons b l ih =>
    have hb : b.toNat < 256 := b.toNat_lt
    rw [leVal, List.length_cons, Nat.pow_succ]
    omega

/-! ## Parts of a list -/

/-- The `n` elements at the offset `i`. -/
def slice (l : List α) (i n : Nat) : List α := (l.drop i).take n

theorem slice_append {a b c : List α} {i n : Nat} (hi : a.length = i) (hn : b.length = n) :
    slice (a ++ (b ++ c)) i n = b := by
  rw [slice, ← hi, List.drop_left, ← hn, List.take_left]

theorem slice_left {a b : List α} {i n : Nat} (h : i + n ≤ a.length) :
    slice (a ++ b) i n = slice a i n := by
  have hlen : n ≤ (a.drop i).length := by
    rw [List.length_drop]
    omega
  rw [slice, slice, List.drop_append_of_le_length (by omega), List.take_append_of_le_length hlen]

theorem slice_slice {l : List α} {i n k m : Nat} (h : k + m ≤ n) :
    slice (slice l i n) k m = slice l (i + k) m := by
  rw [slice, slice, slice, List.drop_take, List.drop_drop, List.take_take,
    Nat.min_eq_left (by omega)]

/-- `l[i:j] = x` -/
def setSlice (l : List α) (i j : Nat) (x : List α) : List α := l.take i ++ (x ++ l.drop j)

section setSlice

variable {l x y : List α} {i j k n : Nat} {b : α}

theorem setSlice_length (hl : l.length = n) (hx : i + x.length = j) (hj : j ≤ n) :
    (setSlice l i j x).length = n := by
  rw [setSlice, List.length_append, List.length_append, List.length_take, List.length_drop]
  omega

theorem setSlice_append {a b : List α} (hij : i ≤ j) (hj : j ≤ a.length) :
    setSlice (a ++ b) i j x = setSlice a i j x ++ b := by
  rw [setSlice, setSlice, List.take_append_of_le_length (hij.trans hj),
    List.drop_append_of_le_length hj]
  simp only [List.append_assoc]

theorem set_length (hl : l.length = n) : (l.set i b).length = n := by rw [List.length_set, hl]

/-- A buffer of `n` elements, with `y` at the offset `k`. -/
structure Holds (n : Nat) (l : List α) (k : Nat) (y : List α) : Prop where
  length : l.length = n
  slice : slice l k y.length = y

namespace Holds

theorem write (hl : l.length = n) (hx : i + x.length = j) (hj : j ≤ n) :
    Holds n (setSlice l i j x) i x where
  length := setSlice_length hl hx hj
  slice := slice_append (by rw [List.length_take]; omega) rfl

theorem writeByte (hl : l.length = n) (hi : i < n) : Holds n (l.set i b) i [b] where
  length := set_length hl
  slice := by
    have hlt : i < l.length := hl ▸ hi
    rw [List.set_eq_take_append_cons_drop, if_pos hlt]
    exact slice_append (b := [b]) (by rw [List.length_take]; omega) rfl

/-- A write behind it. -/
theorem setSlice (h : Holds n l k y) (hk : k + y.length ≤ i) (hx : i + x.length = j) (hj : j ≤ n) :
    Holds n (setSlice l i j x) k y where
  length := setSlice_length h.length hx hj
  slice := by
    have hlen : k + y.length ≤ (l.take i).length := by
      rw [List.length_take, h.length]
      omega
    refine Eq.trans ?_ h.slice
    rw [Bytes.setSlice, slice_left hlen]
    conv_rhs => rw [← List.take_append_drop i l, slice_left hlen]

theorem set (h : Holds n l k y) (hk : k + y.length ≤ i) : Holds n (l.set i b) k y where
  length := set_length h.length
  slice := by
    refine Eq.trans ?_ h.slice
    refine List.ext_getElem? fun t => ?_
    rw [Bytes.slice, Bytes.slice, List.getElem?_take, List.getElem?_take, List.getElem?_drop,
      List.getElem?_drop]
    split
    · rw [List.getElem?_set_ne (by omega)]
    · rfl

end Holds

end setSlice

/-! ## Searching -/

/-- `l.find(x)` -/
def find [DecidableEq α] (x : List α) : List α → Option Nat
  | [] => if x = [] then some 0 else none
  | a :: l => if x <+: a :: l then some 0 else (find x l).map (· + 1)

theorem find_spec [DecidableEq α] {x l : List α} {i : Nat} (h : find x l = some i) :
    ∃ a b, l = a ++ (x ++ b) ∧ a.length = i := by
  induction l generalizing i with
  | nil =>
    rw [find] at h
    split at h
    · rename_i hx
      obtain rfl := Option.some.inj h
      exact ⟨[], [], by rw [hx]; rfl, rfl⟩
    · cases h
  | cons c l ih =>
    rw [find] at h
    split at h
    · rename_i hx
      obtain ⟨b, hb⟩ := hx
      obtain rfl := Option.some.inj h
      exact ⟨[], b, hb.symm, rfl⟩
    · obtain ⟨k, hk, rfl⟩ := Option.map_eq_some_iff.mp h
      obtain ⟨a, b, rfl, rfl⟩ := ih hk
      exact ⟨c :: a, b, rfl, rfl⟩

theorem find_le [DecidableEq α] (a x b : List α) :
    ∃ i, find x (a ++ (x ++ b)) = some i ∧ i ≤ a.length := by
  induction a with
  | nil =>
    refine ⟨0, ?_, Nat.le_refl 0⟩
    rw [List.nil_append]
    cases hxb : x ++ b with
    | nil => rw [find, if_pos (List.append_eq_nil_iff.mp hxb).1]
    | cons c l => rw [find, if_pos ⟨b, hxb⟩]
  | cons c a ih =>
    obtain ⟨i, hi, hle⟩ := ih
    rw [List.cons_append, find]
    split
    · exact ⟨0, rfl, Nat.zero_le _⟩
    · exact ⟨i + 1, by rw [hi]; rfl, Nat.succ_le_succ hle⟩

/-! ## Memories -/

def window (m : Nat → α) (a n : Nat) : List α := (List.range n).map fun i => m (a + i)

theorem window_congr {m m' : Nat → α} {a n : Nat} (h : ∀ i, i < n → m (a + i) = m' (a + i)) :
    window m a n = window m' a n := Arena.segment_congr h

/-- The list at the address `a`, and nothing else. -/
def place (a : Nat) (l : List UInt8) (x : Nat) : UInt8 := if x < a then 0 else l.getD (x - a) 0

theorem window_place {a i n : Nat} {l : List UInt8} (h : i + n ≤ l.length) :
    window (place a l) (a + i) n = slice l i n := by
  refine List.ext_getElem? fun k => ?_
  rw [window, slice, List.getElem?_map, List.getElem?_take, List.getElem?_drop]
  rcases Nat.lt_or_ge k n with hk | hk
  · have hx : a + i + k - a = i + k := by omega
    have hlt : ¬ a + i + k < a := by omega
    rw [List.getElem?_range hk, if_pos hk, Option.map_some, place, if_neg hlt, hx,
      List.getD_eq_getElem?_getD, List.getElem?_eq_getElem (by omega)]
    rfl
  · rw [if_neg (Nat.not_lt.mpr hk), List.getElem?_eq_none (by simpa using hk)]
    rfl

/-- The number of width `n` at an address. -/
def peek (m : Nat → UInt8) (a n : Nat) : Nat := leVal (window m a n)

theorem window_add (m : Nat → α) (a n k : Nat) :
    window m a (n + k) = window m a n ++ window m (a + n) k := Arena.segment_add

theorem peek_add (m : Nat → UInt8) (a n k : Nat) :
    peek m a (n + k) = peek m a n + 256 ^ n * peek m (a + n) k := by
  have hlen : (window m a n).length = n := Arena.length_segment
  rw [peek, window_add, leVal_append, hlen]
  rfl

theorem peek_lt (m : Nat → UInt8) (a n : Nat) : peek m a n < 256 ^ n := by
  have hlt := leVal_lt (window m a n)
  rwa [show (window m a n).length = n from Arena.length_segment] at hlt

/-- The memory with the number `v` of width `n` at the address `a`. -/
def poke (m : Nat → UInt8) (a n v : Nat) (x : Nat) : UInt8 :=
  if a ≤ x ∧ x < a + n then (le n v).getD (x - a) 0 else m x

theorem poke_outside {m : Nat → UInt8} {a n v x : Nat} (h : x < a ∨ a + n ≤ x) :
    poke m a n v x = m x := if_neg (by omega)

theorem peek_poke {m : Nat → UInt8} {a n v : Nat} (hv : v < 256 ^ n) :
    peek (poke m a n v) a n = v := by
  have hwindow : window (poke m a n v) a n = le n v := by
    refine List.ext_getElem? fun i => ?_
    rw [window, List.getElem?_map]
    rcases Nat.lt_or_ge i n with hi | hi
    · have hin : a ≤ a + i ∧ a + i < a + n := by omega
      have hlt : i < (le n v).length := by rwa [le_length]
      rw [List.getElem?_range hi, Option.map_some, poke, if_pos hin, Nat.add_sub_cancel_left,
        List.getD_eq_getElem?_getD, List.getElem?_eq_getElem hlt]
      rfl
    · rw [List.getElem?_eq_none (by simpa using hi), List.getElem?_eq_none (by simpa using hi)]
      rfl
  rw [peek, hwindow, leVal_le_of_lt hv]

theorem peek_congr {m m' : Nat → UInt8} {a n : Nat} (h : ∀ x, a ≤ x → x < a + n → m x = m' x) :
    peek m a n = peek m' a n :=
  congrArg leVal (window_congr fun i hi => h _ (by omega) (by omega))

/-! ## Records -/

/-- Numbers of given widths, one behind the other. -/
def encode (fields : List (Nat × Nat)) : List UInt8 := fields.flatMap fun f => le f.1 f.2

def width (fields : List (Nat × Nat)) : Nat := (fields.map Prod.fst).sum

theorem encode_length (fields : List (Nat × Nat)) : (encode fields).length = width fields := by
  rw [encode, width, List.length_flatMap]
  exact congrArg List.sum (List.map_congr_left fun f _ => le_length f.1 f.2)

theorem encode_append (fs gs : List (Nat × Nat)) : encode (fs ++ gs) = encode fs ++ encode gs :=
  List.flatMap_append

theorem width_append (fs gs : List (Nat × Nat)) : width (fs ++ gs) = width fs + width gs := by
  rw [width, List.map_append, List.sum_append]
  rfl

/-- A field of a record in memory. -/
theorem peek_field {a i n v : Nat} {fs gs : List (Nat × Nat)} (hi : width fs = i)
    (hv : v < 256 ^ n) : peek (place a (encode (fs ++ (n, v) :: gs))) (a + i) n = v := by
  have hlen : i + n ≤ (encode (fs ++ (n, v) :: gs)).length := by
    rw [encode_length, width_append, hi]
    exact Nat.add_le_add_left (Nat.le_add_right _ _) _
  have hsplit : encode (fs ++ (n, v) :: gs) = encode fs ++ (le n v ++ encode gs) := encode_append _ _
  have hpre : (encode fs).length = i := (encode_length fs).trans hi
  rw [peek, window_place hlen, hsplit, slice_append hpre (le_length n v), leVal_le_of_lt hv]

end Bytes
