import Mathlib.Data.List.Basic

/-!
# Strings in arrays of a fixed size

A `CString α n` is the string that an array of `n` elements holds: what stands in front of the
terminator, which is in the array too. `copyTo` is the loop under `strcpy` and `strcat`, one store
after another; its result, if every store is inside the array, is the text (`copyTo_eq_some`).
-/

structure CString (α : Type) (n : Nat) where
  text : List α
  fits : text.length < n

namespace CString

variable {α : Type} {n : Nat} {a b : CString α n} {t src : List α} {parts : List (List α)}

theorem text_inj (h : a.text = b.text) : a = b := by
  cases a
  cases b
  cases h
  rfl

/-- `while ((*dst++ = *src++));` behind `t`. -/
def copyTo (n : Nat) (t : List α) : List α → Option (CString α n)
  | [] => if h : t.length < n then some ⟨t, h⟩ else none
  | c :: src => if t.length < n then copyTo n (t ++ [c]) src else none

/-- `strcpy(a, src)`, whatever the array holds. -/
def strcpy (n : Nat) (src : List α) : Option (CString α n) := copyTo n [] src

/-- `strcat(a, src)`: the loop starts at the terminator. -/
def strcat (a : CString α n) (src : List α) : Option (CString α n) := copyTo n a.text src

/-- One `strcat` for each part. -/
def strcats (a : CString α n) (parts : List (List α)) : Option (CString α n) :=
  parts.foldlM strcat a

theorem copyTo_eq_some : copyTo n t src = some a ↔ a.text = t ++ src := by
  induction src generalizing t with
  | nil =>
    rw [copyTo, List.append_nil]
    split
    · exact ⟨fun h => Option.some.inj h ▸ rfl, fun h => congrArg some (text_inj h.symm)⟩
    · rename_i hn
      exact ⟨fun h => (by cases h), fun h => absurd (h ▸ a.fits) hn⟩
  | cons c src ih =>
    rw [copyTo]
    split
    · rw [ih, List.append_assoc]
      rfl
    · rename_i hn
      refine ⟨fun h => (by cases h), fun h => absurd a.fits ?_⟩
      rw [h, List.length_append]
      omega

theorem strcpy_eq_some : strcpy n src = some a ↔ a.text = src := copyTo_eq_some

theorem strcat_eq_some : a.strcat src = some b ↔ b.text = a.text ++ src := copyTo_eq_some

/-- If the whole text fits, so does what stands there after each part. -/
theorem strcats_eq_some : a.strcats parts = some b ↔ b.text = a.text ++ parts.flatten := by
  induction parts generalizing a with
  | nil =>
    rw [strcats, List.foldlM_nil, List.flatten_nil, List.append_nil]
    exact ⟨fun h => Option.some.inj h ▸ rfl, fun h => congrArg some (text_inj h.symm)⟩
  | cons p parts ih =>
    rw [strcats, List.foldlM_cons, List.flatten_cons, ← List.append_assoc]
    constructor
    · intro h
      obtain ⟨c, hc, h⟩ := Option.bind_eq_some_iff.mp h
      rw [← strcat_eq_some.mp hc]
      exact ih.mp h
    · intro h
      have hfits : (a.text ++ p).length < n := by
        have := b.fits
        rw [h, List.length_append] at this
        omega
      have hc : a.strcat p = some ⟨_, hfits⟩ := strcat_eq_some.mpr rfl
      rw [hc]
      exact ih.mpr h

end CString
