import BojanOS.Cmds.Diff
import BojanOS.Cmds.DiffVerdict
import BojanOS.Cmds.InFile
import BojanOS.Cmds.ReadAll
import BojanOS.Cmds.Services

/-!
# Input costs memory only (`open_input`, `split_lines`)

A command that reads text asks the heap for the text, its lines and, in `diff`, a table. What is
read is in the heap, so none of the sizes that are computed from its length wraps round.
-/

namespace BojanOS

open Prog Vfs

/-! ## Requests -/

namespace Vfs

variable {s s₁ s₂ : Vfs}

theorem Allocates.trans (h : s.Allocates s₁) (h' : s₁.Allocates s₂) : s.Allocates s₂ := by
  obtain ⟨ram, hram, rfl⟩ := h
  obtain ⟨ram', hram', rfl⟩ := h'
  exact ⟨ram', hram.trans hram', rfl⟩

theorem Sane.kmalloc (S : s.Sane) {n : Nat} (hn : n ≤ 2 ^ 63) :
    s.Allocates { s with ram := (s.ram.kmalloc n).2 } :=
  ⟨_, .kmalloc S.heap.ram hn, rfl⟩

theorem Allocates.sane (h : s.Allocates s₁) (S : s.Sane) : s₁.Sane := (allocates_preserving S h).1

end Vfs

section

variable {s : Vfs} {lines : Option Nat} {text line : List Char} {out ls : List (List Char)}
  {ram : Ram}

theorem addLine_allocates (S : s.Sane) (hlen : line.length < 2 ^ 63)
    (h : addLine lines line out s.ram = some (ls, ram)) : s.Allocates { s with ram } := by
  have hreq := S.kmalloc (n := line.length + 1) hlen
  rw [addLine] at h
  split at h
  · cases h
  · rename_i hk
    rw [hk] at hreq
    split at h
    · cases h
    · exact (Prod.mk.inj (Option.some.inj h)).2 ▸ hreq

theorem splitLoop_allocates (S : s.Sane) (hlen : text.length + line.length < 2 ^ 63)
    (h : splitLoop lines text line out s.ram = some (ls, ram)) : s.Allocates { s with ram } := by
  induction text generalizing s line out with
  | nil =>
    rw [splitLoop] at h
    split at h
    · exact (Prod.mk.inj (Option.some.inj h)).2 ▸ S.allocates
    · exact addLine_allocates S (by simpa using hlen) h
  | cons c text ih =>
    rw [List.length_cons] at hlen
    rw [splitLoop] at h
    split at h
    · split at h
      · cases h
      · rename_i ram₁ hadd
        have h₁ := addLine_allocates S (by omega) hadd
        exact h₁.trans (ih (s := { s with ram := ram₁ }) (h₁.sane S) (by simp; omega) h)
    · exact ih S (by simp; omega) h

/-- `HEAP_MAX - HEAP_START` bytes are the largest text. -/
theorem splitLines_allocates {data : Option (List Char)} (S : s.Sane)
    (hlen : (data.getD []).length ≤ HEAP_MAX - HEAP_START)
    (h : splitLines data s.ram = some (ls, ram)) : s.Allocates { s with ram } := by
  have hmax : HEAP_MAX - HEAP_START ≤ 2 ^ 58 := by decide
  rcases data with _ | _ | ⟨c, text⟩
  · exact (Prod.mk.inj (Option.some.inj h)).2 ▸ S.kmalloc (by decide)
  · exact (Prod.mk.inj (Option.some.inj h)).2 ▸ S.kmalloc (by decide)
  · rw [Option.getD_some] at hlen
    have hcount := lineCount_le (c :: text)
    have hreq := S.kmalloc (n := SIZEOF_PTR * (lineCount (c :: text) + 1))
      (by simp only [SIZEOF_PTR]; omega)
    have hloop : splitLoop (s.ram.kmalloc (SIZEOF_PTR * (lineCount (c :: text) + 1))).1 (c :: text)
        [] [] (s.ram.kmalloc (SIZEOF_PTR * (lineCount (c :: text) + 1))).2 = some (ls, ram) := h
    exact hreq.trans (splitLoop_allocates (hreq.sane S) (by rw [List.length_nil]; omega) hloop)

end

/-! ## The standard input -/

/-- The text fits in its block, and the block in the heap. -/
structure Buffer.Small (b : Buffer) : Prop where
  len : b.bytes.length ≤ b.cap
  cap : b.cap ≤ HEAP_MAX - HEAP_START

theorem bufPutc_allocates {s : Vfs} {b b' : Buffer} {c : Char} {ram : Ram} (S : s.Sane)
    (hb : b.Small) (h : bufPutc b c s.ram = some (b', ram)) :
    s.Allocates { s with ram } ∧ b'.Small := by
  have hmax : HEAP_MAX - HEAP_START ≤ 2 ^ 60 := by decide
  have hlen := hb.len
  have hcap := hb.cap
  rcases bufPutc_cases (hcap.trans hmax) h with ⟨hroom, hbytes, hc, rfl⟩ | ⟨-, nc, hnc, rfl, hor⟩
  · refine ⟨S.allocates, ?_, hc ▸ hcap⟩
    rw [hbytes, hc, List.length_append]
    exact hroom.le
  · have hsmall : nc ≤ 2 ^ 63 := by
      rw [hnc]
      split_ifs
      · omega
      · decide
    have hreq := S.kmalloc hsmall
    refine ⟨hreq, ?_⟩
    rcases hor with ⟨hsome, hbytes, hc⟩ | ⟨-, rfl⟩
    · obtain ⟨p, hp⟩ := Option.isSome_iff_exists.mp hsome
      have hR : s.ram.InRegion := ⟨S.heap.ram.used_le, S.region⟩
      refine ⟨?_, hc ▸ hR.granted hsmall hp⟩
      rw [hbytes, hc, hnc, List.length_append, List.length_singleton]
      split_ifs
      · omega
      · omega
    · exact hb

namespace Prog

variable {fuel : Nat}

theorem readStdin_gives {b : Buffer} (hb : b.Small) :
    (readStdin fuel b).Gives Allocates Buffer.Small := by
  induction fuel generalizing b with
  | zero => exact .fault
  | succ k ih =>
    refine Only.getc fun c => ?_
    split
    · exact .pure hb
    · refine Gives.bind (.fs fun v b₁ v' S h => ?_) fun b₁ hb₁ => ih hb₁
      obtain ⟨⟨b₂, ram⟩, hput, he⟩ := Option.map_eq_some_iff.mp h
      obtain ⟨rfl, rfl⟩ := Prod.mk.inj he
      exact bufPutc_allocates S hb hput

theorem readStdin_init : (readStdin fuel .init).Gives Allocates Buffer.Small :=
  readStdin_gives ⟨Nat.le_refl 0, Nat.zero_le _⟩

/-- What is opened fits in the heap. -/
theorem openInput_gives (path : Option (List Char)) :
    (Prog.openInput fuel path).Gives Allocates fun data =>
      ∀ d, data = some d → (d.getD []).length ≤ HEAP_MAX - HEAP_START := by
  cases path with
  | none =>
    refine Gives.bind readStdin_init fun b hb => .pure fun d hd => ?_
    split at hd
    · obtain rfl := Option.some.inj hd
      cases b.data with
      | none => exact Nat.zero_le _
      | some p => exact hb.len.trans hb.cap
    · cases hd
  | some path =>
    refine Gives.vfs fun v S => ?_
    split
    · exact Only.say _ (fun d hd => by cases hd) v S
    · rename_i n hn
      intro d hd
      obtain rfl := Option.some.inj hd
      have hf : (v.node n).type = .file := of_decide_eq_true (Option.filter_eq_some_iff.mp hn).2
      cases hdata : (v.node n).data with
      | none => exact Nat.zero_le _
      | some p =>
        have hbelow := S.heap.below hdata
        have hroom := S.heap.room hdata
        have hused := S.heap.ram.used_le
        have hregion := S.region
        rw [Option.map_some, Option.getD_some, S.heap.length_contents]
        omega

theorem splitInput_gives {data : Option (List Char)}
    (hlen : (data.getD []).length ≤ HEAP_MAX - HEAP_START) :
    (splitInput data).Gives Allocates fun ls => ls.length ≤ HEAP_MAX - HEAP_START := by
  refine .fs fun v ls v' S h => ?_
  obtain ⟨⟨ls', ram⟩, hls, he⟩ := Option.map_eq_some_iff.mp h
  obtain ⟨rfl, rfl⟩ := Prod.mk.inj he
  refine ⟨splitLines_allocates S hlen hls, ?_⟩
  have hle := length_lineTexts_le [] (data.getD [])
  rw [if_pos rfl, ← splitLines_eq hls] at hle
  exact hle.trans hlen

theorem Only.onLines {path : Option (List Char)} {bad : Int}
    {body : List (List Char) → Prog Int} (h : ∀ ls, (body ls).Only Allocates) :
    (onLines fuel path bad body).Only Allocates := by
  refine Gives.bind (openInput_gives path) fun data hdata => ?_
  cases data with
  | none => exact .pure trivial
  | some data => exact Gives.bind (splitInput_gives (hdata data rfl)) fun ls _ => h ls

end Prog

/-- The table of `diff` is asked for with a product that does not wrap round. -/
theorem diffStart_only (p q : List Char) : (diffStart p q).Only Allocates := by
  have hmax : HEAP_MAX - HEAP_START + 1 ≤ 2 ^ 25 := by decide
  refine Gives.bind (openInput_gives _) fun a ha => ?_
  cases a with
  | none => exact .pure trivial
  | some a =>
    refine Gives.bind (openInput_gives _) fun b hb => ?_
    cases b with
    | none => exact .pure trivial
    | some b =>
      refine Gives.bind (splitInput_gives (ha a rfl)) fun la hla => ?_
      refine Gives.bind (splitInput_gives (hb b rfl)) fun lb hlb => ?_
      refine Only.bind (.fs fun v d v' S h => ?_) fun d => .pure trivial
      obtain ⟨-, rfl⟩ := Prod.mk.inj (Option.some.inj h)
      apply S.kmalloc
      calc 2 * (la.length + 1) * (lb.length + 1)
          ≤ 2 * 2 ^ 25 * 2 ^ 25 := Nat.mul_le_mul (Nat.mul_le_mul_left 2 (by omega)) (by omega)
        _ ≤ 2 ^ 63 := by decide

end BojanOS
