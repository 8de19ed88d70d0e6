import BojanOS.Cmds.Input
import BojanOS.Lib.Loop
import BojanOS.Vfs.Contents

/-!
# The lines in memory (`split_lines`)

The first loop counts the lines, and the second one copies them and stores their addresses. Both
find the end of a line at the same places, so the array has an entry for each of them, and what
`splitLines` says about the text is in memory (`splitLinesAt_refines`).
-/

namespace BojanOS

open Arena

/-! ## The pieces of a text -/

/-- The text without a newline at its end. -/
def chomp (text : List Char) : List Char :=
  if text.getLast? = some '\n' then text.dropLast else text

/-- What is between the newlines; a newline at the end does not begin another piece. -/
def newlinePieces (text : List Char) : List (List Char) :=
  if text = [] then [] else (chomp text).splitOn '\n'

theorem chomp_cons {c : Char} {text : List Char} (h : text ≠ []) :
    chomp (c :: text) = c :: chomp text := by
  obtain ⟨d, t, rfl⟩ := List.exists_cons_of_ne_nil h
  rw [chomp, chomp, List.getLast?_cons_cons]
  split_ifs
  · rfl
  · rfl

theorem lineTexts_splitOn {text : List Char} (h : text ≠ []) (line : List Char) :
    lineTexts line text = ((chomp text).splitOn '\n').modifyHead (line ++ ·) := by
  induction text generalizing line with
  | nil => exact absurd rfl h
  | cons c text ih =>
    rw [lineTexts]
    rcases eq_or_ne text [] with rfl | hne
    · by_cases hc : c = '\n'
      · subst hc
        simp [lineTexts, chomp]
      · simp [lineTexts, chomp, hc, List.splitOn_cons_eq_if_modifyHead]
    · rw [chomp_cons hne, List.splitOn_cons_eq_if_modifyHead]
      simp only [beq_iff_eq]
      by_cases hc : c = '\n'
      · rw [if_pos hc, if_pos hc, ih hne, List.modifyHead_cons, List.append_nil]
        exact congrArg _ (congrFun List.modifyHead_id _)
      · rw [if_neg hc, if_neg hc, ih hne, List.modifyHead_modifyHead]
        congr 1
        funext l
        exact List.append_assoc ..

/-- The lines of `split_lines` are the pieces. -/
theorem lineTexts_pieces (text : List Char) : lineTexts [] text = newlinePieces text := by
  rw [newlinePieces]
  split_ifs with h
  · rw [h]
    rfl
  · rw [lineTexts_splitOn h]
    exact congrFun List.modifyHead_id _

/-- Joined again, they are the text. -/
theorem newlinePieces_join (text : List Char) :
    ['\n'].intercalate (newlinePieces text) ++
      (if text.getLast? = some '\n' then ['\n'] else []) = text := by
  rw [newlinePieces]
  split_ifs with h hlast hlast
  · rw [h] at hlast
    cases hlast
  · rw [h]
    rfl
  · rw [List.intercalate_splitOn, chomp, if_pos hlast]
    exact List.dropLast_append_getLast? _ hlast
  · rw [List.intercalate_splitOn, chomp, if_neg hlast, List.append_nil]

/-- The two loops agree about the number of lines. -/
theorem length_lineTexts {text : List Char} (h : text ≠ []) (line : List Char) :
    (lineTexts line text).length = lineCount text := by
  induction text generalizing line with
  | nil => exact absurd rfl h
  | cons c text ih =>
    rw [lineTexts, lineCount]
    rcases eq_or_ne text [] with rfl | hne
    · by_cases hc : c = '\n'
      · subst hc
        rfl
      · simp [lineTexts, hc]
    · obtain ⟨d, t, rfl⟩ := List.exists_cons_of_ne_nil hne
      rw [List.getLast?_cons_cons]
      by_cases hc : c = '\n'
      · rw [if_pos hc, List.length_cons, ih hne, lineCount, hc, List.count_cons_self]
        omega
      · rw [if_neg hc, ih hne, lineCount, List.count_cons_of_ne hc]

/-! ## `split_lines` -/

/-- `lines`, with the number of entries that were allocated, and `lines[0 .. li)`. -/
structure LineArray where
  addr : Option Nat
  room : Nat
  entries : List Nat

/-- `lines[li++] = l;` -/
def LineArray.push (lines : LineArray) (l : Nat) : Option LineArray :=
  if lines.addr ≠ none ∧ lines.entries.length < lines.room then
    some { lines with entries := lines.entries ++ [l] }
  else none

/-- `char* l = kmalloc(llen + 1); memcpy(l, data + start, llen); l[llen] = 0;` -/
def copyLine (r : Ram) (src llen : Nat) : Option (Nat × Ram) :=
  match r.kmalloc (llen + 1) with
  | (none, _) => none
  | (some l, r) =>
    some (l, { r with
      mem := Function.update (memcpy l (.heap src) llen 0 r.mem) (l + llen) NUL })

/-- `count++` -/
def incCount (count : Nat) : Option Nat :=
  if (count : Int) < INT_MAX then some (count + 1) else none

/-- The first loop, and the count of a line without a newline. -/
def countLines (r : Ram) (data len : Nat) : Option Nat := do
  let count ← Loop.upTo
    (fun i count => if r.mem (data + i) = '\n' then incCount count else some count) len 0
  if r.mem (data + (len - 1)) ≠ '\n' then incCount count else some count

/-- The variables of the second loop. -/
structure SplitState where
  start : Nat
  lines : LineArray
  ram : Ram

/-- A round of the second loop. -/
def splitRound (data len i : Nat) (st : SplitState) : Option SplitState :=
  if i = len ∨ st.ram.mem (data + i) = '\n' then
    if st.start < i ∨ i < len then do
      let (l, ram) ← copyLine st.ram (data + st.start) (i - st.start)
      let lines ← st.lines.push l
      some ⟨i + 1, lines, ram⟩
    else some { st with start := i + 1 }
  else some st

/-- The lines in memory; `*out_count` is the number of entries. -/
def splitLinesAt (data : Option Nat) (len : Nat) (r : Ram) : Option (LineArray × Ram) :=
  match data with
  | none => some (⟨(r.kmalloc SIZEOF_PTR).1, 1, []⟩, (r.kmalloc SIZEOF_PTR).2)
  | some data =>
    if len = 0 then some (⟨(r.kmalloc SIZEOF_PTR).1, 1, []⟩, (r.kmalloc SIZEOF_PTR).2)
    else do
      let count ← countLines r data len
      let room ← incCount count
      let block := r.kmalloc (SIZEOF_PTR * room)
      let st ← Loop.upTo (splitRound data len) (len + 1) ⟨0, ⟨block.1, room, []⟩, block.2⟩
      some (st.lines, st.ram)

/-! ## A copy -/

/-- A terminated copy of the piece is at `l`, below what is free. -/
structure Ram.HoldsLine (r : Ram) (l : Nat) (piece : List Char) : Prop where
  bytes : segment r.mem l piece.length = piece
  terminated : r.mem (l + piece.length) = NUL
  below : l + piece.length < r.heap.used

theorem Ram.HoldsLine.mono {r r' : Ram} {l : Nat} {piece : List Char} (H : r.HoldsLine l piece)
    (hused : r.heap.used ≤ r'.heap.used) (hmem : ∀ a < r.heap.used, r'.mem a = r.mem a) :
    r'.HoldsLine l piece := by
  have hlt := H.below
  refine ⟨?_, ?_, H.below.trans_le hused⟩
  · refine (segment_congr fun i hi => ?_).trans H.bytes
    exact hmem _ (by omega)
  · rw [hmem _ hlt, H.terminated]

/-- The allocator does not look at the bytes. -/
theorem Ram.kmalloc_mem (r : Ram) (n : Nat) (m : Nat → Char) :
    ({ r with mem := m } : Ram).kmalloc n =
      ((r.kmalloc n).1, { (r.kmalloc n).2 with mem := m }) := by
  rw [kmalloc, kmalloc]
  split_ifs
  · rfl
  · rfl

/-- What is below the free bytes stays, and the copy is above it. -/
theorem copyLine_spec {r r' : Ram} {l src llen : Nat} (hr : r.Ok) (hsrc : src + llen ≤ r.heap.used)
    (h : copyLine r src llen = some (l, r')) :
    r'.Ok ∧ r.heap.used ≤ r'.heap.used ∧ (∀ a < r.heap.used, r'.mem a = r.mem a) ∧
      r'.HoldsLine l (segment r.mem src llen) := by
  have hsmall : llen + 1 ≤ 2 ^ 63 := by
    have := hr.used_le
    have := hr.total_le
    omega
  obtain ⟨hok, hmem, hused, hfresh⟩ := Ram.kmalloc_spec hr hsmall
  rw [copyLine] at h
  rcases hk : r.kmalloc (llen + 1) with ⟨_ | q, r₁⟩
  · rw [hk] at h
    cases h
  · rw [hk] at h hok hmem hused hfresh
    obtain ⟨rfl, rfl⟩ := Prod.mk.inj (Option.some.inj h)
    obtain ⟨rfl, hend⟩ := hfresh q rfl
    simp only at hok hmem hused hend ⊢
    have hsteady : (Src.heap src).Steady r.heap.used llen := .inl hsrc
    have hcopy : segment (memcpy r.heap.used (.heap src) llen 0 r₁.mem) r.heap.used llen =
        segment r.mem src llen := by
      rw [segment_memcpy hsteady, hmem, Src.bytes_heap]
    refine ⟨⟨hok.used_le, hok.total_le⟩, hused, ?_, ?_, ?_, ?_⟩
    · intro a ha
      rw [Function.update_of_ne (by omega), memcpy_outside (.inl (by omega)), hmem]
    · rw [length_segment]
      refine (segment_congr fun i hi => ?_).trans hcopy
      exact Function.update_of_ne (by omega) _ _
    · rw [length_segment]
      exact Function.update_self ..
    · rw [length_segment]
      simp only
      omega

/-! ## The two loops -/

/-- The copy is made where `addLine` gets its block. -/
theorem copyLine_addLine {r r' : Ram} {p llen : Nat} (src : Nat) {m : Nat → Char} {line : List Char}
    {out out' : List (List Char)} (hline : line.length = llen)
    (h : addLine (some p) line out { r with mem := m } = some (out', r')) :
    ∃ l r₁, copyLine r src llen = some (l, r₁) ∧ out' = out ++ [line] ∧
      r' = { r₁ with mem := m } := by
  rw [addLine, hline, Ram.kmalloc_mem] at h
  rw [copyLine]
  rcases hk : r.kmalloc (llen + 1) with ⟨_ | q, r₂⟩
  · rw [hk] at h
    cases h
  · rw [hk] at h
    obtain ⟨rfl, rfl⟩ := Prod.mk.inj (Option.some.inj h)
    exact ⟨q, _, rfl, rfl, rfl⟩

theorem splitRound_copy {data len i l : Nat} {st : SplitState} {lines : LineArray} {r : Ram}
    (hend : i = len ∨ st.ram.mem (data + i) = '\n') (hline : st.start < i ∨ i < len)
    (hcopy : copyLine st.ram (data + st.start) (i - st.start) = some (l, r))
    (hpush : st.lines.push l = some lines) :
    splitRound data len i st = some ⟨i + 1, lines, r⟩ := by
  rw [splitRound, if_pos hend, if_pos hline, hcopy, Option.bind_eq_bind, Option.bind_some]
  simp only [hpush, Option.bind_eq_bind, Option.bind_some]

/-- In front of the round `i`: the text is as it was, the entries hold the lines so far, and from
the rest `splitLoop` gets to the result `res`. -/
structure SplitInv (r₀ : Ram) (p data len : Nat) (res : List (List Char) × Ram) (i : Nat)
    (st : SplitState) : Prop where
  start_le : st.start ≤ i
  finished : len < i → st.start = i
  ok : st.ram.Ok
  used : r₀.heap.used ≤ st.ram.heap.used
  mem : ∀ a < r₀.heap.used, st.ram.mem a = r₀.mem a
  addr : st.lines.addr = some p
  room : st.lines.room = res.1.length + 1
  rest : ∃ out, List.Forall₂ st.ram.HoldsLine st.lines.entries out ∧
    splitLoop (some p) (segment r₀.mem (data + i) (len - i))
      (segment r₀.mem (data + st.start) (i - st.start)) out { st.ram with mem := r₀.mem } = some res

namespace SplitInv

variable {r₀ : Ram} {p data len i : Nat} {res : List (List Char) × Ram} {st : SplitState}

/-- The end of a line. -/
theorem copied (I : SplitInv r₀ p data len res i st) (hdata : data + len ≤ r₀.heap.used)
    (hi : i ≤ len) {out : List (List Char)}
    (hout : List.Forall₂ st.ram.HoldsLine st.lines.entries out) {out' : List (List Char)} {r' : Ram}
    (hadd : addLine (some p) (segment r₀.mem (data + st.start) (i - st.start)) out
      { st.ram with mem := r₀.mem } = some (out', r'))
    (hrest : splitLoop (some p) (segment r₀.mem (data + (i + 1)) (len - (i + 1))) [] out' r' =
      some res) :
    ∃ l ram lines, copyLine st.ram (data + st.start) (i - st.start) = some (l, ram) ∧
      st.lines.push l = some lines ∧ SplitInv r₀ p data len res (i + 1) ⟨i + 1, lines, ram⟩ := by
  obtain ⟨l, ram, hcopy, rfl, rfl⟩ := copyLine_addLine (data + st.start) length_segment hadd
  have hle := I.start_le
  have hused := I.used
  obtain ⟨hok, hused', hmem, hline⟩ := copyLine_spec I.ok (by omega) hcopy
  have htext : segment st.ram.mem (data + st.start) (i - st.start) =
      segment r₀.mem (data + st.start) (i - st.start) :=
    segment_congr fun j hj => I.mem _ (by omega)
  rw [htext] at hline
  have hlength : st.lines.entries.length < st.lines.room := by
    have hres := splitLoop_eq hrest
    rw [I.room, hout.length_eq, hres, List.length_append, List.length_append]
    omega
  have hpush : st.lines.push l = some { st.lines with entries := st.lines.entries ++ [l] } := by
    rw [LineArray.push, if_pos ⟨by rw [I.addr]; exact Option.some_ne_none p, hlength⟩]
  refine ⟨l, ram, _, hcopy, hpush, le_rfl, fun _ => rfl, hok, hused.trans hused', ?_, I.addr,
    I.room, ?_⟩
  · intro a ha
    rw [hmem a (by omega), I.mem a ha]
  · refine ⟨out ++ [segment r₀.mem (data + st.start) (i - st.start)], ?_, ?_⟩
    · exact List.rel_append (hout.imp fun _ _ H => H.mono hused' hmem) (.cons hline .nil)
    · rw [Nat.sub_self, segment_zero]
      exact hrest

/-- A byte of a line. -/
theorem passed (I : SplitInv r₀ p data len res i st) (hi : i < len) {out : List (List Char)}
    (hout : List.Forall₂ st.ram.HoldsLine st.lines.entries out)
    (hrest : splitLoop (some p) (segment r₀.mem (data + (i + 1)) (len - (i + 1)))
      (segment r₀.mem (data + st.start) (i - st.start) ++ [r₀.mem (data + i)]) out
      { st.ram with mem := r₀.mem } = some res) : SplitInv r₀ p data len res (i + 1) st := by
  have hle := I.start_le
  have hline : segment r₀.mem (data + st.start) (i + 1 - st.start) =
      segment r₀.mem (data + st.start) (i - st.start) ++ [r₀.mem (data + i)] := by
    have hlast : data + st.start + (i - st.start) = data + i := by omega
    rw [Nat.sub_add_comm hle, segment_add, segment_succ, segment_zero, hlast]
  refine ⟨hle.trans (Nat.le_succ i), fun h => absurd h (by omega), I.ok, I.used, I.mem, I.addr,
    I.room, out, hout, ?_⟩
  rw [hline]
  exact hrest

/-- The round behind the text. -/
theorem last (I : SplitInv r₀ p data len res len st) (hdata : data + len ≤ r₀.heap.used) :
    ∃ st', splitRound data len len st = some st' ∧ SplitInv r₀ p data len res (len + 1) st' := by
  obtain ⟨out, hout, hrest⟩ := I.rest
  have hend : segment r₀.mem (data + (len + 1)) (len - (len + 1)) = [] := by
    rw [Nat.sub_eq_zero_of_le (Nat.le_succ len), segment_zero]
  rw [Nat.sub_self, segment_zero, splitLoop] at hrest
  by_cases hstart : st.start < len
  · have hne : segment r₀.mem (data + st.start) (len - st.start) ≠ [] := by
      intro h
      have hlength := congrArg List.length h
      rw [length_segment, List.length_nil] at hlength
      omega
    rw [if_neg hne] at hrest
    obtain ⟨l, ram, lines, hcopy, hpush, I'⟩ :=
      I.copied hdata le_rfl hout hrest (by rw [hend]; rfl)
    exact ⟨_, splitRound_copy (.inl rfl) (.inl hstart) hcopy hpush, I'⟩
  · have hempty : segment r₀.mem (data + st.start) (len - st.start) = [] := by
      rw [Nat.sub_eq_zero_of_le (Nat.not_lt.mp hstart), segment_zero]
    have hboth : ¬ (st.start < len ∨ len < len) := fun h => h.elim hstart (Nat.lt_irrefl len)
    rw [if_pos hempty] at hrest
    rw [splitRound, if_pos (.inl rfl), if_neg hboth]
    refine ⟨_, rfl, le_rfl, fun _ => rfl, I.ok, I.used, I.mem, I.addr, I.room, out, hout, ?_⟩
    rw [hend, Nat.sub_self, segment_zero]
    exact hrest

/-- A round in the text. -/
theorem inside (I : SplitInv r₀ p data len res i st) (hdata : data + len ≤ r₀.heap.used)
    (hlt : i < len) :
    ∃ st', splitRound data len i st = some st' ∧ SplitInv r₀ p data len res (i + 1) st' := by
  obtain ⟨out, hout, hrest⟩ := I.rest
  have htext : segment r₀.mem (data + i) (len - i) =
      r₀.mem (data + i) :: segment r₀.mem (data + (i + 1)) (len - (i + 1)) := by
    have hlen : len - i = len - (i + 1) + 1 := by omega
    rw [hlen, segment_succ, Nat.add_assoc]
  have hbyte := I.mem (data + i) (by omega)
  rw [htext, splitLoop] at hrest
  by_cases hc : r₀.mem (data + i) = '\n'
  · rw [if_pos hc] at hrest
    split at hrest
    · cases hrest
    · rename_i out' r' hadd
      obtain ⟨l, ram, lines, hcopy, hpush, I'⟩ := I.copied hdata hlt.le hout hadd hrest
      exact ⟨_, splitRound_copy (.inr (hbyte.trans hc)) (.inr hlt) hcopy hpush, I'⟩
  · rw [if_neg hc] at hrest
    have hno : ¬ (i = len ∨ st.ram.mem (data + i) = '\n') := by
      rw [hbyte]
      exact fun h => h.elim hlt.ne hc
    rw [splitRound, if_neg hno]
    exact ⟨st, rfl, I.passed hlt hout hrest⟩

theorem round (I : SplitInv r₀ p data len res i st) (hdata : data + len ≤ r₀.heap.used)
    (hi : i < len + 1) :
    ∃ st', splitRound data len i st = some st' ∧ SplitInv r₀ p data len res (i + 1) st' := by
  rcases Nat.eq_or_lt_of_le (Nat.le_of_lt_succ hi) with rfl | hlt
  · exact I.last hdata
  · exact I.inside hdata hlt

/-- Behind the last round. -/
theorem done (I : SplitInv r₀ p data len res (len + 1) st) :
    List.Forall₂ st.ram.HoldsLine st.lines.entries res.1 ∧
      ({ st.ram with mem := r₀.mem } : Ram) = res.2 := by
  obtain ⟨out, hout, hrest⟩ := I.rest
  rw [I.finished (Nat.lt_succ_self len), Nat.sub_eq_zero_of_le (Nat.le_succ len),
    Nat.sub_self] at hrest
  obtain rfl := Option.some.inj hrest
  exact ⟨hout, rfl⟩

end SplitInv

/-- The first loop counts the newlines. -/
theorem countLoop_eq {r : Ram} {data len : Nat} (hlen : (len : Int) ≤ INT_MAX) :
    Loop.upTo (fun i count =>
      if r.mem (data + i) = '\n' then incCount count else some count) len 0 =
        some ((segment r.mem data len).count '\n') := by
  apply Loop.upTo_eq (g := fun i => (segment r.mem data i).count '\n')
  intro i hi
  have hle : (segment r.mem data i).count '\n' ≤ i := List.count_le_length.trans_eq length_segment
  rw [segment_add, List.count_append, segment_succ, segment_zero]
  by_cases hc : r.mem (data + i) = '\n'
  · have hfits : ((segment r.mem data i).count '\n' : Int) < INT_MAX := by omega
    rw [if_pos hc, incCount, if_pos hfits, hc]
    rfl
  · rw [if_neg hc, List.count_cons_of_ne hc]
    rfl

theorem incCount_eq {len : Nat} (hlen : (len : Int) + 2 ≤ INT_MAX) {count : Nat}
    (h : count ≤ len + 1) : incCount count = some (count + 1) := by
  rw [incCount, if_pos (by omega)]

theorem countLines_eq {r : Ram} {data len : Nat} (hpos : 0 < len)
    (hlen : (len : Int) + 2 ≤ INT_MAX) :
    countLines r data len = some (lineCount (segment r.mem data len)) := by
  have hle : (segment r.mem data len).count '\n' ≤ len :=
    List.count_le_length.trans_eq length_segment
  have hlast : (segment r.mem data len).getLast? = some (r.mem (data + (len - 1))) := by
    obtain ⟨n, rfl⟩ := Nat.exists_eq_add_of_le' hpos
    rw [segment_add, segment_succ, segment_zero, List.getLast?_concat, Nat.add_sub_cancel]
  rw [countLines, countLoop_eq (by omega), Option.bind_eq_bind, Option.bind_some, lineCount, hlast]
  by_cases hc : r.mem (data + (len - 1)) = '\n'
  · rw [if_neg (Classical.not_not.mpr hc), hc]
    rfl
  · have hne : ¬ some (r.mem (data + (len - 1))) = some '\n' := fun h => hc (Option.some.inj h)
    rw [if_pos hc, incCount_eq hlen (by omega), if_neg hne]

/-- The lines are not more than the bytes and one. -/
theorem lineCount_le (text : List Char) : lineCount text ≤ text.length + 1 := by
  have hle : text.count '\n' ≤ text.length := List.count_le_length
  rw [lineCount]
  split_ifs
  · omega
  · omega

/-- The second loop starts with an entry for each line, and one more. -/
theorem splitLinesAt_loop {r : Ram} {data len : Nat} (hpos : 0 < len)
    (hlen : (len : Int) + 2 ≤ INT_MAX) :
    splitLinesAt (some data) len r =
      (Loop.upTo (splitRound data len) (len + 1)
        ⟨0, ⟨(r.kmalloc (SIZEOF_PTR * (lineCount (segment r.mem data len) + 1))).1,
            lineCount (segment r.mem data len) + 1, []⟩,
          (r.kmalloc (SIZEOF_PTR * (lineCount (segment r.mem data len) + 1))).2⟩).bind fun st =>
            some (st.lines, st.ram) := by
  have hle := lineCount_le (segment r.mem data len)
  rw [length_segment] at hle
  rw [splitLinesAt, if_neg hpos.ne', countLines_eq hpos hlen, Option.bind_eq_bind, Option.bind_some,
    incCount_eq hlen hle, Option.bind_eq_bind, Option.bind_some]

/-- What `splitLines` says of the text of a buffer on the heap is in memory after `split_lines`. -/
theorem splitLinesAt_refines {r re : Ram} {data len : Nat} {pieces : List (List Char)} (hr : r.Ok)
    (hdata : data + len ≤ r.heap.used) (hlen : (len : Int) + 2 ≤ INT_MAX)
    (h : splitLines (some (segment r.mem data len)) r = some (pieces, re)) :
    ∃ lines r', splitLinesAt (some data) len r = some (lines, r') ∧
      List.Forall₂ r'.HoldsLine lines.entries pieces ∧ lines.entries.length ≤ lines.room ∧
      ({ r' with mem := r.mem } : Ram) = re := by
  have hkeep : ∀ n, ({ (r.kmalloc n).2 with mem := r.mem } : Ram) = (r.kmalloc n).2 := fun n =>
    (congrArg Prod.snd (r.kmalloc_mem n r.mem)).symm
  rcases Nat.eq_zero_or_pos len with rfl | hpos
  · obtain ⟨rfl, rfl⟩ := Prod.mk.inj (Option.some.inj h)
    exact ⟨_, _, rfl, .nil, Nat.zero_le _, hkeep _⟩
  have hne : segment r.mem data len ≠ [] := List.ne_nil_of_length_pos (by rwa [length_segment])
  have hcount : pieces.length = lineCount (segment r.mem data len) := by
    rw [splitLines_eq h, Option.getD_some, length_lineTexts hne]
  have hloop : splitLoop (r.kmalloc (SIZEOF_PTR * (pieces.length + 1))).1
      (segment r.mem data len) [] [] (r.kmalloc (SIZEOF_PTR * (pieces.length + 1))).2 =
        some (pieces, re) := by
    rw [hcount]
    obtain ⟨c, text, htext⟩ := List.exists_cons_of_ne_nil hne
    rw [htext] at h ⊢
    exact h
  have hsmall : SIZEOF_PTR * (pieces.length + 1) ≤ 2 ^ 63 := by
    have hle := lineCount_le (segment r.mem data len)
    rw [length_segment] at hle
    rw [INT_MAX] at hlen
    rw [SIZEOF_PTR, hcount]
    omega
  obtain ⟨hok, hmem, hused, -⟩ := Ram.kmalloc_spec hr hsmall
  have hsame := hkeep (SIZEOF_PTR * (pieces.length + 1))
  rw [splitLinesAt_loop hpos hlen, ← hcount]
  rcases hk : r.kmalloc (SIZEOF_PTR * (pieces.length + 1)) with ⟨_ | p, r₁⟩
  · rw [hk, splitLoop_null (.inr hne)] at hloop
    cases hloop
  rw [hk] at hok hmem hused hloop hsame
  have I₀ : SplitInv r p data len (pieces, re) 0 ⟨0, ⟨some p, pieces.length + 1, []⟩, r₁⟩ := by
    refine ⟨le_rfl, fun h => absurd h (Nat.not_lt_zero len), hok, hused, ?_, rfl, rfl, [], .nil, ?_⟩
    · intro a _
      exact congrFun hmem a
    · rw [hsame]
      exact hloop
  obtain ⟨st, hst, I⟩ := Loop.upTo_total (fun i s hi I => I.round hdata hi) I₀
  obtain ⟨hlines, hram⟩ := I.done
  refine ⟨st.lines, st.ram, by rw [hst]; rfl, hlines, ?_, hram⟩
  rw [I.room, hlines.length_eq]
  exact Nat.le_succ _

/-! ## The lines of a buffer -/

/-- The bytes of a buffer that may be null. -/
def Ram.bytesAt (r : Ram) (data : Option Nat) (len : Nat) : List Char :=
  data.elim [] fun d => segment r.mem d len

/-- With all of its memory granted, `split_lines` stores the addresses of copies of the pieces,
within the array that it has allocated, and the pieces with newlines between them are the
buffer. -/
theorem splitLinesAt_pieces {r : Ram} (hr : r.Ok) (htotal : r.heap.total ≤ HEAP_MAX - HEAP_START)
    {data : Option Nat} {len : Nat} (hdata : ∀ d, data = some d → d + len ≤ r.heap.used)
    (hgrants : r.bytesAt data len ≠ [] →
      r.grantsAll (lineRequests (r.bytesAt data len)) = true) :
    ∃ lines r', splitLinesAt data len r = some (lines, r') ∧
      lines.entries.length ≤ lines.room ∧
      List.Forall₂ r'.HoldsLine lines.entries (newlinePieces (r.bytesAt data len)) ∧
      ['\n'].intercalate (newlinePieces (r.bytesAt data len)) ++
        (if (r.bytesAt data len).getLast? = some '\n' then ['\n'] else []) =
          r.bytesAt data len := by
  have hjoin := newlinePieces_join (r.bytesAt data len)
  cases data with
  | none => exact ⟨_, _, rfl, Nat.zero_le _, .nil, hjoin⟩
  | some d =>
    have hd := hdata d rfl
    have hsome : (splitLines (some (segment r.mem d len)) r).isSome := by
      apply (splitLines_isSome _ _).mpr
      rintro text ht hne
      obtain rfl := Option.some.inj ht
      exact hgrants hne
    obtain ⟨⟨pieces, re⟩, h⟩ := Option.isSome_iff_exists.mp hsome
    have hlen : (len : Int) + 2 ≤ INT_MAX := by
      have hused := hr.used_le
      rw [HEAP_MAX, HEAP_START] at htotal
      rw [INT_MAX]
      omega
    obtain ⟨lines, r', hat, hlines, hroom, -⟩ := splitLinesAt_refines hr hd hlen h
    have hpieces := splitLines_eq h
    rw [Option.getD_some, lineTexts_pieces] at hpieces
    rw [hpieces] at hlines
    exact ⟨lines, r', hat, hroom, hlines, hjoin⟩

/-- A heap with two lines at its front, and an empty one between them. -/
def threeLinesRam : Ram :=
  { bootRam with
    heap := { used := 16, total := HEAP_MAX - HEAP_START }
    mem := fun a => "a\n\nb".toList.getD a NUL }

theorem splitLinesAt_pieces_three :
    ∃ lines r', splitLinesAt (some 0) 4 threeLinesRam = some (lines, r') ∧
      List.Forall₂ r'.HoldsLine lines.entries [['a'], [], ['b']] := by
  have htext : threeLinesRam.bytesAt (some 0) 4 = "a\n\nb".toList := by decide
  have hdata : ∀ d, some 0 = some d → d + 4 ≤ threeLinesRam.heap.used := by
    intro d hd
    obtain rfl := Option.some.inj hd
    decide
  have hgrants : threeLinesRam.grantsAll (lineRequests "a\n\nb".toList) = true := by
    decide +kernel
  obtain ⟨lines, r', h, -, hlines, -⟩ := splitLinesAt_pieces (r := threeLinesRam)
    ⟨by decide, by decide⟩ (by decide) hdata (fun _ => by rw [htext]; exact hgrants)
  refine ⟨lines, r', h, ?_⟩
  rw [htext] at hlines
  have hpieces : newlinePieces "a\n\nb".toList = [['a'], [], ['b']] := by decide +kernel
  rwa [hpieces] at hlines

end BojanOS
