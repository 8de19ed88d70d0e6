import BojanOS.Shell.Words

/-!
# `tokenize` against the out-of-place tokenizer

The word loop keeps the line in four parts (`Layout`): what it has written, the gap between its two
cursors, the unread text, and the bytes behind the terminator. A piece that does not fit makes the
write cursor overtake the read cursor on a digit, and from then on the loop copies that digit until
it leaves the array (`Runaway`). So `tokenize` is `parseInPlace`, a function of the text alone.
-/

namespace BojanOS

/-! ## Pointers into a terminated text -/

/-- At `p` begins the text `r`, with its terminator and then `T`. -/
def At (buf : Buf) (p : Nat) (r T : List Char) : Prop := buf.drop p = r ++ NUL :: T

namespace At

variable {buf : Buf} {p k : Nat} {r T : List Char}

theorem of_append {A : List Char} : At (A ++ (r ++ NUL :: T)) A.length r T := List.drop_left

theorem advance (h : At buf p r T) (hk : k ≤ r.length) : At buf (p + k) (r.drop k) T := by
  rw [At, ← List.drop_drop, h, List.drop_append_of_le_length hk]

theorem get (h : At buf p r T) : buf[p]? = some (r.headD NUL) := by
  have hg : buf[p]? = (buf.drop p)[0]? := by rw [List.getElem?_drop, Nat.add_zero]
  rw [hg, h]
  cases r <;> rfl

theorem get_cons {c : Char} (h : At buf p (c :: r) T) : buf[p]? = some c := h.get

theorem get_nil (h : At buf p [] T) : buf[p]? = some NUL := h.get

theorem lt (h : At buf p r T) : p + r.length < buf.length := by
  have := congrArg List.length h
  simp only [List.length_drop, List.length_append, List.length_cons] at this
  omega

theorem split (h : At buf p r T) : buf = buf.take p ++ (r ++ NUL :: T) := by
  conv_lhs => rw [← List.take_append_drop p buf, h]

theorem cstr (h : At buf p r T) (hr : NUL ∉ r) : BojanOS.cstr buf p = r := by
  rw [BojanOS.cstr, h, List.takeWhile_append_of_pos]
  · simp
  · intro c hc
    have : c ≠ NUL := fun he => hr (he ▸ hc)
    simpa using this

/-- A scan that stops at the terminator. -/
theorem takeWhile (h : At buf p r T) {f : Char → Bool} (hf : f NUL = false) :
    (buf.drop p).takeWhile f = r.takeWhile f := by
  rw [h, List.takeWhile_append]
  split
  · rename_i hlen
    have hall : r.takeWhile f = r := (List.takeWhile_prefix f).eq_of_length hlen
    rw [List.takeWhile_cons_of_neg (by simp [hf]), List.append_nil, hall]
  · rfl

theorem skipBlanks (h : At buf p r T) :
    At buf (BojanOS.skipBlanks buf p) (r.dropWhile isBlank) T := by
  have hlen : (r.takeWhile isBlank).length ≤ r.length := (List.takeWhile_prefix _).length_le
  have hdrop : r.drop (r.takeWhile isBlank).length = r.dropWhile isBlank := by
    have h := congrArg (List.drop (r.takeWhile isBlank).length)
      (List.takeWhile_append_dropWhile (p := isBlank) (l := r))
    rw [← h, List.drop_left]
  rw [BojanOS.skipBlanks, h.takeWhile (by decide), ← hdrop]
  exact h.advance hlen

end At

/-! ## The word loop -/

namespace Tokenize

variable {code : Fin 256} {st st' w : WordSt} {D G s T : List Char} {pc : Piece} {pcs : List Piece}
  {q q' : Nat} {s' rest : List Char}

structure Layout (st : WordSt) (D G s T : List Char) : Prop where
  buf : st.buf = D ++ (G ++ (s ++ NUL :: T))
  out : st.out = D.length
  p : st.p = D.length + G.length

namespace Layout

theorem at_p (L : Layout st D G s T) : At st.buf st.p s T := by
  rw [L.buf, L.p, ← List.length_append, ← List.append_assoc]
  exact At.of_append

theorem out_le (L : Layout st D G s T) : st.out ≤ st.p := by
  rw [L.out, L.p]
  exact Nat.le_add_right _ _

theorem drop_end (L : Layout st D G s T) :
    st.buf.drop (D.length + G.length + s.length + 1) = T := by
  have h := L.at_p.advance (Nat.le_refl s.length)
  rw [L.p, List.drop_length] at h
  rw [← List.drop_drop, h]
  rfl

end Layout

theorem store_front {E R : List Char} {c : Char} (hE : E ≠ []) :
    store (D ++ (E ++ R)) D.length c = some ((D ++ [c]) ++ (E.tail ++ R)) := by
  cases E with
  | nil => exact absurd rfl hE
  | cons x E => simp [store]

/-- Writing a text over the bytes `E`. -/
theorem appendStr_spec {E R text : List Char} (h : text.length ≤ E.length) :
    appendStr (D ++ (E ++ R)) D.length text =
      some ((D ++ text) ++ (E.drop text.length ++ R), D.length + text.length) := by
  induction text generalizing D E with
  | nil => simp [appendStr]
  | cons c text ih =>
    cases E with
    | nil => simp at h
    | cons x E =>
      have hlen : text.length ≤ E.length := by simpa using h
      have := ih (D := D ++ [c]) hlen
      rw [List.length_append, List.length_singleton] at this
      rw [appendStr, store_front (by simp), Option.bind_some, List.tail_cons, this]
      simp [Nat.add_left_comm, Nat.add_comm]

/-- One round, in terms of the piece that it reads. -/
theorem wordStep_eq (h : At st.buf st.p s T) (hs : NUL ∉ s) :
    wordStep code st = match nextPiece st.quote s with
      | none => some (.inr st)
      | some (pc, q, _) => (appendStr st.buf st.out (pc.text code)).map fun r =>
          .inl { buf := r.1, p := st.p + pc.width, out := r.2, quote := q } := by
  rw [wordStep]
  cases s with
  | nil =>
    rw [h.get_nil]
    rfl
  | cons c s =>
    have hc : c ≠ NUL := fun he => hs (he ▸ List.mem_cons_self)
    have hcopy : copyChar st c = (appendStr st.buf st.out [c]).map fun r =>
        .inl { buf := r.1, p := st.p + 1, out := r.2, quote := st.quote } := by
      rw [copyChar, appendStr]
      cases store st.buf st.out c <;> rfl
    have hnext : At st.buf (st.p + 1) s T := h.advance (k := 1) (by simp)
    rw [h.get_cons]
    simp only [hc, if_false, nextPiece]
    split_ifs with h1 h2 h3 h4 h5 h6
    · rfl
    · rfl
    · rfl
    · obtain ⟨s, rfl⟩ := List.head?_eq_some_iff.mp h5.2.2
      rw [hnext.get_cons]
      rfl
    · cases s with
      | nil =>
        rw [hnext.get_nil]
        exact hcopy
      | cons d s =>
        have hd : d ≠ '?' := fun hd => h5 ⟨h4.1, h4.2, congrArg some hd⟩
        rw [hnext.get_cons]
        simp only [hd, if_false]
        exact hcopy
    · exact absurd ⟨h6.1, h6.2.1⟩ h4
    · exact hcopy

theorem wordStep_none (L : Layout st D G s T) (hs : NUL ∉ s) (h : nextPiece st.quote s = none) :
    wordStep code st = some (.inr st) := by
  rw [wordStep_eq L.at_p hs, h]

/-- A piece that fits is read and written. -/
theorem wordStep_some (L : Layout st D G s T) (hs : NUL ∉ s)
    (h : nextPiece st.quote s = some (pc, q', s'))
    (hfit : (pc.text code).length ≤ G.length + pc.width) :
    ∃ st', wordStep code st = some (.inl st') ∧ st'.quote = q' ∧
      Layout st' (D ++ pc.text code) ((G ++ s.take pc.width).drop (pc.text code).length) s' T := by
  obtain ⟨hsplit, hwidth⟩ := nextPiece_split h
  have hbuf : st.buf = D ++ ((G ++ s.take pc.width) ++ (s' ++ NUL :: T)) := by
    rw [L.buf]
    conv_lhs => rw [hsplit]
    simp
  have hroom : (pc.text code).length ≤ (G ++ s.take pc.width).length := by
    rwa [List.length_append, hwidth]
  have happ := appendStr_spec (D := D) (R := s' ++ NUL :: T) hroom
  refine ⟨_, by rw [wordStep_eq L.at_p hs, h, hbuf, L.out]; simp only [happ]; rfl, rfl, rfl, ?_, ?_⟩
  · rw [List.length_append]
  · simp only [L.p, List.length_append, List.length_drop, hwidth]
    omega

theorem not_mem_of_nextPiece (hs : NUL ∉ s) (h : nextPiece q s = some (pc, q', s')) : NUL ∉ s' := by
  rw [(nextPiece_split h).1] at hs
  exact fun hm => hs (List.mem_append_right _ hm)

theorem store_length {buf buf' : Buf} {i : Nat} {c : Char} (h : store buf i c = some buf') :
    buf'.length = buf.length := by
  rw [store] at h
  split at h
  · rw [← Option.some.inj h, List.length_set]
  · cases h

theorem appendStr_length {buf buf' : Buf} {out out' : Nat} {text : List Char}
    (h : appendStr buf out text = some (buf', out')) : buf'.length = buf.length := by
  induction text generalizing buf out with
  | nil =>
    obtain ⟨rfl, -⟩ : buf = buf' ∧ out = out' := by simpa [appendStr] using h
    rfl
  | cons c text ih =>
    obtain ⟨b, hb, h⟩ := Option.bind_eq_some_iff.mp h
    exact (ih h).trans (store_length hb)

/-- A round ends the loop at a terminator or a delimiter, or the read cursor moves on, inside the
array. -/
theorem wordStep_cases {r : WordSt ⊕ WordSt} (h : wordStep code st = some r) :
    ∃ c, st.buf[st.p]? = some c ∧ ((r = .inr st ∧ (c = NUL ∨ isDelim c = true)) ∨
      ∃ st', r = .inl st' ∧ st.p < st'.p ∧ st'.buf.length = st.buf.length) := by
  have hcopy : ∀ {c : Char}, copyChar st c = some r →
      ∃ st', r = .inl st' ∧ st.p < st'.p ∧ st'.buf.length = st.buf.length := by
    intro c h
    obtain ⟨b, hb, rfl⟩ := Option.map_eq_some_iff.mp h
    exact ⟨_, rfl, Nat.lt_succ_self _, store_length hb⟩
  rw [wordStep] at h
  cases hc : st.buf[st.p]? with
  | none => rw [hc] at h; cases h
  | some c =>
    rw [hc] at h
    simp only at h
    refine ⟨c, rfl, ?_⟩
    split at h
    · rename_i h0
      exact .inl ⟨(Option.some.inj h).symm, .inl h0⟩
    split at h
    · exact .inr ⟨_, (Option.some.inj h).symm, Nat.lt_succ_self _, rfl⟩
    split at h
    · exact .inr ⟨_, (Option.some.inj h).symm, Nat.lt_succ_self _, rfl⟩
    split at h
    · rename_i hdel
      exact .inl ⟨(Option.some.inj h).symm, .inr hdel.2⟩
    split at h
    · cases hd : st.buf[st.p + 1]? with
      | none => rw [hd] at h; cases h
      | some d =>
        rw [hd] at h
        simp only at h
        split at h
        · obtain ⟨b, hb, rfl⟩ := Option.map_eq_some_iff.mp h
          exact .inr ⟨_, rfl, Nat.lt_add_of_pos_right (by decide), appendStr_length hb⟩
        · exact .inr (hcopy h)
    · exact .inr (hcopy h)

theorem wordStep_monotone (h : wordStep code st = some (.inl st')) :
    st.p < st.buf.length ∧ st.p < st'.p ∧ st'.buf.length = st.buf.length := by
  obtain ⟨c, hc, ⟨hr, -⟩ | ⟨t, ht, hp, hlen⟩⟩ := wordStep_cases h
  · cases hr
  · obtain rfl := Sum.inl.inj ht
    exact ⟨(List.getElem?_eq_some_iff.mp hc).1, hp, hlen⟩

theorem wordStep_done {r : WordSt} (h : wordStep code st = some (.inr r)) :
    r = st ∧ ∃ c, st.buf[st.p]? = some c ∧ (c = NUL ∨ isDelim c = true) := by
  obtain ⟨c, hc, ⟨hr, hend⟩ | ⟨t, ht, -⟩⟩ := wordStep_cases h
  · exact ⟨Sum.inr.inj hr, c, hc, hend⟩
  · cases ht

theorem wordVariant (code : Fin 256) : Loop.Variant (wordStep code) wordMeasure := by
  intro st st' h
  obtain ⟨hlt, hp, hlen⟩ := wordStep_monotone h
  simp only [wordMeasure]
  omega

theorem wordLoop_fits (L : Layout st D G s T) (hs : NUL ∉ s) (hp : pieces st.quote s = (pcs, rest))
    (hf : Fits code G.length pcs) :
    ∃ st' G', wordLoop code st = some st' ∧ Layout st' (D ++ wordOf code pcs) G' rest T ∧
      NUL ∉ rest ∧ (D ++ wordOf code pcs).length + G'.length + rest.length =
        D.length + G.length + s.length := by
  induction pcs generalizing st D G s with
  | nil =>
    cases h : nextPiece st.quote s with
    | none =>
      rw [pieces_of_none h] at hp
      obtain rfl : s = rest := congrArg Prod.snd hp
      have hD : D ++ wordOf code [] = D := List.append_nil D
      rw [hD]
      exact ⟨st, G, Loop.exec_done (wordStep_none L hs h), L, hs, rfl⟩
    | some r =>
      obtain ⟨pc, q', s'⟩ := r
      rw [pieces_of_some h] at hp
      cases congrArg Prod.fst hp
  | cons pc pcs ih =>
    cases h : nextPiece st.quote s with
    | none =>
      rw [pieces_of_none h] at hp
      cases congrArg Prod.fst hp
    | some r =>
      obtain ⟨pc', q', s'⟩ := r
      rw [pieces_of_some h] at hp
      obtain ⟨hpc, rfl⟩ := Prod.mk.inj hp
      obtain ⟨rfl, rfl⟩ := List.cons.inj hpc
      obtain ⟨hfit, hf⟩ := hf
      obtain ⟨hsplit, hwidth⟩ := nextPiece_split h
      obtain ⟨st₁, hst, rfl, L₁⟩ := wordStep_some L hs h hfit
      have hlen : ((G ++ s.take pc'.width).drop (pc'.text code).length).length =
          G.length + pc'.width - (pc'.text code).length := by
        rw [List.length_drop, List.length_append, hwidth]
      obtain ⟨st', G', hl, L', hr, hsum⟩ := ih L₁ (not_mem_of_nextPiece hs h) rfl (hlen ▸ hf)
      refine ⟨st', G', (Loop.exec_next (wordVariant code) hst).trans hl, ?_, hr, ?_⟩
      · simpa [wordOf, List.append_assoc] using L'
      · have hs' := congrArg List.length hsplit
        rw [List.length_append, hwidth] at hs'
        simp only [wordOf, List.flatMap_cons, List.length_append] at hsum ⊢
        rw [hlen] at hsum
        omega

/-- The states of the inner loop on a word that fits: the text of `N` bytes ends where it did. -/
def Sound (code : Fin 256) (T : List Char) (N : Nat) (st : WordSt) : Prop :=
  ∃ D G s, Layout st D G s T ∧ NUL ∉ s ∧ Fits code G.length (pieces st.quote s).1 ∧
    D.length + G.length + s.length = N

theorem Sound.step {N : Nat} (H : Sound code T N st) (h : wordStep code st = some (.inl st')) :
    Sound code T N st' := by
  obtain ⟨D, G, s, L, hs, hf, hN⟩ := H
  cases hp : nextPiece st.quote s with
  | none =>
    rw [wordStep_none L hs hp] at h
    cases h
  | some r =>
    obtain ⟨pc, q', s'⟩ := r
    rw [pieces_of_some hp] at hf
    obtain ⟨hfit, hf⟩ := hf
    obtain ⟨hsplit, hwidth⟩ := nextPiece_split hp
    obtain ⟨st₁, hst, rfl, L₁⟩ := wordStep_some L hs hp hfit
    obtain rfl : st₁ = st' := by simpa [hst] using h
    have hlen : ((G ++ s.take pc.width).drop (pc.text code).length).length =
        G.length + pc.width - (pc.text code).length := by
      rw [List.length_drop, List.length_append, hwidth]
    refine ⟨_, _, _, L₁, not_mem_of_nextPiece hs hp, hlen ▸ hf, ?_⟩
    have hs' := congrArg List.length hsplit
    rw [List.length_append, hwidth] at hs'
    rw [hlen, List.length_append]
    omega

/-- The two cursors, and the bytes behind the terminator. -/
theorem Sound.cursors {N : Nat} (H : Sound code T N st) :
    st.out ≤ st.p ∧ st.p ≤ N ∧ st.buf.drop (N + 1) = T := by
  obtain ⟨D, G, s, L, -, -, rfl⟩ := H
  refine ⟨L.out_le, ?_, L.drop_end⟩
  rw [L.p]
  exact Nat.le_add_right _ _

/-- The write cursor is one ahead, and a digit is read: that digit is written over the next byte. -/
structure Runaway (st : WordSt) : Prop where
  quote : st.quote = 0
  out : st.out = st.p + 1
  digit : ∃ c, st.buf[st.p]? = some c ∧ c.isDigit

theorem Runaway.step (H : Runaway st) :
    wordStep code st = none ∨ ∃ st', wordStep code st = some (.inl st') ∧ Runaway st' := by
  obtain ⟨hq, hout, c, hc, hdig⟩ := H
  obtain ⟨h0, h1, h2, h3, h4⟩ := digit_plain hdig
  have hstep : wordStep code st = copyChar st c := by
    rw [wordStep, hc]
    simp [h0, h1, h2, h3, h4]
  rw [hstep, copyChar, store]
  split
  · rename_i hlt
    refine .inr ⟨_, rfl, hq, congrArg (· + 1) hout, c, ?_, hdig⟩
    simp only [← hout]
    exact List.getElem?_set_self hlt
  · exact .inl rfl

theorem Runaway.wordLoop (H : Runaway st) : wordLoop code st = none :=
  Loop.exec_eq_none (fun _ => Runaway.step) H

/-- The first piece that does not fit is a status of three digits right at the read cursor. -/
theorem runaway_of_overtake (L : Layout st D G s T) (hs : NUL ∉ s)
    (h : nextPiece st.quote s = some (pc, q', s'))
    (hfit : ¬ (pc.text code).length ≤ G.length + pc.width) :
    ∃ st', wordStep code st = some (.inl st') ∧ Runaway st' := by
  obtain ⟨hsplit, hwidth⟩ := nextPiece_split h
  obtain ⟨hlen, hdig⟩ := statusText_spec code
  obtain ⟨rfl, hG, h3⟩ : pc = .status ∧ G = [] ∧ (statusText code).length = 3 := by
    cases pc with
    | quote => exact absurd (Nat.zero_le _) hfit
    | char c => exact absurd (Nat.le_add_left _ _) hfit
    | status =>
      simp only [Piece.text, Piece.width] at hfit
      refine ⟨rfl, List.length_eq_zero_iff.mp ?_, ?_⟩ <;> split_ifs at hlen <;> omega
  have hq : q' = 0 := by
    cases s with
    | nil => cases h
    | cons c s =>
      rw [nextPiece] at h
      split_ifs at h with h1 h2 h3 h4
      · cases h
      · cases h
      · obtain ⟨-, rfl, -⟩ : True ∧ st.quote = q' ∧ s.tail = s' := by simpa using h
        exact h4.1
      · cases h
  obtain ⟨a, b, c, habc⟩ := List.length_eq_three.mp h3
  -- the three digits go over `$?` and the byte behind it
  have hp : st.p = D.length := by rw [L.p, hG]; rfl
  obtain ⟨x, y, hxy⟩ : ∃ x y, s.take 2 = [x, y] := List.length_eq_two.mp hwidth
  have hbuf : st.buf = D ++ ((x :: y :: [(s' ++ NUL :: T).headD NUL]) ++ (s' ++ NUL :: T).tail) := by
    rw [L.buf, hG]
    conv_lhs => rw [hsplit, Piece.width, hxy]
    cases s' <;> simp
  have happ := appendStr_spec (D := D) (E := [x, y, (s' ++ NUL :: T).headD NUL])
    (R := (s' ++ NUL :: T).tail) h3.le
  rw [← hbuf, ← L.out] at happ
  refine ⟨_, by rw [wordStep_eq L.at_p hs, h]; simp only [Piece.text, happ]; rfl, hq, ?_, c, ?_, ?_⟩
  · simp only [h3, L.out, hp, Piece.width]
  · simp [habc, hp, Piece.width]
  · exact hdig c (by rw [habc]; simp)

/-- A word that does not fit takes the loop out of the line. -/
theorem wordLoop_eq_none (L : Layout st D G s T) (hs : NUL ∉ s)
    (hf : ¬ Fits code G.length (pieces st.quote s).1) : wordLoop code st = none := by
  induction hn : s.length using Nat.strongRecOn generalizing st D G s with
  | _ n ih =>
    cases hp : nextPiece st.quote s with
    | none =>
      rw [pieces_of_none hp] at hf
      exact absurd trivial hf
    | some r =>
      obtain ⟨pc, q', s'⟩ := r
      rw [pieces_of_some hp, Fits, not_and] at hf
      by_cases hfit : (pc.text code).length ≤ G.length + pc.width
      · obtain ⟨st₁, hst, rfl, L₁⟩ := wordStep_some L hs hp hfit
        have hlen : ((G ++ s.take pc.width).drop (pc.text code).length).length =
            G.length + pc.width - (pc.text code).length := by
          rw [List.length_drop, List.length_append, (nextPiece_split hp).2]
        rw [wordLoop, Loop.exec_next (wordVariant code) hst]
        exact ih _ (hn ▸ nextPiece_length hp) L₁ (not_mem_of_nextPiece hs hp)
          (hlen ▸ hf hfit) rfl
      · obtain ⟨st₁, hst, hrun⟩ := runaway_of_overtake L hs hp hfit
        rw [wordLoop, Loop.exec_next (wordVariant code) hst]
        exact hrun.wordLoop

end Tokenize
end BojanOS
