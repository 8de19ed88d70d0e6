import BojanOS.Shell.InPlace

/-!
# What `tokenize` does to a line

The outer loop against the loop of `parse`. Between two rounds the unread part of the line is the
rest of the text, and the strings that the pointers collected so far see end before it (`Sim`).
-/

namespace BojanOS

namespace Tokenize

variable {code : Fin 256} {st st' : St} {pst pst' : Parse.St} {T : List Char} {N : Nat}

/-! ## The variant -/

theorem skipBlanks_le (buf : Buf) (p : Nat) : p ≤ skipBlanks buf p := Nat.le_add_right _ _

/-- The loop over the blanks stops at something else. -/
theorem not_isBlank_of_skipBlanks {buf : Buf} {p : Nat} {c : Char}
    (h : buf[skipBlanks buf p]? = some c) : isBlank c = false := by
  have hc : ((buf.drop p).dropWhile isBlank).head? = some c := by
    rw [skipBlanks, ← List.getElem?_drop] at h
    generalize buf.drop p = r at h ⊢
    have hsplit := List.takeWhile_append_dropWhile (p := isBlank) (l := r)
    have hright : (r.takeWhile isBlank ++ r.dropWhile isBlank)[(r.takeWhile isBlank).length]? =
        (r.dropWhile isBlank)[0]? := by
      rw [List.getElem?_append_right (Nat.le_refl _), Nat.sub_self]
    rw [List.head?_eq_getElem?, ← hright, hsplit]
    exact h
  cases hd : (buf.drop p).dropWhile isBlank with
  | nil => rw [hd] at hc; cases hc
  | cons x s =>
    rw [hd] at hc
    obtain rfl : x = c := Option.some.inj hc
    have hne : (buf.drop p).dropWhile isBlank ≠ [] := by rw [hd]; simp
    have := List.head_dropWhile_not isBlank (l := buf.drop p) hne
    simpa [hd] using this

/-- What `head` finds is there. -/
theorem head_spec {hd : Head} {p : Nat} (h : head st = some (hd, p)) :
    st.p ≤ p ∧ ∃ c, st.buf[p]? = some c ∧
      (hd = .word → c ≠ NUL ∧ isDelim c = false) := by
  rw [head] at h
  cases hc : st.buf[st.p]? with
  | none => rw [hc] at h; cases h
  | some c =>
    rw [hc] at h
    simp only at h
    split at h
    · obtain ⟨rfl, rfl⟩ := Prod.mk.inj (Option.some.inj h)
      exact ⟨Nat.le_refl _, c, hc, fun h => by cases h⟩
    refine ⟨?_, ?_⟩
    · cases hd' : st.buf[skipBlanks st.buf st.p]? with
      | none => rw [hd'] at h; cases h
      | some d =>
        rw [hd'] at h
        simp only at h
        split_ifs at h <;> obtain ⟨-, rfl⟩ := Prod.mk.inj (Option.some.inj h) <;>
          exact skipBlanks_le _ _
    · cases hd' : st.buf[skipBlanks st.buf st.p]? with
      | none => rw [hd'] at h; cases h
      | some d =>
        have hblank := not_isBlank_of_skipBlanks hd'
        rw [hd'] at h
        simp only at h
        split_ifs at h with h1 h2 h3
        · obtain ⟨rfl, rfl⟩ := Prod.mk.inj (Option.some.inj h)
          exact ⟨d, hd', fun h => by cases h⟩
        · obtain ⟨rfl, rfl⟩ := Prod.mk.inj (Option.some.inj h)
          exact ⟨d, hd', fun h => by cases h⟩
        · obtain ⟨rfl, rfl⟩ := Prod.mk.inj (Option.some.inj h)
          exact ⟨d, hd', fun h => by cases h⟩
        · obtain ⟨rfl, rfl⟩ := Prod.mk.inj (Option.some.inj h)
          refine ⟨d, hd', fun _ => ⟨h1, ?_⟩⟩
          simp [isDelim, hblank, h2, h3]

/-- The inner loop goes at least one round on a word, and keeps the size of the array. -/
theorem wordLoop_lt {p : Nat} {c : Char} {w : WordSt} (hc : st.buf[p]? = some c) (h0 : c ≠ NUL)
    (hdel : isDelim c = false) (h : wordLoop code (wordStart { st with p }) = some w) :
    p < w.p ∧ w.buf.length = st.buf.length := by
  obtain ⟨t, ht, hdone⟩ := Loop.exec_sound h
  obtain ⟨rfl, d, hd, hend⟩ := wordStep_done hdone
  rcases Relation.ReflTransGen.cases_head ht with rfl | ⟨w₁, h₁, hrest⟩
  · obtain rfl : c = d := Option.some.inj (hc.symm.trans hd)
    rcases hend with hend | hend
    · exact absurd hend h0
    · rw [hdel] at hend
      cases hend
  · have hstep := wordStep_monotone h₁
    have hmono : w₁.p ≤ w.p ∧ w.buf.length = w₁.buf.length := by
      refine Loop.Reaches.inv (I := fun w => w₁.p ≤ w.p ∧ w.buf.length = w₁.buf.length) ?_
        ⟨Nat.le_refl _, rfl⟩ hrest
      rintro a b ⟨ha, hlen⟩ hab
      obtain ⟨-, hlt, hlen'⟩ := wordStep_monotone hab
      exact ⟨ha.trans hlt.le, hlen'.trans hlen⟩
    exact ⟨Nat.lt_of_lt_of_le hstep.2.1 hmono.1, hmono.2.trans hstep.2.2⟩

theorem redirStep_lt {isOut : Bool} (h : redirStep st isOut = some (.inl st')) :
    st.p < st'.p ∧ st'.buf = st.buf := by
  rw [redirStep] at h
  cases hd : st.buf[st.p + 1]? with
  | none => rw [hd] at h; cases h
  | some d =>
    rw [hd] at h
    simp only at h
    split at h
    · cases h
    · obtain rfl := Sum.inl.inj (Option.some.inj h)
      refine ⟨?_, rfl⟩
      simp only [skipBlanks]
      split_ifs <;> omega

theorem itemStep_lt {p : Nat} {c : Char} (hc : st.buf[p]? = some c) (h0 : c ≠ NUL)
    (hdel : isDelim c = false) (h : itemStep code { st with p } = some (.inl st')) :
    p < st'.p ∧ st'.buf.length = st.buf.length := by
  rw [itemStep] at h
  cases hw : wordLoop code (wordStart { st with p }) with
  | none => rw [hw] at h; cases h
  | some w =>
    obtain ⟨hlt, hlen⟩ := wordLoop_lt hc h0 hdel hw
    rw [hw] at h
    simp only at h
    cases hb : w.buf[w.p]? with
    | none => rw [hb] at h; cases h
    | some delim =>
      rw [hb] at h
      simp only at h
      split at h
      · cases h
      · rename_i buf hbuf
        obtain rfl := Sum.inl.inj (Option.some.inj h)
        have := store_length hbuf
        refine ⟨?_, ?_⟩
        · simp only
          split_ifs <;> omega
        · rw [this]
          split_ifs <;> simp [hlen]

theorem tokVariant (code : Fin 256) : Loop.Variant (tokStep code) tokMeasure := by
  intro st st' h
  rw [tokStep] at h
  rcases hh : head st with _ | ⟨hd, p⟩
  · rw [hh] at h
    cases h
  obtain ⟨hle, c, hc, hword⟩ := head_spec hh
  have hp : p < st.buf.length := (List.getElem?_eq_some_iff.mp hc).1
  rw [hh] at h
  cases hd with
  | stop => cases h
  | redir isOut =>
    obtain ⟨hlt, hbuf⟩ := redirStep_lt h
    simp only [tokMeasure, hbuf] at hlt ⊢
    omega
  | word =>
    obtain ⟨h0, hdel⟩ := hword rfl
    obtain ⟨hlt, hlen⟩ := itemStep_lt hc h0 hdel h
    simp only [tokMeasure, hlen]
    omega

/-! ## The unread part of the line -/

theorem takeWhile_agree {f g : Char → Bool} {r : List Char} (h : ∀ c ∈ r, f c = g c) :
    r.takeWhile f = r.takeWhile g := by
  induction r with
  | nil => rfl
  | cons c r ih =>
    rw [List.takeWhile_cons, List.takeWhile_cons, h c List.mem_cons_self,
      ih fun d hd => h d (List.mem_cons_of_mem _ hd)]

/-- At `p` begins the rest `r` of a line of `N` bytes. -/
structure Unread (T : List Char) (N : Nat) (buf : Buf) (p : Nat) (r : List Char) : Prop where
  text : At buf p r T
  nul : NUL ∉ r
  len : p + r.length = N

namespace Unread

variable {buf : Buf} {p k : Nat} {r : List Char} {c : Char}

theorem drop (U : Unread T N buf p r) (hk : k ≤ r.length) :
    Unread T N buf (p + k) (r.drop k) where
  text := U.text.advance hk
  nul hm := U.nul (List.drop_subset _ _ hm)
  len := by
    have := U.len
    rw [List.length_drop]
    omega

theorem tail (U : Unread T N buf p (c :: r)) : Unread T N buf (p + 1) r :=
  U.drop (k := 1) (by simp)

theorem ne_nul (U : Unread T N buf p (c :: r)) : c ≠ NUL :=
  fun he => U.nul (he ▸ List.mem_cons_self)

theorem skipBlanks (U : Unread T N buf p r) :
    Unread T N buf (BojanOS.skipBlanks buf p) (r.dropWhile isBlank) where
  text := U.text.skipBlanks
  nul hm := U.nul ((List.dropWhile_suffix isBlank).subset hm)
  len := by
    have hlen := congrArg List.length (List.takeWhile_append_dropWhile (p := isBlank) (l := r))
    have := U.len
    rw [List.length_append] at hlen
    rw [BojanOS.skipBlanks, U.text.takeWhile (by decide)]
    omega

/-- The scan over a file name. -/
theorem name (U : Unread T N buf p r) :
    (buf.drop p).takeWhile (fun c => c ≠ NUL ∧ ¬ isDelim c) = r.takeWhile fun c => ¬ isDelim c := by
  rw [U.text.takeWhile (by decide)]
  refine takeWhile_agree fun c hc => ?_
  have hc' : c ≠ NUL := fun he => U.nul (he ▸ hc)
  simp [hc']

/-- The byte behind a `>`. -/
theorem append_sign (U : Unread T N buf (p + 1) r) (isOut : Bool) :
    Unread T N buf (p + if isAppend isOut (r.headD NUL) then 2 else 1)
      (if isAppend isOut (r.headD NUL) then r.tail else r) := by
  cases r with
  | nil =>
    have : isAppend isOut NUL = false := by cases isOut <;> rfl
    rw [List.headD_nil, this]
    exact U
  | cons d r =>
    split
    · exact U.tail
    · exact U

/-- The delimiter behind a name or a word is taken as well. -/
theorem delim (U : Unread T N buf p r) :
    Unread T N buf (if r.headD NUL ≠ NUL then p + 1 else p) r.tail := by
  cases r with
  | nil => exact U
  | cons d r =>
    rw [List.headD_cons, if_pos U.ne_nul]
    exact U.tail

theorem take_length (U : Unread T N buf p r) : (buf.take p).length = p := by
  have := U.text.lt
  rw [List.length_take]
  omega

/-- A terminator is written over a byte of the text. -/
theorem set_nul {a : List Char} (U : Unread T N buf p (a ++ c :: r)) :
    buf.set (p + a.length) NUL = buf.take p ++ (a ++ NUL :: (r ++ NUL :: T)) := by
  have hbuf : buf = (buf.take p ++ a) ++ (c :: (r ++ NUL :: T)) := by
    conv_lhs => rw [U.text.split]
    simp
  have hp : p + a.length = (buf.take p ++ a).length := by
    rw [List.length_append, U.take_length]
  conv_lhs => rw [hbuf, hp]
  rw [List.set_append_right _ _ (Nat.le_refl _), Nat.sub_self, List.set_cons_zero,
    List.append_assoc]

end Unread

/-! ## The simulation -/

/-- The states of the two loops, on a text of `N` bytes with `T` behind its terminator. -/
structure Sim (T : List Char) (N : Nat) (st : St) (pst : Parse.St) : Prop where
  unread : Unread T N st.buf st.p pst.rest
  cl : st.cl.map (Item.text st.buf) = pst.cl
  ram : st.ram = pst.ram
  behind : pst.rest ≠ [] →
    ∀ start, .line start ∈ st.cl.items → start + (cstr st.buf start).length < st.p

/-- A string that ends before `p` is not changed by what is written from `p` on. -/
theorem cstr_congr {buf buf' : Buf} {start p : Nat} (h : buf'.take p = buf.take p)
    (hp : p ≤ buf.length) (hlt : start + (cstr buf start).length < p) :
    cstr buf' start = cstr buf start := by
  have hsplit : ∀ b : Buf, b.drop start = (b.take p).drop start ++ b.drop p := by
    intro b
    rcases Nat.le_total p b.length with hb | hb
    · conv_lhs => rw [← List.take_append_drop p b]
      rw [List.drop_append_of_le_length]
      rw [List.length_take]
      omega
    · rw [List.take_of_length_le hb, List.drop_of_length_le hb, List.append_nil]
  have hfull : (((buf.take p).drop start).takeWhile (· ≠ NUL)).length ≠
      ((buf.take p).drop start).length := by
    intro hlen
    have hlong : ((buf.take p).drop start).length ≤ (cstr buf start).length := by
      rw [cstr, hsplit buf, List.takeWhile_append, if_pos hlen, List.length_append]
      exact Nat.le_add_right _ _
    rw [List.length_drop, List.length_take] at hlong
    omega
  rw [cstr, cstr, hsplit buf, hsplit buf', h, List.takeWhile_append, List.takeWhile_append,
    if_neg hfull, if_neg hfull]

namespace Sim

theorem items_length (H : Sim T N st pst) : st.cl.items.length = pst.cl.items.length := by
  rw [← H.cl, Cmdline.map, List.length_map]

theorem head (H : Sim T N st pst) : ∃ p, Tokenize.head st = some ((Parse.head pst).1, p) ∧
    st.p ≤ p ∧ Unread T N st.buf p (Parse.head pst).2 := by
  rw [Tokenize.head, Parse.head, ← H.items_length]
  have U := H.unread
  cases hr : pst.rest with
  | nil =>
    rw [hr] at U
    rw [U.text.get_nil]
    simp only [true_or, if_true]
    exact ⟨_, rfl, Nat.le_refl _, U⟩
  | cons c s =>
    rw [hr] at U
    rw [U.text.get_cons]
    simp only [U.ne_nul, false_or, reduceCtorEq]
    split
    · exact ⟨_, rfl, Nat.le_refl _, U⟩
    have U' := U.skipBlanks
    cases hd : (c :: s).dropWhile isBlank with
    | nil =>
      rw [hd] at U'
      rw [U'.text.get_nil]
      exact ⟨_, rfl, skipBlanks_le _ _, U'⟩
    | cons d t =>
      rw [hd] at U'
      rw [U'.text.get_cons]
      simp only [U'.ne_nul, if_false]
      split_ifs <;> exact ⟨_, rfl, skipBlanks_le _ _, U'⟩

/-- The head of the loop keeps the relation. -/
theorem advance (H : Sim T N st pst) {p : Nat} {r : List Char} (hle : st.p ≤ p)
    (U : Unread T N st.buf p r) (hr : r ≠ [] → pst.rest ≠ []) :
    Sim T N { st with p } { pst with rest := r } where
  unread := U
  cl := H.cl
  ram := H.ram
  behind := fun hne start hs => Nat.lt_of_lt_of_le (H.behind (hr hne) start hs) hle

theorem redir (H : Sim T N st pst) (hne : pst.rest ≠ []) (isOut : Bool) :
    ∃ st', redirStep st isOut = some (.inl st') ∧ Sim T N st' (Parse.redir pst isOut) := by
  obtain ⟨c, s, hr⟩ := List.exists_cons_of_ne_nil hne
  have U := H.unread
  rw [hr] at U
  have htail : pst.rest.tail = s := by rw [hr, List.tail_cons]
  have U₁ := U.tail.append_sign isOut
  rw [redirStep, Parse.redir, htail, U.tail.text.get]
  dsimp only
  have hp₁ : st.p ≤ st.p + if isAppend isOut (s.headD NUL) then 2 else 1 := Nat.le_add_right _ _
  generalize st.p + (if isAppend isOut (s.headD NUL) then 2 else 1) = p₁ at U₁ hp₁
  generalize (if isAppend isOut (s.headD NUL) then s.tail else s) = s₁ at U₁
  generalize isAppend isOut (s.headD NUL) = app
  -- the file name
  have U₂ := U₁.skipBlanks
  have hp₂ := hp₁.trans (skipBlanks_le st.buf p₁)
  rw [U₂.name]
  generalize skipBlanks st.buf p₁ = p₂ at U₂ hp₂
  generalize s₁.dropWhile isBlank = s₂ at U₂
  have U₃ := U₂.drop (List.takeWhile_prefix fun c => decide ¬ isDelim c = true).length_le
  generalize s₂.takeWhile (fun c => ¬ isDelim c) = name at U₃
  rw [U₃.text.get]
  refine ⟨_, rfl, U₃.delim, ?_, H.ram, ?_⟩
  · rw [← H.cl]
    cases isOut <;> rfl
  · intro _ start hs
    have hitems : Item.line start ∈ st.cl.items := by cases isOut <;> exact hs
    have := H.behind hne start hitems
    simp only
    split <;> omega

/-- The two stores at the end of a word. -/
theorem close_word {w : WordSt} {D G r : List Char} (L : Layout w D G r T) (hr : NUL ∉ r)
    (hN : D.length + G.length + r.length = N) : ∃ R,
    store (if r.headD NUL ≠ NUL then w.buf.set w.p NUL else w.buf) w.out NUL =
      some (D ++ NUL :: R) ∧
    Unread T N (D ++ NUL :: R) (if r.headD NUL ≠ NUL then w.p + 1 else w.p) r.tail := by
  have hstore : ∀ R, store (D ++ ((G ++ [NUL]) ++ R)) w.out NUL =
      some (D ++ NUL :: ((G ++ [NUL]).tail ++ R)) := by
    intro R
    rw [L.out, store_front (by simp), List.append_assoc]
    rfl
  cases r with
  | nil =>
    have hbuf : w.buf = D ++ ((G ++ [NUL]) ++ T) := by simpa using L.buf
    obtain ⟨A, hA, hAT⟩ : ∃ A, A.length = D.length + G.length ∧
        D ++ NUL :: ((G ++ [NUL]).tail ++ T) = A ++ ([] ++ NUL :: T) := by
      cases G with
      | nil => exact ⟨D, rfl, rfl⟩
      | cons x G => exact ⟨D ++ NUL :: G, by simp, by simp⟩
    refine ⟨_, (congrArg (store · w.out NUL) hbuf).trans (hstore T), ?_, by simp, ?_⟩
    · rw [hAT]
      simp only [List.headD_nil, ne_eq, not_true_eq_false, if_false, L.p, ← hA]
      exact At.of_append
    · simp only [List.headD_nil, ne_eq, not_true_eq_false, if_false, L.p]
      exact hN
  | cons d r =>
    have hd : d ≠ NUL := fun he => hr (he ▸ List.mem_cons_self)
    have hset : w.buf.set w.p NUL = D ++ ((G ++ [NUL]) ++ (r ++ NUL :: T)) := by
      rw [L.buf, L.p, ← List.append_assoc, ← List.length_append, List.cons_append,
        List.set_append_right _ _ (Nat.le_refl _), Nat.sub_self, List.set_cons_zero]
      simp
    simp only [List.headD_cons, hd, ne_eq, not_false_eq_true, if_true, List.tail_cons]
    refine ⟨_, (congrArg (store · w.out NUL) hset).trans (hstore _), ?_, ?_, ?_⟩
    · have hA : (D ++ NUL :: (G ++ [NUL]).tail).length = w.p + 1 := by
        rw [L.p]
        simp
        omega
      rw [← hA, ← List.cons_append, ← List.append_assoc]
      exact At.of_append
    · exact fun hm => hr (List.mem_cons_of_mem _ hm)
    · rw [List.length_cons] at hN
      rw [L.p]
      omega

theorem nextPiece_char {q q' : Nat} {s s' : List Char} {c : Char}
    (h : nextPiece q s = some (.char c, q', s')) : c ∈ s := by
  cases s with
  | nil => cases h
  | cons d s =>
    rw [nextPiece] at h
    split_ifs at h
    · cases h
    · cases h
    · cases h
    · obtain ⟨rfl, -, -⟩ : d = c ∧ q = q' ∧ s = s' := by simpa using h
      exact List.mem_cons_self

theorem not_mem_wordOf (code : Fin 256) {q : Nat} {s : List Char} (hs : NUL ∉ s) :
    NUL ∉ wordOf code (pieces q s).1 := by
  induction hn : s.length using Nat.strongRecOn generalizing q s with
  | _ n ih =>
    cases hp : nextPiece q s with
    | none =>
      rw [pieces_of_none hp]
      simp [wordOf]
    | some r =>
      obtain ⟨pc, q', s'⟩ := r
      rw [pieces_of_some hp, wordOf, List.flatMap_cons, List.mem_append, not_or]
      refine ⟨?_, ih _ (hn ▸ nextPiece_length hp) (not_mem_of_nextPiece hs hp) rfl⟩
      cases pc with
      | quote => exact List.not_mem_nil
      | status => exact fun hm => (digit_plain ((statusText_spec code).2 _ hm)).1 rfl
      | char c =>
        have hc : c ∈ s := nextPiece_char hp
        exact fun hm => hs ((List.mem_singleton.mp hm) ▸ hc)

theorem text_kept (H : Sim T N st pst) (hne : pst.rest ≠ []) {buf : Buf}
    (h : buf.take st.p = st.buf.take st.p) {i : Item} (hi : i ∈ st.cl.items) :
    i.text buf = i.text st.buf := by
  cases i with
  | heap text => rfl
  | line start =>
    have hp : st.p ≤ st.buf.length := by
      have := H.unread.text.lt
      omega
    exact cstr_congr h hp (H.behind hne start hi)

theorem item (H : Sim T N st pst) (hne : pst.rest ≠ []) (hf : Fits code 0 (pieces 0 pst.rest).1) :
    ∃ st', itemStep code st = some (.inl st') ∧ Sim T N st' (Parse.item code pst) := by
  have U := H.unread
  have htake : (st.buf.take st.p).length = st.p := U.take_length
  have L : Layout (wordStart st) (st.buf.take st.p) [] pst.rest T :=
    ⟨U.text.split, htake.symm, htake.symm⟩
  rcases hp : pieces 0 pst.rest with ⟨pcs, rest⟩
  rw [hp] at hf
  obtain ⟨w, G, hw, Lw, hr, hsum⟩ := wordLoop_fits L U.nul hp hf
  have hN : (st.buf.take st.p ++ wordOf code pcs).length + G.length + rest.length = N := by
    rw [hsum, htake]
    exact U.len
  obtain ⟨R, hstore, U'⟩ := close_word Lw hr hN
  have hat : At (st.buf.take st.p ++ wordOf code pcs ++ NUL :: R) st.p (wordOf code pcs) R := by
    have := At.of_append (A := st.buf.take st.p) (r := wordOf code pcs) (T := R)
    rwa [htake, ← List.append_assoc] at this
  have hfront : (st.buf.take st.p ++ wordOf code pcs ++ NUL :: R).take st.p =
      st.buf.take st.p := by
    rw [List.append_assoc, List.take_append_of_le_length htake.ge, List.take_take, Nat.min_self]
  have htok : NUL ∉ wordOf code pcs := by
    have := not_mem_wordOf code (q := 0) U.nul
    rwa [hp] at this
  rw [itemStep, hw]
  simp only
  rw [Lw.at_p.get]
  simp only
  rw [hstore, Parse.item, hp]
  simp only
  rw [hat.cstr htok, H.ram]
  generalize st.buf.take st.p ++ wordOf code pcs ++ NUL :: R = buf at hat hfront U'
  have hbehind : rest.tail ≠ [] → ∀ start, start + (cstr buf start).length ≤ w.p →
      start + (cstr buf start).length < if rest.headD NUL ≠ NUL then w.p + 1 else w.p := by
    intro hrest start hle
    cases rest with
    | nil => exact absurd rfl hrest
    | cons d s =>
      have hd : d ≠ NUL := fun he => hr (he ▸ List.mem_cons_self)
      rw [List.headD_cons, if_pos hd]
      exact Nat.lt_succ_of_le hle
  have hwp : st.p + (wordOf code pcs).length ≤ w.p := by
    rw [Lw.p, List.length_append, htake]
    exact Nat.le_add_right _ _
  have hkept : st.cl.items.map (Item.text buf) = pst.cl.items := by
    rw [← H.cl]
    exact List.map_congr_left fun i hi => H.text_kept hne hfront hi
  have hcl : ∀ i : Item, (st.cl.push i).map (Item.text buf) = pst.cl.push (i.text buf) := by
    intro i
    rw [← H.cl] at hkept ⊢
    simp only [Cmdline.map, Cmdline.push, List.map_append, List.map_singleton] at hkept ⊢
    rw [hkept]
  have hold : ∀ start, .line start ∈ st.cl.items → start + (cstr buf start).length ≤ w.p := by
    intro start hs
    have hlt := H.behind hne start hs
    have hsame : cstr buf start = cstr st.buf start := H.text_kept hne hfront hs
    rw [hsame]
    omega
  rcases expandTilde (wordOf code pcs) pst.ram with ⟨copy, ram⟩
  cases copy with
  | none =>
    refine ⟨_, rfl, U', (hcl _).trans ?_, rfl, fun hrest start hs => hbehind hrest start ?_⟩
    · exact congrArg pst.cl.push (hat.cstr htok)
    · rcases List.mem_append.mp hs with hs | hs
      · exact hold start hs
      · obtain rfl : start = st.p := by simpa using hs
        rw [hat.cstr htok]
        exact hwp
  | some text =>
    refine ⟨_, rfl, U', hcl _, rfl, fun hrest start hs => hbehind hrest start ?_⟩
    rcases List.mem_append.mp hs with hs | hs
    · exact hold start hs
    · simp at hs

theorem item_overtake (H : Sim T N st pst) (hf : ¬ Fits code 0 (pieces 0 pst.rest).1) :
    itemStep code st = none := by
  have htake : (st.buf.take st.p).length = st.p := H.unread.take_length
  have L : Layout (wordStart st) (st.buf.take st.p) [] pst.rest T :=
    ⟨H.unread.text.split, htake.symm, htake.symm⟩
  rw [itemStep, wordLoop_eq_none L H.unread.nul hf]

/-- The relation holds of the states right before a word or a redirection is read. -/
theorem at_head (H : Sim T N st pst) {hd : Head} {rest : List Char}
    (hh : Parse.head pst = (hd, rest)) : ∃ p, Tokenize.head st = some (hd, p) ∧
      Sim T N { st with p } { pst with rest } ∧ (hd ≠ .stop → rest ≠ []) := by
  obtain ⟨p, hp, hle, U⟩ := H.head
  rw [hh] at hp U
  obtain ⟨hlen, hcons⟩ := Parse.head_rest hh
  refine ⟨p, hp, H.advance hle U fun hne hnil => hne ?_, fun hs hnil => ?_⟩
  · rw [hnil] at hlen
    exact List.length_eq_zero_iff.mp (Nat.le_zero.mp hlen)
  · obtain ⟨c, s, rfl, -⟩ := hcons hs
    cases hnil

theorem step_next (H : Sim T N st pst) (hf : Parse.WordFits code pst)
    (h : Parse.step code pst = some (.inl pst')) :
    ∃ st', tokStep code st = some (.inl st') ∧ Sim T N st' pst' := by
  rw [Parse.step] at h
  rcases hh : Parse.head pst with ⟨hd, rest⟩
  obtain ⟨p, hp, H', hne⟩ := H.at_head hh
  rw [hh] at h
  rw [tokStep, hp]
  cases hd with
  | stop => cases h
  | redir isOut =>
    obtain rfl := Sum.inl.inj (Option.some.inj h)
    exact H'.redir (hne (by simp)) isOut
  | word =>
    obtain rfl := Sum.inl.inj (Option.some.inj h)
    rw [Parse.WordFits, hh] at hf
    exact H'.item (hne (by simp)) (hf rfl)

theorem step_stop (H : Sim T N st pst) (h : Parse.step code pst = some (.inr pst')) :
    ∃ st', tokStep code st = some (.inr st') ∧ Sim T N st' pst' := by
  rw [Parse.step] at h
  rcases hh : Parse.head pst with ⟨hd, rest⟩
  obtain ⟨p, hp, H', -⟩ := H.at_head hh
  rw [hh] at h
  rw [tokStep, hp]
  cases hd with
  | stop =>
    obtain rfl := Sum.inr.inj (Option.some.inj h)
    exact ⟨_, rfl, H'⟩
  | redir isOut => cases h
  | word => cases h

theorem step_overtake (H : Sim T N st pst) (hf : ¬ Parse.WordFits code pst) :
    tokStep code st = none := by
  rw [Parse.WordFits, Classical.not_imp] at hf
  rcases hh : Parse.head pst with ⟨hd, rest⟩
  obtain ⟨p, hp, H', -⟩ := H.at_head hh
  rw [hh] at hf
  obtain ⟨rfl, hf⟩ := hf
  rw [tokStep, hp]
  exact H'.item_overtake hf

theorem start (T : List Char) (ram : Ram) {text : List Char} (h : NUL ∉ text) :
    Sim T text.length (Tokenize.start (text ++ NUL :: T) ram) (Parse.start text ram) where
  unread := ⟨rfl, h, Nat.zero_add _⟩
  cl := rfl
  ram := rfl
  behind := fun _ _ hs => absurd hs List.not_mem_nil

/-- The whole line. -/
theorem line (H : Sim T N st pst) : ∃ A, A.length = N ∧ st.buf = A ++ NUL :: T := by
  refine ⟨st.buf.take st.p ++ pst.rest, ?_, ?_⟩
  · have hlt := H.unread.text.lt
    have hlen := H.unread.len
    rw [List.length_append, List.length_take]
    omega
  · rw [List.append_assoc]
    exact H.unread.text.split

end Sim

/-- How two runs end. -/
def Agree (T : List Char) (N : Nat) (r : Option St) : Option Parse.St → Prop
  | none => r = none
  | some pst => ∃ st, r = some st ∧ Sim T N st pst

theorem Sim.exec (code : Fin 256) (H : Sim T N st pst) :
    Agree T N (Loop.exec (tokStep code) tokMeasure st)
      (Loop.exec (Loop.guarded (Parse.WordFits code) (Parse.step code)) Parse.measure pst) := by
  refine Loop.exec_sim (Q := Agree T N) (R := Sim T N) (tokVariant code)
    (Parse.variant code).guarded ?_ ?_ ?_ H
  · intro st pst H hg
    apply Loop.exec_fault
    rw [Loop.guarded] at hg
    split at hg
    · have := Parse.step_isSome code pst
      rw [hg] at this
      cases this
    · rename_i hf
      exact H.step_overtake hf
  · intro st pst pst' H hg
    rw [Loop.guarded] at hg
    split at hg
    · rename_i hf
      exact H.step_next hf hg
    · cases hg
  · intro st pst pst' H hg
    rw [Loop.guarded] at hg
    split at hg
    · obtain ⟨st', hst, H'⟩ := H.step_stop hg
      exact ⟨st', hst, st', rfl, H'⟩
    · cases hg

/-- The states that the loop reaches on a line whose words fit. -/
theorem Sim.reaches (H : Sim T N st pst)
    (hf : ∀ t, Loop.Reaches (Parse.step code) pst t → Parse.WordFits code t)
    (hr : Loop.Reaches (tokStep code) st st') :
    ∃ pst', Loop.Reaches (Parse.step code) pst pst' ∧ Sim T N st' pst' := by
  induction hr with
  | refl => exact ⟨pst, .refl, H⟩
  | @tail st₁ st₂ _ hs ih =>
    obtain ⟨pst₁, hp, H₁⟩ := ih
    obtain ⟨o, ho⟩ := Option.isSome_iff_exists.mp (Parse.step_isSome code pst₁)
    cases o with
    | inr pst' =>
      obtain ⟨st', hst, -⟩ := H₁.step_stop ho
      rw [hst] at hs
      cases hs
    | inl pst₂ =>
      obtain ⟨st', hst, H₂⟩ := H₁.step_next (hf _ hp) ho
      obtain rfl : st' = st₂ := by simpa [hst] using hs
      exact ⟨pst₂, hp.tail ho, H₂⟩

/-- The cursors of the inner loop, on a word that fits. -/
theorem Sim.cursors (H : Sim T N st pst) (hf : Parse.WordFits code pst) {p : Nat} {w : WordSt}
    (hh : Tokenize.head st = some (.word, p))
    (hr : Loop.Reaches (wordStep code) (wordStart { st with p }) w) :
    w.out ≤ w.p ∧ w.p ≤ N ∧ w.buf.drop (N + 1) = T := by
  obtain ⟨q, hq, -, U⟩ := H.head
  obtain ⟨hw, rfl⟩ := Prod.mk.inj (Option.some.inj (hq.symm.trans hh))
  have htake : (st.buf.take q).length = q := U.take_length
  have L : Layout (wordStart { st with p := q }) (st.buf.take q) [] (Parse.head pst).2 T :=
    ⟨U.text.split, htake.symm, htake.symm⟩
  have h0 : Sound code T N (wordStart { st with p := q }) :=
    ⟨_, _, _, L, U.nul, hf hw, by rw [htake]; exact U.len⟩
  exact (hr.inv (fun _ _ => Sound.step) h0).cursors

end Tokenize

section
variable {code : Fin 256} {text T : List Char} {ram : Ram}

/-- `tokenize` leaves the array where a word does not fit. -/
theorem tokenize_eq_none (h : NUL ∉ text) (hp : parseInPlace code text ram = none) :
    tokenize code (text ++ NUL :: T) ram = none := by
  have H := (Tokenize.Sim.start T ram h).exec code
  rw [Option.map_eq_none_iff.mp hp] at H
  rw [tokenize, H]
  rfl

/-- Otherwise it has the words of the text, and writes nothing behind the terminator. -/
theorem tokenize_eq_some (h : NUL ∉ text) {pcl : Cmdline (List Char)} {ram' : Ram}
    (hp : parseInPlace code text ram = some (pcl, ram')) :
    ∃ A cl, A.length = text.length ∧
      tokenize code (text ++ NUL :: T) ram = some (A ++ NUL :: T, cl, ram') ∧
      cl.map (Item.text (A ++ NUL :: T)) = pcl := by
  have H := (Tokenize.Sim.start T ram h).exec code
  obtain ⟨pst, hpst, he⟩ := Option.map_eq_some_iff.mp hp
  obtain ⟨rfl, rfl⟩ := Prod.mk.inj he
  rw [hpst] at H
  obtain ⟨st, hst, H⟩ := H
  obtain ⟨A, hA, hbuf⟩ := H.line
  refine ⟨A, st.cl, hA, ?_, ?_⟩
  · rw [tokenize, hst, Option.map_some, hbuf, H.ram]
  · rw [← hbuf]
    exact H.cl

end

/-- What is asked of `tokenize` on the text of a line with `T` behind its terminator: in every state
that its loops reach the write cursor is not ahead of the read cursor, the read cursor is inside
the text and the bytes behind the terminator are as before, and it returns with the items of the
out-of-place tokenizer. -/
structure TokenizeOk (code : Fin 256) (text T : List Char) (ram : Ram) : Prop where
  line : ∀ st, Loop.Reaches (Tokenize.tokStep code) (Tokenize.start (text ++ NUL :: T) ram) st →
    st.p ≤ text.length ∧ st.buf.drop (text.length + 1) = T
  word : ∀ st p w, Loop.Reaches (Tokenize.tokStep code) (Tokenize.start (text ++ NUL :: T) ram) st →
    Tokenize.head st = some (.word, p) →
    Loop.Reaches (Tokenize.wordStep code) (Tokenize.wordStart { st with p }) w →
    w.out ≤ w.p ∧ w.p ≤ text.length ∧ w.buf.drop (text.length + 1) = T
  returns : ∃ A cl ram', A.length = text.length ∧
    tokenize code (text ++ NUL :: T) ram = some (A ++ NUL :: T, cl, ram') ∧
    parse code text ram = some (cl.map (Item.text (A ++ NUL :: T)), ram')

/-- `tokenize` works exactly on the lines whose words fit: those with a status of at most two
digits, and those in which quote characters make room for every expansion. -/
theorem tokenizeOk_iff {code : Fin 256} {text T : List Char} {ram : Ram} (h : NUL ∉ text) :
    TokenizeOk code text T ram ↔
      code.val < 100 ∨ ∀ pcs, IsWord code text ram pcs → QuotesCover pcs := by
  rw [← fitsLine_iff]
  constructor
  · intro H
    obtain ⟨A, cl, ram', -, ht, -⟩ := H.returns
    cases hp : parseInPlace code text ram with
    | none =>
      rw [tokenize_eq_none h hp] at ht
      cases ht
    | some r => exact (parseInPlace_eq_some.mp hp).2
  · intro hf
    have H := Tokenize.Sim.start T ram h
    refine ⟨fun st hr => ?_, fun st p w hr hh hw => ?_, ?_⟩
    · obtain ⟨pst, -, H'⟩ := H.reaches hf hr
      obtain ⟨A, hA, hbuf⟩ := H'.line
      have hlen := H'.unread.len
      refine ⟨by omega, ?_⟩
      rw [hbuf, ← hA, ← List.drop_drop, List.drop_left]
      rfl
    · obtain ⟨pst, hp, H'⟩ := H.reaches hf hr
      exact H'.cursors (hf _ hp) hh hw
    · obtain ⟨⟨pcl, ram'⟩, hp⟩ := Option.isSome_iff_exists.mp (parse_isSome code text ram)
      obtain ⟨A, cl, hA, ht, hcl⟩ :=
        tokenize_eq_some (T := T) h (parseInPlace_eq_some.mpr ⟨hp, hf⟩)
      exact ⟨A, cl, ram', hA, ht, hcl ▸ hp⟩

/-- `echo $?` after a command that was not found, in front of other data. -/
theorem echoStatus_not_ok : ¬ TokenizeOk 127 "echo $?".toList "data".toList bootRam := by
  rintro ⟨-, -, A, cl, ram', -, h, -⟩
  have hnone : (tokenize 127 ("echo $?".toList ++ NUL :: "data".toList) bootRam).isNone := by
    decide +kernel
  rw [h] at hnone
  cases hnone

theorem echoStatus_ok : NUL ∉ "echo $?".toList ∧ (42 : Fin 256).val < 100 ∧
    TokenizeOk 42 "echo $?".toList "data".toList bootRam :=
  have hnul : NUL ∉ "echo $?".toList := by decide
  ⟨hnul, by decide, (tokenizeOk_iff hnul).mpr (.inl (by decide))⟩

end BojanOS
