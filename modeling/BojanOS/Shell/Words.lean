import BojanOS.Shell.Tokenize

/-!
# The words of a line, out of place

What `tokenize` is to compute, as a function of the text alone. A word is read as a list of
`Piece`s; the in-place loop can write what it reads as long as the text of the pieces so far is
not longer than the bytes they were read from (`Fits`).
-/

namespace BojanOS

/-- A piece of a word: a quote character, `$?`, or any other character. -/
inductive Piece where
  | quote
  | status
  | char (c : Char)
  deriving DecidableEq

namespace Piece

/-- What the piece stands for. -/
def text (code : Fin 256) : Piece → List Char
  | quote => []
  | status => statusText code
  | char c => [c]

/-- The number of bytes the piece was read from. -/
def width : Piece → Nat
  | quote => 1
  | status => 2
  | char _ => 1

end Piece

/-- The piece at the front of the text, the quoting after it and the rest; `none` at the end of the
word. -/
def nextPiece (q : Nat) : List Char → Option (Piece × Nat × List Char)
  | [] => none
  | c :: s =>
    if c = '\'' ∧ q ≠ 2 then some (.quote, Tokenize.toggle q 1, s)
    else if c = '"' ∧ q ≠ 1 then some (.quote, Tokenize.toggle q 2, s)
    else if q = 0 ∧ isDelim c then none
    else if q = 0 ∧ c = '$' ∧ s.head? = some '?' then some (.status, q, s.tail)
    else some (.char c, q, s)

/-- A piece takes the bytes of its width. -/
theorem nextPiece_split {q q' : Nat} {s s' : List Char} {pc : Piece}
    (h : nextPiece q s = some (pc, q', s')) :
    s = s.take pc.width ++ s' ∧ (s.take pc.width).length = pc.width := by
  cases s with
  | nil => cases h
  | cons c s =>
    rw [nextPiece] at h
    split_ifs at h with h1 h2 h3 h4
    · obtain ⟨rfl, -, rfl⟩ : Piece.quote = pc ∧ _ ∧ s = s' := by simpa using h
      exact ⟨rfl, rfl⟩
    · obtain ⟨rfl, -, rfl⟩ : Piece.quote = pc ∧ _ ∧ s = s' := by simpa using h
      exact ⟨rfl, rfl⟩
    · obtain ⟨rfl, -, rfl⟩ : Piece.status = pc ∧ _ ∧ s.tail = s' := by simpa using h
      cases s with
      | nil => simp at h4
      | cons d s => exact ⟨rfl, rfl⟩
    · obtain ⟨rfl, -, rfl⟩ : Piece.char c = pc ∧ _ ∧ s = s' := by simpa using h
      exact ⟨rfl, rfl⟩

/-- At most `k` pieces. -/
def piecesUpTo : Nat → Nat → List Char → List Piece × List Char
  | 0, _, s => ([], s)
  | k + 1, q, s =>
    match nextPiece q s with
    | none => ([], s)
    | some (pc, q, s) =>
      let r := piecesUpTo k q s
      (pc :: r.1, r.2)

/-- The pieces of the word at the front of the text, and what follows it. -/
def pieces (q : Nat) (s : List Char) : List Piece × List Char := piecesUpTo s.length q s

theorem nextPiece_length {q q' : Nat} {s s' : List Char} {pc : Piece}
    (h : nextPiece q s = some (pc, q', s')) : s'.length < s.length := by
  have hlen := congrArg List.length (nextPiece_split h).1
  rw [List.length_append, (nextPiece_split h).2] at hlen
  have hw : 1 ≤ pc.width := by cases pc <;> simp [Piece.width]
  omega

theorem piecesUpTo_eq {k j q : Nat} {s : List Char} (hk : s.length ≤ k) (hj : s.length ≤ j) :
    piecesUpTo k q s = piecesUpTo j q s := by
  induction k generalizing j q s with
  | zero =>
    obtain rfl := List.length_eq_zero_iff.mp (Nat.le_zero.mp hk)
    cases j <;> rfl
  | succ k ih =>
    cases j with
    | zero =>
      obtain rfl := List.length_eq_zero_iff.mp (Nat.le_zero.mp hj)
      rfl
    | succ j =>
      rw [piecesUpTo, piecesUpTo]
      cases h : nextPiece q s with
      | none => rfl
      | some r =>
        have := nextPiece_length h
        simp only
        rw [ih (j := j) (by omega) (by omega)]

theorem pieces_of_none {q : Nat} {s : List Char} (h : nextPiece q s = none) :
    pieces q s = ([], s) := by
  rw [pieces]
  cases s with
  | nil => rfl
  | cons c s => rw [List.length_cons, piecesUpTo, h]

theorem pieces_of_some {q q' : Nat} {s s' : List Char} {pc : Piece}
    (h : nextPiece q s = some (pc, q', s')) :
    pieces q s = (pc :: (pieces q' s').1, (pieces q' s').2) := by
  have hlt := nextPiece_length h
  rw [pieces, pieces]
  obtain ⟨k, hk⟩ : ∃ k, s.length = k + 1 := ⟨s.length - 1, by omega⟩
  rw [hk, piecesUpTo, h]
  simp only
  rw [piecesUpTo_eq (j := s'.length) (by omega) (Nat.le_refl _)]

/-- The text of a word. -/
def wordOf (code : Fin 256) (pcs : List Piece) : List Char := pcs.flatMap (Piece.text code)

/-- The write cursor, `g` bytes behind the read cursor, does not overtake it on the pieces. -/
def Fits (code : Fin 256) : Nat → List Piece → Prop
  | _, [] => True
  | g, pc :: pcs => (pc.text code).length ≤ g + pc.width ∧
      Fits code (g + pc.width - (pc.text code).length) pcs

instance decFits (code : Fin 256) : ∀ g pcs, Decidable (Fits code g pcs)
  | _, [] => isTrue trivial
  | g, pc :: pcs =>
    have := decFits code (g + pc.width - (pc.text code).length) pcs
    inferInstanceAs (Decidable (_ ∧ _))

/-! ## The digits of a status -/

theorem statusText_spec (code : Fin 256) :
    (statusText code).length = (if code.val < 10 then 1 else if code.val < 100 then 2 else 3) ∧
      ∀ c ∈ statusText code, c.isDigit := by
  have h : ∀ n, (hn : n < 256) → (statusText ⟨n, hn⟩).length =
        (if n < 10 then 1 else if n < 100 then 2 else 3) ∧
      (statusText ⟨n, hn⟩).all Char.isDigit = true := by decide +kernel
  exact ⟨(h code code.isLt).1, List.all_eq_true.mp (h code code.isLt).2⟩

theorem digit_plain {c : Char} (h : c.isDigit) :
    c ≠ NUL ∧ c ≠ '\'' ∧ c ≠ '"' ∧ isDelim c = false ∧ c ≠ '$' := by
  refine ⟨?_, ?_, ?_, ?_, ?_⟩
  · rintro rfl; exact absurd h (by decide)
  · rintro rfl; exact absurd h (by decide)
  · rintro rfl; exact absurd h (by decide)
  · cases hd : isDelim c with
    | false => rfl
    | true =>
      simp only [isDelim, isBlank, decide_eq_true_eq] at hd
      rcases hd with (rfl | rfl) | rfl | rfl <;> exact absurd h (by decide)
  · rintro rfl; exact absurd h (by decide)

/-- Every word fits when the status has at most two digits. -/
theorem fits_of_lt {code : Fin 256} (h : code.val < 100) (g : Nat) (pcs : List Piece) :
    Fits code g pcs := by
  induction pcs generalizing g with
  | nil => trivial
  | cons pc pcs ih =>
    refine ⟨?_, ih _⟩
    cases pc with
    | quote => exact Nat.zero_le _
    | status =>
      have := (statusText_spec code).1
      rw [Piece.text, this, Piece.width]
      split_ifs <;> omega
    | char c => exact Nat.le_add_left _ _

/-- Before each `$?` more quote characters were dropped than statuses were written. -/
def QuotesCover (pcs : List Piece) : Prop :=
  ∀ pre post, pcs = pre ++ .status :: post → pre.count .status < pre.count .quote

/-- With a status of three digits, the quote characters make the room. -/
theorem fits_iff {code : Fin 256} (h : ¬ code.val < 100) {g : Nat} {pcs : List Piece} :
    Fits code g pcs ↔ ∀ pre post, pcs = pre ++ .status :: post →
      pre.count .status < g + pre.count .quote := by
  have hlen : (statusText code).length = 3 := by
    have := (statusText_spec code).1
    rwa [if_neg (by omega), if_neg h] at this
  induction pcs generalizing g with
  | nil => exact iff_of_true trivial fun pre post h => by simp at h
  | cons pc pcs ih =>
    have hcons : (∀ pre post, pc :: pcs = pre ++ .status :: post →
          pre.count .status < g + pre.count .quote) ↔
        (pc = .status → 0 < g) ∧ ∀ pre post, pcs = pre ++ .status :: post →
          (pc :: pre).count .status < g + (pc :: pre).count .quote := by
      refine ⟨fun H => ⟨fun he => H [] pcs (by rw [he]; rfl), fun pre post he => ?_⟩, ?_⟩
      · exact H (pc :: pre) post (by rw [he]; rfl)
      · rintro ⟨h0, H⟩ pre post he
        cases pre with
        | nil => exact h0 (List.cons.inj he).1
        | cons x pre =>
          rw [List.cons_append] at he
          obtain ⟨rfl, he'⟩ := List.cons.inj he
          exact H pre post he'
    have htail := @ih (g + pc.width - (pc.text code).length)
    rw [hcons]
    refine (and_congr_right fun _ => htail).trans ?_
    cases pc with
    | quote =>
      simp only [Piece.text, Piece.width, List.length_nil, reduceCtorEq, false_implies,
        List.count_cons_self, List.count_cons_of_ne, ne_eq, not_false_eq_true]
      simp only [Nat.zero_le, true_and, Nat.sub_zero, Nat.add_assoc, Nat.add_comm 1]
    | status =>
      simp only [Piece.text, Piece.width, hlen, true_implies, List.count_cons_self,
        List.count_cons_of_ne, ne_eq, not_false_eq_true, reduceCtorEq]
      have h0 : 3 ≤ g + 2 ↔ 0 < g := by omega
      rw [h0]
      exact and_congr_right fun hg => forall₃_congr fun pre post _ => by omega
    | char c =>
      simp only [Piece.text, Piece.width, List.length_singleton, reduceCtorEq, false_implies,
        List.count_cons_of_ne, ne_eq, not_false_eq_true, Nat.add_sub_cancel, Nat.le_add_left,
        true_and]

/-! ## The loop over the line -/

namespace Parse

structure St where
  rest : List Char
  cl : Cmdline (List Char)
  ram : Ram

def start (text : List Char) (ram : Ram) : St := ⟨text, .empty, ram⟩

/-- What comes next in the text. -/
def head (st : St) : Tokenize.Head × List Char :=
  if st.rest = [] ∨ 63 ≤ st.cl.items.length then (.stop, st.rest)
  else
    match st.rest.dropWhile isBlank with
    | [] => (.stop, [])
    | c :: s =>
      if c = '>' then (.redir true, c :: s)
      else if c = '<' then (.redir false, c :: s)
      else (.word, c :: s)

/-- The text behind a redirection operator, and what follows the file name and its delimiter. -/
def redir (st : St) (isOut : Bool) : St :=
  let s := st.rest.tail
  let app := Tokenize.isAppend isOut (s.headD NUL)
  let s := (if app then s.tail else s).dropWhile isBlank
  let name := s.takeWhile fun c => ¬ isDelim c
  let text := name.take REDIR_MAX
  let cl := if isOut then st.cl.setOut text app else st.cl.setIn text
  { st with cl, rest := (s.drop name.length).tail }

def item (code : Fin 256) (st : St) : St :=
  let (pcs, rest) := pieces 0 st.rest
  let tok := wordOf code pcs
  let (copy, ram) := expandTilde tok st.ram
  ⟨rest.tail, st.cl.push (copy.getD tok), ram⟩

def step (code : Fin 256) (st : St) : Option (St ⊕ St) :=
  match head st with
  | (.stop, rest) => some (.inr { st with rest })
  | (.redir isOut, rest) => some (.inl (redir { st with rest } isOut))
  | (.word, rest) => some (.inl (item code { st with rest }))

def measure (st : St) : Nat := st.rest.length

/-- The word that comes next, if it is a word, fits. -/
def WordFits (code : Fin 256) (st : St) : Prop :=
  (head st).1 = .word → Fits code 0 (pieces 0 (head st).2).1

instance (code : Fin 256) : DecidablePred (WordFits code) := fun _ =>
  inferInstanceAs (Decidable (_ → _))

end Parse

/-- The out-of-place tokenizer: quotes are dropped, `$?` outside quotes is replaced. -/
def parse (code : Fin 256) (text : List Char) (ram : Ram) : Option (Cmdline (List Char) × Ram) :=
  (Loop.exec (Parse.step code) Parse.measure (Parse.start text ram)).map fun st => (st.cl, st.ram)

/-- The pieces of a word of the text. -/
def IsWord (code : Fin 256) (text : List Char) (ram : Ram) (pcs : List Piece) : Prop :=
  ∃ st, Loop.Reaches (Parse.step code) (Parse.start text ram) st ∧
    (Parse.head st).1 = .word ∧ (pieces 0 (Parse.head st).2).1 = pcs

/-- Every word of the text that is tokenized fits. -/
def FitsLine (code : Fin 256) (text : List Char) (ram : Ram) : Prop :=
  ∀ st, Loop.Reaches (Parse.step code) (Parse.start text ram) st → Parse.WordFits code st

/-- What `tokenize` computes, with `none` for a text on which it leaves the line. -/
def parseInPlace (code : Fin 256) (text : List Char) (ram : Ram) :
    Option (Cmdline (List Char) × Ram) :=
  (Loop.exec (Loop.guarded (Parse.WordFits code) (Parse.step code)) Parse.measure
    (Parse.start text ram)).map fun st => (st.cl, st.ram)

namespace Parse

variable {code : Fin 256} {st st' : St}

theorem dropWhile_length {p : Char → Bool} {s r : List Char} (h : s.dropWhile p = r) :
    r.length ≤ s.length := by
  rw [← h]
  exact (List.dropWhile_suffix p).length_le

theorem head_rest {rest : List Char} {hd : Tokenize.Head} (h : head st = (hd, rest)) :
    rest.length ≤ st.rest.length ∧ (hd ≠ .stop → ∃ c s, rest = c :: s ∧ isBlank c = false ∧
      (hd = .word → isDelim c = false)) := by
  rw [head] at h
  split at h
  · obtain ⟨rfl, rfl⟩ := Prod.mk.inj h
    exact ⟨Nat.le_refl _, fun h => absurd rfl h⟩
  cases hd' : st.rest.dropWhile isBlank with
  | nil =>
    rw [hd'] at h
    obtain ⟨rfl, rfl⟩ := Prod.mk.inj h
    exact ⟨Nat.zero_le _, fun h => absurd rfl h⟩
  | cons c s =>
    have hlen := dropWhile_length hd'
    have hblank : isBlank c = false := by
      have := List.head_dropWhile_not isBlank (l := st.rest) (by simp [hd'])
      simpa [hd'] using this
    rw [hd'] at h
    simp only at h
    split_ifs at h with h1 h2
    · obtain ⟨rfl, rfl⟩ := Prod.mk.inj h
      exact ⟨hlen, fun _ => ⟨c, s, rfl, hblank, fun h => by cases h⟩⟩
    · obtain ⟨rfl, rfl⟩ := Prod.mk.inj h
      exact ⟨hlen, fun _ => ⟨c, s, rfl, hblank, fun h => by cases h⟩⟩
    · obtain ⟨rfl, rfl⟩ := Prod.mk.inj h
      refine ⟨hlen, fun _ => ⟨c, s, rfl, hblank, fun _ => ?_⟩⟩
      simp [isDelim, hblank, h1, h2]

theorem pieces_length {q : Nat} {s : List Char} : (pieces q s).2.length ≤ s.length := by
  induction hn : s.length using Nat.strongRecOn generalizing q s with
  | _ n ih =>
    cases h : nextPiece q s with
    | none => rw [pieces_of_none h]; exact hn.le
    | some r =>
      obtain ⟨pc, q', s'⟩ := r
      have hlt := nextPiece_length h
      rw [pieces_of_some h]
      exact (ih s'.length (hn ▸ hlt) rfl).trans (by omega)

/-- A word that begins with something takes something. -/
theorem pieces_lt {c : Char} {s : List Char} (h : isDelim c = false) :
    (pieces 0 (c :: s)).2.length ≤ s.length := by
  cases hp : nextPiece 0 (c :: s) with
  | none =>
    rw [nextPiece] at hp
    split_ifs at hp with h1 h2 h3
    rw [h] at h3
    simp at h3
  | some r =>
    obtain ⟨pc, q', s'⟩ := r
    have hlt := nextPiece_length hp
    rw [pieces_of_some hp]
    exact pieces_length.trans (Nat.le_of_lt_succ hlt)

theorem step_isSome (code : Fin 256) (st : St) : (step code st).isSome := by
  rw [step]
  rcases head st with ⟨_ | _ | _, rest⟩ <;> rfl

theorem variant (code : Fin 256) : Loop.Variant (step code) measure := by
  intro st st' h
  rw [step] at h
  rcases hh : head st with ⟨hd, rest⟩
  obtain ⟨hle, hcons⟩ := head_rest hh
  rw [hh] at h
  cases hd with
  | stop => cases h
  | redir isOut =>
    obtain rfl : redir { st with rest } isOut = st' := by simpa using h
    obtain ⟨c, s, rfl, -, -⟩ := hcons (by simp)
    have h1 : ∀ (t u : List Char), t.length ≤ s.length →
        ((t.dropWhile isBlank).drop u.length).tail.length ≤ s.length := by
      intro t u ht
      have := (List.dropWhile_suffix isBlank (l := t)).length_le
      simp only [List.length_tail, List.length_drop]
      omega
    have hif : ∀ (b : Prop) [Decidable b], (if b then s.tail else s).length ≤ s.length := by
      intro b _
      split <;> simp
    simp only [measure, redir, List.tail_cons]
    refine Nat.lt_of_le_of_lt (h1 _ _ ?_) hle
    exact hif _
  | word =>
    obtain rfl : item code { st with rest } = st' := by simpa using h
    obtain ⟨c, s, rfl, -, hdel⟩ := hcons (by simp)
    have := pieces_lt (s := s) (hdel rfl)
    simp only [measure, item, List.length_tail, List.length_cons] at *
    omega

end Parse

theorem fitsLine_iff {code : Fin 256} {text : List Char} {ram : Ram} :
    FitsLine code text ram ↔ code.val < 100 ∨ ∀ pcs, IsWord code text ram pcs → QuotesCover pcs := by
  rcases Nat.lt_or_ge code.val 100 with h | h
  · exact iff_of_true (fun st _ _ => fits_of_lt h _ _) (.inl h)
  have hfits : ∀ pcs, Fits code 0 pcs ↔ QuotesCover pcs := by
    intro pcs
    rw [fits_iff (Nat.not_lt.mpr h), QuotesCover]
    simp only [Nat.zero_add]
  constructor
  · rintro H
    refine .inr ?_
    rintro pcs ⟨st, hr, hw, rfl⟩
    exact (hfits _).mp (H st hr hw)
  · rintro (hlt | H) st hr hw
    · exact fits_of_lt hlt _ _
    · exact (hfits _).mpr (H _ ⟨st, hr, hw, rfl⟩)

theorem parse_isSome (code : Fin 256) (text : List Char) (ram : Ram) :
    (parse code text ram).isSome := by
  obtain ⟨st, h⟩ := Loop.exec_total (Parse.variant code) (I := fun _ => True)
    (fun st _ =>
      have ⟨o, ho⟩ := Option.isSome_iff_exists.mp (Parse.step_isSome code st)
      ⟨o, ho, fun _ _ => trivial⟩)
    (s := Parse.start text ram) trivial
  rw [parse, h]
  rfl

theorem parseInPlace_eq_some {code : Fin 256} {text : List Char} {ram : Ram}
    {r : Cmdline (List Char) × Ram} :
    parseInPlace code text ram = some r ↔ parse code text ram = some r ∧ FitsLine code text ram := by
  simp only [parseInPlace, parse, Option.map_eq_some_iff,
    Loop.exec_guarded_eq_some (Parse.variant code), FitsLine]
  constructor
  · rintro ⟨st, ⟨h, hf⟩, rfl⟩
    exact ⟨⟨st, h, rfl⟩, hf⟩
  · rintro ⟨⟨st, h, rfl⟩, hf⟩
    exact ⟨st, ⟨h, hf⟩, rfl⟩

end BojanOS
