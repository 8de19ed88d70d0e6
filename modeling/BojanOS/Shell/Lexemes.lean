import BojanOS.Shell.Words
import Mathlib.Data.List.Count
import Mathlib.Data.List.TakeWhile

/-!
# Texts made of words

A text that is made of words with blanks between them (`Lexed`) is read as these words; only the
tilde expansion may still replace some of them (`expandAll`). And whatever the text, a byte that no
expansion writes is not more frequent in the arguments than in the text (`parse_count`).
-/

namespace BojanOS

variable {code : Fin 256}

/-! ## Pieces -/

theorem fits_of_not_mem {g : Nat} {pcs : List Piece} (h : .status ∉ pcs) : Fits code g pcs := by
  induction pcs generalizing g with
  | nil => trivial
  | cons pc pcs ih =>
    rw [List.mem_cons, not_or] at h
    refine ⟨?_, ih h.2⟩
    cases pc with
    | quote => exact Nat.zero_le _
    | status => exact absurd rfl h.1
    | char c => exact Nat.le_add_left _ _

/-- The word ends here. -/
def Ends0 (rest : List Char) : Prop := rest.head?.all isDelim = true

theorem nextPiece_ends {rest : List Char} (h : Ends0 rest) : nextPiece 0 rest = none := by
  cases rest with
  | nil => rfl
  | cons d s =>
    have hd : isDelim d = true := h
    have hq : d ≠ '\'' := by rintro rfl; exact absurd hd (by decide)
    have hdq : d ≠ '"' := by rintro rfl; exact absurd hd (by decide)
    rw [nextPiece, if_neg (fun h => hq h.1), if_neg (fun h => hdq h.1), if_pos ⟨rfl, hd⟩]

/-- A character that is not read in a special way outside quotes. -/
def isPlain (c : Char) : Bool := ¬ (c = '\'' ∨ c = '"' ∨ isDelim c ∨ c = '$')

theorem pieces_plain {w rest : List Char} (hw : ∀ c ∈ w, isPlain c) (h : Ends0 rest) :
    pieces 0 (w ++ rest) = (w.map .char, rest) := by
  induction w with
  | nil => exact pieces_of_none (nextPiece_ends h)
  | cons c w ih =>
    have hc : c ≠ '\'' ∧ c ≠ '"' ∧ ¬ isDelim c = true ∧ c ≠ '$' := by
      simpa [isPlain] using hw c List.mem_cons_self
    have hnext : nextPiece 0 (c :: w ++ rest) = some (.char c, 0, w ++ rest) := by
      rw [List.cons_append, nextPiece, if_neg (fun h => hc.1 h.1), if_neg (fun h => hc.2.1 h.1),
        if_neg (fun h => hc.2.2.1 h.2), if_neg (fun h => hc.2.2.2 h.2.1)]
    rw [pieces_of_some hnext, ih fun c hm => hw c (List.mem_cons_of_mem _ hm)]
    rfl

/-- Inside single quotes every other character stands for itself. -/
theorem nextPiece_quoted {c : Char} (hc : c ≠ '\'') (s : List Char) :
    nextPiece 1 (c :: s) = some (.char c, 1, s) := by
  rw [nextPiece, if_neg (fun h => hc h.1), if_neg (fun h => h.2 rfl), if_neg (fun h => by cases h.1),
    if_neg (fun h => by cases h.1)]

theorem pieces_quoted {w : List Char} (hw : '\'' ∉ w) (s : List Char) :
    pieces 1 (w ++ '\'' :: s) = (w.map .char ++ .quote :: (pieces 0 s).1, (pieces 0 s).2) := by
  induction w with
  | nil =>
    have hnext : nextPiece 1 ('\'' :: s) = some (.quote, 0, s) := rfl
    rw [List.nil_append, pieces_of_some hnext]
    rfl
  | cons c w ih =>
    rw [List.mem_cons, not_or] at hw
    rw [List.cons_append, pieces_of_some (nextPiece_quoted (Ne.symm hw.1) _), ih hw.2]
    rfl

/-! ## Lexemes -/

/-- The text `t`, followed by `rest`, is the word `w`. -/
structure Lexeme (t rest w : List Char) : Prop where
  head : ∃ c s, t = c :: s ∧ isDelim c = false
  ends : Ends0 rest
  word : ∃ pcs, pieces 0 (t ++ rest) = (pcs, rest) ∧ .status ∉ pcs ∧ ∀ code, wordOf code pcs = w

theorem wordOf_map_char (code : Fin 256) (w : List Char) : wordOf code (w.map .char) = w := by
  induction w with
  | nil => rfl
  | cons c w ih => exact congrArg (c :: ·) ih

theorem status_not_mem_map (w : List Char) : .status ∉ w.map Piece.char := by simp

theorem Lexeme.plain {w rest : List Char} (hne : w ≠ []) (hw : ∀ c ∈ w, isPlain c) (h : Ends0 rest) :
    Lexeme w rest w where
  head := by
    obtain ⟨c, s, rfl⟩ := List.exists_cons_of_ne_nil hne
    have hc : c ≠ '\'' ∧ c ≠ '"' ∧ ¬ isDelim c = true ∧ c ≠ '$' := by
      simpa [isPlain] using hw c List.mem_cons_self
    exact ⟨c, s, rfl, by simpa using hc.2.2.1⟩
  ends := h
  word := ⟨_, pieces_plain hw h, status_not_mem_map w, fun code => wordOf_map_char code w⟩

theorem Lexeme.quoted {w rest : List Char} (hw : '\'' ∉ w) (h : Ends0 rest) :
    Lexeme ('\'' :: (w ++ ['\''])) rest w where
  head := ⟨_, _, rfl, rfl⟩
  ends := h
  word := by
    have hnext : nextPiece 0 ('\'' :: (w ++ ['\'']) ++ rest) =
        some (.quote, 1, w ++ '\'' :: rest) := by
      simp [nextPiece, Tokenize.toggle]
    refine ⟨.quote :: (w.map .char ++ [.quote]), ?_, by simp, fun code => ?_⟩
    · rw [pieces_of_some hnext, pieces_quoted hw, pieces_of_none (nextPiece_ends h)]
    · have : wordOf code (.quote :: (w.map .char ++ [.quote])) =
          wordOf code (w.map .char) := by simp [wordOf, Piece.text]
      rw [this, wordOf_map_char]

/-! ## Lines of words -/

/-- Words with blanks between them. -/
inductive Lexed : List Char → List (List Char) → Prop
  | nil {b : List Char} (hb : b.all isBlank = true) : Lexed b []
  | cons {b t rest w : List Char} {ws : List (List Char)} (hb : b.all isBlank = true)
    (hw : Lexeme t rest w) (hrest : rest.head?.all isBlank = true) (hws : Lexed rest.tail ws) :
    Lexed (b ++ (t ++ rest)) (w :: ws)

/-- The words after the tilde expansion of each, and the heap. -/
def expandAll : List (List Char) → Ram → List (List Char) × Ram
  | [], ram => ([], ram)
  | w :: ws, ram =>
    let (copy, ram) := expandTilde w ram
    let (ws, ram) := expandAll ws ram
    (copy.getD w :: ws, ram)

namespace Parse

/-- What comes behind blanks. -/
theorem head_word {b t : List Char} {cl : Cmdline (List Char)} {ram : Ram} {c : Char} {s : List Char}
    (hb : b.all isBlank = true) (ht : t = c :: s) (hc : isDelim c = false)
    (hlen : cl.items.length < 63) : head ⟨b ++ t, cl, ram⟩ = (.word, t) := by
  subst ht
  have hplain : c ≠ '>' ∧ c ≠ '<' ∧ isBlank c = false := by
    simp only [isDelim, decide_eq_false_iff_not, not_or] at hc
    exact ⟨hc.2.1, hc.2.2, by simpa using hc.1⟩
  have hdrop : (b ++ c :: s).dropWhile isBlank = c :: s := by
    rw [List.dropWhile_append_of_pos (fun x hx => List.all_eq_true.mp hb x hx),
      List.dropWhile_cons_of_neg (by simp [hplain.2.2])]
  have hne : ¬ (b ++ c :: s = [] ∨ 63 ≤ cl.items.length) := by
    rintro (h | h)
    · simp at h
    · omega
  rw [head, if_neg hne, hdrop]
  simp only [hplain.1, hplain.2.1, if_false]

theorem head_blank {b : List Char} (cl : Cmdline (List Char)) (ram : Ram)
    (hb : b.all isBlank = true) : (head ⟨b, cl, ram⟩).1 = .stop := by
  have hdrop : b.dropWhile isBlank = [] :=
    List.dropWhile_eq_nil_iff.mpr fun x hx => List.all_eq_true.mp hb x hx
  rw [head]
  split
  · rfl
  · rw [hdrop]

end Parse

open Parse in
/-- The tokenizer on such a line. -/
theorem Lexed.exec (code : Fin 256) {text : List Char} {ws : List (List Char)} (h : Lexed text ws)
    {cl : Cmdline (List Char)} (ram : Ram) (hlen : cl.items.length + ws.length < 63) :
    ∃ rest, Loop.exec (Loop.guarded (WordFits code) (step code)) measure ⟨text, cl, ram⟩ =
      some ⟨rest, { cl with items := cl.items ++ (expandAll ws ram).1 }, (expandAll ws ram).2⟩ := by
  have hv := (variant code).guarded (P := WordFits code)
  induction h generalizing cl ram with
  | @nil b hb =>
    have hstop := head_blank cl ram hb
    obtain ⟨rest, hh⟩ : ∃ rest, head ⟨b, cl, ram⟩ = (.stop, rest) := ⟨_, Prod.ext hstop rfl⟩
    have hfit : WordFits code ⟨b, cl, ram⟩ := fun h => by rw [hstop] at h; cases h
    have hstep : Loop.guarded (WordFits code) (step code) ⟨b, cl, ram⟩ =
        some (.inr ⟨rest, cl, ram⟩) := by
      rw [Loop.guarded, if_pos hfit, step, hh]
    refine ⟨rest, (Loop.exec_done hstep).trans ?_⟩
    rw [expandAll, List.append_nil]
  | @cons b t rest w ws hb hw hrest hws ih =>
    obtain ⟨⟨c, s, rfl, hc⟩, -, pcs, hp, hst, hword⟩ := hw
    rw [List.length_cons] at hlen
    have hh : head ⟨b ++ (c :: s ++ rest), cl, ram⟩ = (.word, c :: s ++ rest) :=
      head_word hb rfl hc (by omega)
    have hfit : WordFits code ⟨b ++ (c :: s ++ rest), cl, ram⟩ := by
      intro _
      rw [hh, hp]
      exact fits_of_not_mem hst
    obtain ⟨copy, ram', he⟩ : ∃ copy ram', expandTilde w ram = (copy, ram') := ⟨_, _, rfl⟩
    have hstep : Loop.guarded (WordFits code) (step code) ⟨b ++ (c :: s ++ rest), cl, ram⟩ =
        some (.inl ⟨rest.tail, cl.push (copy.getD w), ram'⟩) := by
      rw [Loop.guarded, if_pos hfit, step, hh]
      simp only [item, hp, hword, he]
    have hlen' : (cl.push (copy.getD w)).items.length + ws.length < 63 := by
      simp only [Cmdline.push, List.length_append, List.length_singleton]
      omega
    obtain ⟨rest', hexec⟩ := ih ram' hlen'
    refine ⟨rest', (Loop.exec_next hv hstep).trans (hexec.trans ?_)⟩
    rw [expandAll, he]
    simp [Cmdline.push]

/-- A line of fewer than 63 words is its words. -/
theorem Lexed.parseInPlace (code : Fin 256) {text : List Char} {ws : List (List Char)}
    (h : Lexed text ws) (hlen : ws.length < 63) (ram : Ram) : BojanOS.parseInPlace code text ram =
      some (⟨(expandAll ws ram).1, [], false, [], false, false⟩, (expandAll ws ram).2) := by
  have h0 : (Cmdline.empty : Cmdline (List Char)).items.length + ws.length < 63 := by
    simpa [Cmdline.empty] using hlen
  obtain ⟨rest, hexec⟩ := h.exec code ram h0
  rw [BojanOS.parseInPlace, Parse.start, hexec]
  rfl

/-! ## Counting bytes -/

/-- A byte that neither the expansion of a tilde nor a status writes. -/
def IsKept (c : Char) : Prop := c ∉ "/root".toList ∧ c.isDigit = false

theorem statusText_count {c : Char} (hc : IsKept c) (code : Fin 256) :
    (statusText code).count c = 0 := by
  rw [List.count_eq_zero]
  intro hm
  have := (statusText_spec code).2 c hm
  rw [hc.2] at this
  cases this

/-- The text of a piece has not more of them than the bytes it was read from. -/
theorem nextPiece_count (code : Fin 256) {q q' : Nat} {s s' : List Char} {pc : Piece} {c : Char}
    (hc : IsKept c)
    (h : nextPiece q s = some (pc, q', s')) :
    (pc.text code).count c + s'.count c ≤ s.count c := by
  cases s with
  | nil => cases h
  | cons d s =>
    have htail : s.tail.count c ≤ s.count c := (List.tail_sublist s).count_le c
    have hcons : s.count c ≤ (d :: s).count c := List.count_le_count_cons
    rw [nextPiece] at h
    split_ifs at h
    · obtain ⟨rfl, -, rfl⟩ : Piece.quote = pc ∧ _ ∧ s = s' := by simpa using h
      simpa [Piece.text] using hcons
    · obtain ⟨rfl, -, rfl⟩ : Piece.quote = pc ∧ _ ∧ s = s' := by simpa using h
      simpa [Piece.text] using hcons
    · obtain ⟨rfl, -, rfl⟩ : Piece.status = pc ∧ _ ∧ s.tail = s' := by simpa using h
      rw [Piece.text, statusText_count hc, Nat.zero_add]
      exact htail.trans hcons
    · obtain ⟨rfl, -, rfl⟩ : Piece.char d = pc ∧ _ ∧ s = s' := by simpa using h
      rw [Piece.text, ← List.count_append]
      exact Nat.le_refl _

theorem pieces_count (code : Fin 256) (q : Nat) (s : List Char) {c : Char} (hc : IsKept c) :
    (wordOf code (pieces q s).1).count c + (pieces q s).2.count c ≤ s.count c := by
  induction hn : s.length using Nat.strongRecOn generalizing q s with
  | _ n ih =>
    cases h : nextPiece q s with
    | none =>
      rw [pieces_of_none h]
      simp [wordOf]
    | some r =>
      obtain ⟨pc, q', s'⟩ := r
      have hle := nextPiece_count code hc h
      have hrec := ih s'.length (hn ▸ nextPiece_length h) q' s' rfl
      have hword : wordOf code (pc :: (pieces q' s').1) =
          pc.text code ++ wordOf code (pieces q' s').1 := rfl
      rw [pieces_of_some h]
      simp only [hword, List.count_append]
      omega

theorem expandTilde_count {c : Char} (hc : IsKept c) (w : List Char) (ram : Ram) :
    ((expandTilde w ram).1.getD w).count c ≤ w.count c := by
  unfold expandTilde
  split
  · rename_i rest
    split
    · split
      · exact Nat.le_refl _
      · rw [Option.getD_some, List.count_append, List.count_eq_zero_of_not_mem hc.1, Nat.zero_add]
        exact List.count_le_count_cons
    · exact Nat.le_refl _
  · exact Nat.le_refl _

namespace Parse

theorem head_count (st : St) (c : Char) : (head st).2.count c ≤ st.rest.count c := by
  have hdrop : (st.rest.dropWhile isBlank).count c ≤ st.rest.count c :=
    (List.dropWhile_suffix isBlank).sublist.count_le c
  rw [head]
  split
  · exact Nat.le_refl _
  cases hd : st.rest.dropWhile isBlank with
  | nil => exact Nat.zero_le _
  | cons d s =>
    rw [hd] at hdrop
    simp only
    split
    · exact hdrop
    split
    · exact hdrop
    · exact hdrop

theorem redir_count (st : St) (isOut : Bool) (c : Char) :
    (redir st isOut).rest.count c ≤ st.rest.count c ∧ (redir st isOut).cl.items = st.cl.items := by
  refine ⟨List.Sublist.count_le c ?_, ?_⟩
  · rw [redir]
    simp only
    refine (List.tail_sublist _).trans ((List.drop_sublist _ _).trans ?_)
    refine (List.dropWhile_suffix isBlank).sublist.trans ?_
    split
    · exact (List.tail_sublist _).trans (List.tail_sublist _)
    · exact List.tail_sublist _
  · rw [redir]
    simp only
    split <;> rfl

/-- Arguments and unread text together. -/
def counted (c : Char) (st : St) : Nat := st.cl.items.flatten.count c + st.rest.count c

theorem step_count {c : Char} (hc : IsKept c) {st st' : St} (h : step code st = some (.inl st')) :
    counted c st' ≤ counted c st := by
  have hhead := head_count st c
  rw [step] at h
  split at h
  · cases h
  · rename_i isOut rest hh
    rw [hh] at hhead
    obtain rfl := Sum.inl.inj (Option.some.inj h)
    obtain ⟨hle, hitems⟩ := redir_count { st with rest } isOut c
    rw [counted, counted, hitems]
    exact Nat.add_le_add_left (hle.trans hhead) _
  · rename_i rest hh
    rw [hh] at hhead
    obtain rfl := Sum.inl.inj (Option.some.inj h)
    have hword := pieces_count code 0 rest hc
    have hexp := expandTilde_count hc (wordOf code (pieces 0 rest).1) st.ram
    have htail : (pieces 0 rest).2.tail.count c ≤ (pieces 0 rest).2.count c :=
      (List.tail_sublist _).count_le c
    simp only [counted, item, Cmdline.push, List.flatten_append, List.flatten_cons,
      List.flatten_nil, List.append_nil, List.count_append] at *
    omega

end Parse

/-- A byte that no expansion writes is in the arguments at most as often as in the text. -/
theorem parse_count {text : List Char} {ram ram' : Ram} {cl : Cmdline (List Char)} {c : Char}
    (hc : IsKept c) (h : parse code text ram = some (cl, ram')) :
    cl.items.flatten.count c ≤ text.count c := by
  obtain ⟨st, hexec, he⟩ := Option.map_eq_some_iff.mp h
  obtain ⟨rfl, rfl⟩ := Prod.mk.inj he
  obtain ⟨t, hreach, hdone⟩ := Loop.exec_sound hexec
  have hle : Parse.counted c t ≤ text.count c := by
    refine hreach.inv (I := fun st => Parse.counted c st ≤ text.count c)
      (fun s s' hs hstep => (Parse.step_count hc hstep).trans hs) ?_
    simp [Parse.counted, Parse.start, Cmdline.empty]
  have hitems : st.cl = t.cl := by
    rw [Parse.step] at hdone
    split at hdone
    · obtain rfl := Sum.inr.inj (Option.some.inj hdone)
      rfl
    · cases hdone
    · cases hdone
  rw [hitems]
  exact (Nat.le_add_right _ _).trans hle

end BojanOS
