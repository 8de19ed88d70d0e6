import Mathlib.Data.Bool.AllAny
import BojanOS.Shell.Lexemes
import BojanOS.Shell.TokenizeOk

/-!
# Blanks around redirection operators

The byte behind a word, or behind the name of a redirection, is overwritten and skipped whatever it
is. A blank may be lost this way, an operator is lost too. `Scans` reads a line without quotes as
`tokenize` does, with the operators that are lost left out. On lines whose operators all have names,
`Paired` reads a line and the line with the blanks side by side.
-/

namespace BojanOS

/-! ## Words and operators -/

/-- A word, or a redirection operator: `<` (`isOut` and `app` false), `>` or `>>`. -/
inductive Tok where
  | word (w : List Char)
  | op (isOut app : Bool)
  deriving DecidableEq

def opText : Bool → Bool → List Char
  | true, true => ['>', '>']
  | true, false => ['>']
  | false, _ => ['<']

def isOp (c : Char) : Bool := c = '>' ∨ c = '<'

/-- A byte of a word without quotes. -/
def isWordChar (c : Char) : Bool := ¬ (isDelim c ∨ c = '\'' ∨ c = '"')

/-- How `tokenize` takes a line without quotes apart. The byte behind a word is skipped. -/
inductive Scans : List Char → List Tok → Prop
  | nil {b : List Char} (hb : b.all isBlank = true) : Scans b []
  | word {b w rest : List Char} {ts : List Tok} (hb : b.all isBlank = true) (hne : w ≠ [])
    (hw : w.all isWordChar = true) (hends : Ends0 rest) (h : Scans rest.tail ts) :
    Scans (b ++ (w ++ rest)) (.word w :: ts)
  | op {b rest : List Char} {ts : List Tok} (hb : b.all isBlank = true) (isOut app : Bool)
    (hrest : rest.head?.any isOp = false) (h : Scans rest ts) :
    Scans (b ++ (opText isOut app ++ rest)) (.op isOut app :: ts)

namespace Cmdline

variable {ι : Type}

def redirect (cl : Cmdline ι) (isOut app : Bool) (name : List Char) : Cmdline ι :=
  if isOut then cl.setOut (name.take REDIR_MAX) app else cl.setIn (name.take REDIR_MAX)

@[simp] theorem redirect_items (cl : Cmdline ι) (isOut app : Bool) (name : List Char) :
    (cl.redirect isOut app name).items = cl.items := by
  rw [redirect]
  split <;> rfl

end Cmdline

/-- The command line of the tokens; `pending` is an operator whose name is to come. An operator in
the place of the name loses its first byte. -/
def readToks (code : Fin 256) : Option (Bool × Bool) → List Tok → Cmdline (List Char) → Ram →
    Option (Cmdline (List Char) × Ram)
  | none, [], cl, ram => some (cl, ram)
  | none, .word w :: ts, cl, ram =>
    if 63 ≤ cl.items.length then some (cl, ram)
    else if Fits code 0 (pieces 0 w).1 then
      let tok := wordOf code (pieces 0 w).1
      let (copy, ram) := expandTilde tok ram
      readToks code none ts (cl.push (copy.getD tok)) ram
    else none
  | none, .op isOut app :: ts, cl, ram =>
    if 63 ≤ cl.items.length then some (cl, ram) else readToks code (some (isOut, app)) ts cl ram
  | some (isOut, app), [], cl, ram => some (cl.redirect isOut app [], ram)
  | some (isOut, app), .word w :: ts, cl, ram => readToks code none ts (cl.redirect isOut app w) ram
  | some (isOut, app), .op isOut' app' :: ts, cl, ram =>
    readToks code (if isOut' && app' then some (true, false) else none) ts
      (cl.redirect isOut app []) ram

variable {code : Fin 256} {cl : Cmdline (List Char)} {ram : Ram}

/-! ## The scanner on the bytes -/

theorem isWordChar_spec {c : Char} (h : isWordChar c = true) :
    isDelim c = false ∧ c ≠ '\'' ∧ c ≠ '"' := by
  simpa [isWordChar] using h

theorem nextPiece_wordChar {c : Char} {s rest : List Char} (hc : isWordChar c = true)
    (h : Ends0 rest) : ∃ pc s', nextPiece 0 (c :: s) = some (pc, 0, s') ∧
      nextPiece 0 (c :: (s ++ rest)) = some (pc, 0, s' ++ rest) ∧ s' <:+ s := by
  obtain ⟨hd, hq, hdq⟩ := isWordChar_spec hc
  have hhead : (s ++ rest).head? = some '?' ↔ s.head? = some '?' := by
    cases s with
    | cons d s => rfl
    | nil =>
      refine iff_of_false (fun he => ?_) (by simp)
      have he' : rest.head? = some '?' := he
      rw [Ends0, he'] at h
      exact absurd h (by decide)
  rw [nextPiece, nextPiece]
  simp only [hq, hdq, hd, hhead, false_and, and_false, if_false, Bool.false_eq_true]
  split
  · rename_i hs
    obtain ⟨s', rfl⟩ := List.head?_eq_some_iff.mp hs.2.2
    exact ⟨.status, s', rfl, rfl, List.suffix_cons _ _⟩
  · exact ⟨.char c, s, rfl, rfl, List.suffix_refl s⟩

/-- Without quotes, a word ends at the first delimiter. -/
theorem pieces_wordChars {w rest : List Char} (hw : w.all isWordChar = true) (h : Ends0 rest) :
    pieces 0 (w ++ rest) = ((pieces 0 w).1, rest) := by
  induction hn : w.length using Nat.strongRecOn generalizing w with
  | _ n ih =>
    cases w with
    | nil => exact pieces_of_none (nextPiece_ends h)
    | cons c s =>
      rw [List.length_cons] at hn
      rw [List.all_cons, Bool.and_eq_true] at hw
      obtain ⟨pc, s', h1, h2, hsuf⟩ := nextPiece_wordChar (s := s) hw.1 h
      have hs' : s'.all isWordChar = true :=
        List.all_eq_true.mpr fun x hx => List.all_eq_true.mp hw.2 x (hsuf.subset hx)
      have hlt : s'.length < n := by
        have := hsuf.length_le
        omega
      rw [List.cons_append, pieces_of_some h2, pieces_of_some h1, ih _ hlt hs' rfl]

theorem Scans.blanks {b text : List Char} {ts : List Tok} (hb : b.all isBlank = true)
    (h : Scans text ts) : Scans (b ++ text) ts := by
  have happ : ∀ b', b'.all isBlank = true → (b ++ b').all isBlank = true := by
    intro b' hb'
    rw [List.all_append, hb, hb']
    rfl
  cases h with
  | nil hb' => exact .nil (happ _ hb')
  | word hb' hne hw hends h =>
    rw [← List.append_assoc]
    exact .word (happ _ hb') hne hw hends h
  | op hb' isOut app hrest h =>
    rw [← List.append_assoc]
    exact .op (happ _ hb') isOut app hrest h

namespace Parse

theorem opText_head (isOut app : Bool) : ∃ s, opText isOut app = (if isOut then '>' else '<') :: s ∧
    s = if isOut && app then ['>'] else [] := by
  cases isOut <;> cases app <;> exact ⟨_, rfl, rfl⟩

theorem head_op {b rest : List Char} (hb : b.all isBlank = true) (isOut app : Bool)
    (hlen : cl.items.length < 63) : head ⟨b ++ (opText isOut app ++ rest), cl, ram⟩ =
      (.redir isOut, opText isOut app ++ rest) := by
  obtain ⟨s, hs, -⟩ := opText_head isOut app
  have hdrop : (b ++ (opText isOut app ++ rest)).dropWhile isBlank = opText isOut app ++ rest := by
    rw [List.dropWhile_append_of_pos (fun x hx => List.all_eq_true.mp hb x hx), hs]
    cases isOut <;> rfl
  have hne : ¬ (b ++ (opText isOut app ++ rest) = [] ∨ 63 ≤ cl.items.length) := by
    rw [hs]
    rintro (h | h)
    · simp at h
    · omega
  rw [head, if_neg hne, hdrop, hs]
  cases isOut <;> rfl

/-- What is left behind an operator, with its name. -/
theorem redir_eq {rest : List Char} (isOut app : Bool) (hrest : rest.head?.any isOp = false) :
    redir ⟨opText isOut app ++ rest, cl, ram⟩ isOut =
      ⟨((rest.dropWhile isBlank).drop
          ((rest.dropWhile isBlank).takeWhile fun c => ¬ isDelim c).length).tail,
        cl.redirect isOut (isOut && app) ((rest.dropWhile isBlank).takeWhile fun c => ¬ isDelim c),
        ram⟩ := by
  have happ : Tokenize.isAppend true (rest.headD NUL) = false := by
    cases rest with
    | nil => rfl
    | cons c s =>
      have hc : isOp c = false := hrest
      simp only [isOp, decide_eq_false_iff_not, not_or] at hc
      simp [Tokenize.isAppend, hc.1]
  cases isOut <;> cases app
  · rfl
  · rfl
  · simp only [redir, opText, List.cons_append, List.nil_append, List.tail_cons, happ]
    rfl
  · rfl

/-- The rest of the loop of `parseInPlace`. -/
def finish (code : Fin 256) (st : St) : Option (Cmdline (List Char) × Ram) :=
  (Loop.exec (Loop.guarded (WordFits code) (step code)) measure st).map fun st => (st.cl, st.ram)

theorem finish_stop {st : St} (h : (head st).1 = .stop) : finish code st = some (st.cl, st.ram) := by
  obtain ⟨rest, hh⟩ : ∃ rest, head st = (.stop, rest) := ⟨_, Prod.ext h rfl⟩
  have hfit : WordFits code st := fun hw => by rw [h] at hw; cases hw
  have hstep : Loop.guarded (WordFits code) (step code) st = some (.inr { st with rest }) := by
    rw [Loop.guarded, if_pos hfit, step, hh]
  rw [finish, Loop.exec_done hstep]
  rfl

theorem finish_redir {st : St} {isOut : Bool} {rest : List Char} (h : head st = (.redir isOut, rest)) :
    finish code st = finish code (redir { st with rest } isOut) := by
  have hfit : WordFits code st := fun hw => by rw [h] at hw; cases hw
  have hstep : Loop.guarded (WordFits code) (step code) st =
      some (.inl (redir { st with rest } isOut)) := by
    rw [Loop.guarded, if_pos hfit, step, h]
  rw [finish, Loop.exec_next (variant code).guarded hstep]
  rfl

theorem finish_word {st : St} {rest : List Char} (h : head st = (.word, rest)) :
    finish code st =
      if Fits code 0 (pieces 0 rest).1 then finish code (item code { st with rest }) else none := by
  have hfits : WordFits code st ↔ Fits code 0 (pieces 0 rest).1 := by
    rw [WordFits, h]
    exact ⟨fun H => H rfl, fun H _ => H⟩
  split
  · rename_i hf
    have hstep : Loop.guarded (WordFits code) (step code) st =
        some (.inl (item code { st with rest })) := by
      rw [Loop.guarded, if_pos (hfits.mpr hf), step, h]
    rw [finish, Loop.exec_next (variant code).guarded hstep]
    rfl
  · rename_i hf
    have hstep : Loop.guarded (WordFits code) (step code) st = none := by
      rw [Loop.guarded, if_neg fun H => hf (hfits.mp H)]
    rw [finish, Loop.exec_fault hstep]
    rfl

theorem head_full {st : St} (h : 63 ≤ st.cl.items.length) : (head st).1 = .stop := by
  rw [head, if_pos (.inr h)]

end Parse

theorem takeWhile_wordChars {w rest : List Char} (hw : w.all isWordChar = true) (h : Ends0 rest) :
    (w ++ rest).takeWhile (fun c => ¬ isDelim c) = w := by
  have hall : ∀ c ∈ w, (decide (¬ isDelim c = true)) = true := by
    intro c hc
    have := (isWordChar_spec (List.all_eq_true.mp hw c hc)).1
    simp [this]
  rw [List.takeWhile_append_of_pos hall]
  cases rest with
  | nil => simp
  | cons d s =>
    have hd : isDelim d = true := h
    simp [hd]

open Parse in
/-- The loop does what `readToks` says: from between two words, and from an operator on. -/
theorem Scans.finish {text : List Char} {ts : List Tok} (h : Scans text ts) :
    (∀ cl ram, finish code ⟨text, cl, ram⟩ = readToks code none ts cl ram) ∧
      (text.head?.any isOp = false → ∀ b isOut app cl ram, b.all isBlank = true →
        cl.items.length < 63 → finish code ⟨b ++ (opText isOut app ++ text), cl, ram⟩ =
          readToks code (some (isOut, app)) ts cl ram) := by
  have hredir : ∀ (isOut app : Bool) (cl : Cmdline (List Char)) name,
      cl.redirect isOut (isOut && app) name = cl.redirect isOut app name := by
    intro isOut app cl name
    cases isOut <;> rfl
  have hdropb : ∀ (b t : List Char), b.all isBlank = true → t.head?.any isBlank = false →
      (b ++ t).dropWhile isBlank = t := by
    intro b t hb ht
    rw [List.dropWhile_append_of_pos fun x hx => List.all_eq_true.mp hb x hx]
    cases t with
    | nil => rfl
    | cons c s =>
      have hc : isBlank c = false := ht
      rw [List.dropWhile_cons_of_neg (by simp [hc])]
  induction h with
  | @nil b hb =>
    refine ⟨fun cl ram => ?_, fun hop b' isOut app cl ram hb' hlen => ?_⟩
    · rw [finish_stop (head_blank cl ram hb)]
      rfl
    · have hdrop : b.dropWhile isBlank = [] := by
        have := hdropb b [] hb rfl
        rwa [List.append_nil] at this
      rw [finish_redir (head_op hb' isOut app hlen), redir_eq isOut app hop, hdrop, hredir,
        finish_stop (head_blank _ _ rfl)]
      rfl
  | @word b w rest ts hb hne hw hends h ih =>
    obtain ⟨c, s, hcs⟩ := List.exists_cons_of_ne_nil hne
    have hc : isDelim c = false :=
      (isWordChar_spec (List.all_eq_true.mp hw c (hcs ▸ List.mem_cons_self))).1
    have hblank : (w ++ rest).head?.any isBlank = false := by
      rw [hcs]
      simp only [isDelim, decide_eq_false_iff_not, not_or] at hc
      simpa using hc.1
    refine ⟨fun cl ram => ?_, fun hop b' isOut app cl ram hb' hlen => ?_⟩
    · rcases Nat.lt_or_ge cl.items.length 63 with hlen | hlen
      · have hh : head ⟨b ++ (w ++ rest), cl, ram⟩ = (.word, w ++ rest) :=
          head_word hb (by rw [hcs, List.cons_append]) hc hlen
        have hp := pieces_wordChars hw hends
        rw [finish_word hh, readToks, if_neg (Nat.not_le.mpr hlen), hp]
        split
        · simp only [item, hp]
          exact ih.1 _ _
        · rfl
      · rw [finish_stop (head_full hlen), readToks, if_pos hlen]
    · have htake := takeWhile_wordChars hw hends
      rw [finish_redir (head_op hb' isOut app hlen), redir_eq isOut app hop, hdropb _ _ hb hblank,
        htake, List.drop_left, hredir, readToks]
      exact ih.1 _ _
  | @op b rest ts hb isOut app hrest h ih =>
    refine ⟨fun cl ram => ?_, fun hop b' isOut' app' cl ram hb' hlen => ?_⟩
    · rcases Nat.lt_or_ge cl.items.length 63 with hlen | hlen
      · rw [readToks, if_neg (Nat.not_le.mpr hlen)]
        exact ih.2 hrest b isOut app cl ram hb hlen
      · rw [finish_stop (head_full hlen), readToks, if_pos hlen]
    · -- the operator stands where the name should: its first byte is skipped
      obtain ⟨s, hs, hs'⟩ := opText_head isOut app
      have hblank : (opText isOut app ++ rest).head?.any isBlank = false := by
        rw [hs]
        cases isOut <;> rfl
      have htake : (opText isOut app ++ rest).takeWhile (fun c => ¬ isDelim c) = [] := by
        rw [hs]
        cases isOut <;> rfl
      have htail : (opText isOut app ++ rest).tail = s ++ rest := by
        rw [hs]
        rfl
      rw [finish_redir (head_op hb' isOut' app' hlen), redir_eq isOut' app' hop, hdropb _ _ hb hblank,
        htake, List.length_nil, List.drop_zero, htail, hredir, readToks, hs']
      cases isOut && app with
      | false => exact ih.1 _ _
      | true => exact ih.2 hrest [] true false _ ram rfl (by rwa [Cmdline.redirect_items])

/-- The tokenizer on a line without quotes. -/
theorem Scans.parseInPlace {text : List Char} {ts : List Tok} (h : Scans text ts) (ram : Ram) :
    BojanOS.parseInPlace code text ram = readToks code none ts .empty ram := h.finish.1 _ _

/-! ## Inserting blanks -/

/-- `L'` is `L` with blanks inserted before and after every operator. -/
inductive Spaced : List Char → List Char → Prop
  | nil : Spaced [] []
  | char {c : Char} {s t : List Char} (hc : isOp c = false) (h : Spaced s t) :
    Spaced (c :: s) (c :: t)
  | op (isOut app : Bool) {b b' s t : List Char} (happ : opText isOut app = ['>'] → s.head? ≠ some '>')
    (hb : b.all isBlank = true) (hne : b ≠ []) (hb' : b'.all isBlank = true) (hne' : b' ≠ [])
    (h : Spaced s t) :
    Spaced (opText isOut app ++ s) (b ++ (opText isOut app ++ (b' ++ t)))

/-- A redirection operator of a line; `glued` says that it stands directly behind another byte than
a blank. -/
structure Operator where
  isOut : Bool
  app : Bool
  glued : Bool
  deriving DecidableEq

/-- The operators of a text that stands behind a byte that is glued to it, or not. -/
def operators : Bool → List Char → List Operator
  | _, [] => []
  | glued, '>' :: '>' :: s => ⟨true, true, glued⟩ :: operators true s
  | glued, c :: s =>
    if isOp c then ⟨c = '>', false, glued⟩ :: operators true s else operators (!isBlank c) s

/-- Every operator is the first thing of the line or stands behind a blank. -/
def clear (glued : Bool) (s : List Char) : Bool := (operators glued s).all fun o => !o.glued

/-- The number of words, redirection names included. -/
def wordCount : Bool → List Char → Nat
  | _, [] => 0
  | inWord, c :: s =>
    if isDelim c then wordCount false s else (if inWord then 0 else 1) + wordCount true s

theorem Spaced.nil_left {L' : List Char} (h : Spaced [] L') : L' = [] := by
  generalize he : ([] : List Char) = L at h
  cases h with
  | nil => rfl
  | char => cases he
  | op isOut app =>
    obtain ⟨s, hs, -⟩ := Parse.opText_head isOut app
    rw [hs] at he
    cases he

theorem opText_isOp (isOut app : Bool) (s : List Char) :
    ∃ c s', opText isOut app ++ s = c :: s' ∧ isOp c = true := by
  cases isOut <;> cases app <;> exact ⟨_, _, rfl, rfl⟩

theorem opText_length (isOut app : Bool) : 1 ≤ (opText isOut app).length := by
  cases isOut <;> cases app <;> exact Nat.le_add_left ..

/-- Nothing is inserted between other bytes. -/
theorem Spaced.append_left {w r L' : List Char} (hw : ∀ c ∈ w, isOp c = false)
    (h : Spaced (w ++ r) L') : ∃ r', L' = w ++ r' ∧ Spaced r r' := by
  induction w generalizing L' with
  | nil => exact ⟨L', rfl, h⟩
  | cons c w ih =>
    generalize he : c :: w ++ r = L at h
    cases h with
    | nil => cases he
    | @char c' s t hc h =>
      obtain ⟨rfl, rfl⟩ := List.cons.inj he
      obtain ⟨r', rfl, hr⟩ := ih (fun c hm => hw c (List.mem_cons_of_mem _ hm)) h
      exact ⟨r', rfl, hr⟩
    | @op isOut app b b' s t =>
      obtain ⟨x, s', hs, hx⟩ := opText_isOp isOut app s
      rw [hs] at he
      obtain ⟨rfl, -⟩ := List.cons.inj he
      rw [hw c List.mem_cons_self] at hx
      cases hx

/-- The operator at the front of a text. -/
theorem Spaced.op_left {c : Char} {s L' : List Char} (hc : isOp c = true) (h : Spaced (c :: s) L') :
    ∃ isOut app b b' s' t, c :: s = opText isOut app ++ s' ∧
      (opText isOut app = ['>'] → s'.head? ≠ some '>') ∧ b.all isBlank = true ∧ b ≠ [] ∧
        b'.all isBlank = true ∧ b' ≠ [] ∧
      L' = b ++ (opText isOut app ++ (b' ++ t)) ∧ Spaced s' t := by
  generalize he : c :: s = L at h
  cases h with
  | nil => cases he
  | char hc' h =>
    obtain ⟨rfl, -⟩ := List.cons.inj he
    rw [hc] at hc'
    cases hc'
  | @op isOut app b b' s' t happ hb hne hb' hne' h =>
    exact ⟨isOut, app, b, b', s', t, rfl, happ, hb, hne, hb', hne', rfl, h⟩

theorem operators_op {isOut app glued : Bool} {s : List Char}
    (happ : opText isOut app = ['>'] → s.head? ≠ some '>') :
    operators glued (opText isOut app ++ s) = ⟨isOut, isOut && app, glued⟩ :: operators true s := by
  cases isOut <;> cases app
  · rfl
  · rfl
  · cases s with
    | nil => rfl
    | cons d s =>
      have hd : d ≠ '>' := fun he => happ rfl (by rw [he]; rfl)
      rw [opText, List.singleton_append, operators]
      · rfl
      · intro s' _ he
        exact absurd (List.cons.inj he).1 hd
  · rfl

theorem clear_op {isOut app glued : Bool} {s : List Char}
    (happ : opText isOut app = ['>'] → s.head? ≠ some '>') :
    clear glued (opText isOut app ++ s) = (!glued && clear true s) := by
  rw [clear, operators_op happ, List.all_cons]
  rfl

theorem isOp_false {c : Char} (h : isOp c = false) : c ≠ '>' ∧ c ≠ '<' := by
  simpa [isOp] using h

theorem blanks_notOp {b : List Char} (hb : b.all isBlank = true) : ∀ c ∈ b, isOp c = false := by
  intro c hm
  have hblank := List.all_eq_true.mp hb c hm
  cases hop : isOp c with
  | false => rfl
  | true =>
    simp only [isOp, decide_eq_true_eq] at hop
    rcases hop with rfl | rfl <;> exact absurd hblank (by decide)

theorem isWordChar_notOp {c : Char} (h : isWordChar c = true) :
    isBlank c = false ∧ isOp c = false := by
  have hd := (isWordChar_spec h).1
  simp only [isDelim, decide_eq_false_iff_not, not_or] at hd
  exact ⟨by simpa using hd.1, by simp [isOp, hd.2.1, hd.2.2]⟩

theorem wordChars_notOp {w : List Char} (hw : w.all isWordChar = true) : ∀ c ∈ w, isOp c = false :=
  fun c hm => (isWordChar_notOp (List.all_eq_true.mp hw c hm)).2

theorem operators_char {glued : Bool} {c : Char} {s : List Char} (hc : isOp c = false) :
    operators glued (c :: s) = operators (!isBlank c) s := by
  rw [operators]
  · rw [hc]
    rfl
  · rintro s' rfl
    exact absurd hc (by decide)

theorem operators_blanks {glued : Bool} {b r : List Char} (hb : b.all isBlank = true) :
    operators glued (b ++ r) = operators (glued && b.isEmpty) r := by
  induction b generalizing glued with
  | nil => simp
  | cons c b ih =>
    rw [List.all_cons, Bool.and_eq_true] at hb
    have hc : isOp c = false := blanks_notOp (b := [c]) (by simpa using hb.1) c List.mem_cons_self
    rw [List.cons_append, operators_char hc, ih hb.2, hb.1]
    simp

theorem operators_wordChars {glued : Bool} {w r : List Char} (hw : w.all isWordChar = true)
    (hne : w ≠ []) : operators glued (w ++ r) = operators true r := by
  induction w generalizing glued with
  | nil => exact absurd rfl hne
  | cons c w ih =>
    rw [List.all_cons, Bool.and_eq_true] at hw
    obtain ⟨hb, hc⟩ := isWordChar_notOp hw.1
    rw [List.cons_append, operators_char hc, hb]
    cases w with
    | nil => rfl
    | cons d w => exact ih hw.2 (List.cons_ne_nil _ _)

/-- An operator at the front of a text. -/
theorem exists_opText {c : Char} {s : List Char} (hc : isOp c = true) :
    ∃ isOut app s', c :: s = opText isOut app ++ s' ∧
      (opText isOut app = ['>'] → s'.head? ≠ some '>') := by
  simp only [isOp, decide_eq_true_eq] at hc
  rcases hc with rfl | rfl
  · by_cases hs : s.head? = some '>'
    · obtain ⟨s', rfl⟩ := List.head?_eq_some_iff.mp hs
      exact ⟨true, true, s', rfl, fun he => by cases he⟩
    · exact ⟨true, false, s, rfl, fun _ => hs⟩
  · exact ⟨false, false, s, rfl, fun he => by cases he⟩

theorem clear_true_head {s : List Char} (h : clear true s = true) : s.head?.any isOp = false := by
  cases s with
  | nil => rfl
  | cons c s =>
    cases hc : isOp c with
    | false => exact hc
    | true =>
      obtain ⟨isOut, app, s', he, happ⟩ := exists_opText (s := s) hc
      rw [he, clear_op happ] at h
      cases h

/-- The front of a line without quotes: blanks, then nothing, an operator, or a word with the byte
behind it. -/
theorem front_cases {L L' : List Char} (hq : ∀ c ∈ L, c ≠ '\'' ∧ c ≠ '"') (h : Spaced L L') :
    (L.all isBlank = true ∧ L' = L) ∨
      (∃ b isOut app b₁ b₂ s t, L = b ++ (opText isOut app ++ s) ∧
        L' = (b ++ b₁) ++ (opText isOut app ++ (b₂ ++ t)) ∧ b.all isBlank = true ∧
        b₁.all isBlank = true ∧ b₁ ≠ [] ∧ b₂.all isBlank = true ∧ b₂ ≠ [] ∧
        (opText isOut app = ['>'] → s.head? ≠ some '>') ∧ Spaced s t) ∨
      ∃ b w r r', L = b ++ (w ++ r) ∧ L' = b ++ (w ++ r') ∧ b.all isBlank = true ∧ w ≠ [] ∧
        w.all isWordChar = true ∧ Ends0 r ∧ Spaced r r' := by
  have hb : (L.takeWhile isBlank).all isBlank = true := List.all_takeWhile
  have hop := blanks_notOp hb
  have hsplit : L = L.takeWhile isBlank ++ L.dropWhile isBlank :=
    (List.takeWhile_append_dropWhile).symm
  obtain ⟨r', hL', hr⟩ := Spaced.append_left hop (hsplit ▸ h)
  cases hd : L.dropWhile isBlank with
  | nil =>
    rw [hd] at hr hsplit
    obtain rfl := hr.nil_left
    refine .inl ⟨?_, by rw [hL', ← hsplit]⟩
    rw [hsplit, List.append_nil]
    exact hb
  | cons c s =>
    have hblank : isBlank c = false := by
      have := List.head_dropWhile_not isBlank (l := L) (by simp [hd])
      simpa [hd] using this
    rw [hd] at hr hsplit
    cases hc : isOp c with
    | true =>
      obtain ⟨isOut, app, b₁, b₂, s', t, he, happ, hb₁, hne₁, hb₂, hne₂, rfl, hst⟩ := hr.op_left hc
      refine .inr (.inl ⟨_, isOut, app, b₁, b₂, s', t, ?_, ?_, hb, hb₁, hne₁, hb₂, hne₂, happ, hst⟩)
      · rw [← he]
        exact hsplit
      · rw [hL', List.append_assoc]
    | false =>
      have hdel : isDelim c = false := by
        obtain ⟨h1, h2⟩ := isOp_false hc
        simp [isDelim, hblank, h1, h2]
      have hcs : c :: s = (c :: s).takeWhile (fun c => !isDelim c) ++
          (c :: s).dropWhile (fun c => !isDelim c) := (List.takeWhile_append_dropWhile).symm
      have hword : ((c :: s).takeWhile fun c => !isDelim c).all isWordChar = true := by
        refine List.all_eq_true.mpr fun x hx => ?_
        have hdx := List.all_eq_true.mp List.all_takeWhile x hx
        have hxL : x ∈ L := hsplit ▸ List.mem_append_right _
          ((List.takeWhile_prefix _).subset hx)
        simpa [isWordChar, hq x hxL] using hdx
      have hends : Ends0 ((c :: s).dropWhile fun c => !isDelim c) := by
        cases hr : (c :: s).dropWhile fun c => !isDelim c with
        | nil => rfl
        | cons d t =>
          have := List.head_dropWhile_not (fun c => !isDelim c) (l := c :: s) (by simp [hr])
          simpa [Ends0, hr] using this
      obtain ⟨r'', rfl, hr''⟩ := Spaced.append_left (wordChars_notOp hword) (hcs ▸ hr)
      refine .inr (.inr ⟨_, _, _, r'', ?_, hL', hb, ?_, hword, hends, hr''⟩)
      · rw [← hcs]
        exact hsplit
      · rw [List.takeWhile_cons_of_pos (by simp [hdel])]
        exact List.cons_ne_nil _ _

/-- The byte behind a word is a blank when it is no operator. -/
theorem Ends0.blank {d : Char} {s : List Char} (h : Ends0 (d :: s)) (hd : isOp d = false) :
    isBlank d = true := by
  have hdel : isDelim d = true := h
  obtain ⟨h1, h2⟩ := isOp_false hd
  simpa [isDelim, h1, h2] using hdel

/-! ## Lines with clear operators -/

/-- When no operator is glued to what stands before it, the blanks change nothing. -/
theorem Spaced.scans {L L' : List Char} {glued : Bool} (hq : ∀ c ∈ L, c ≠ '\'' ∧ c ≠ '"')
    (h : Spaced L L') (hc : clear glued L = true) : ∃ ts, Scans L ts ∧ Scans L' ts := by
  induction hn : L.length using Nat.strongRecOn generalizing L L' glued with
  | _ n ih =>
    have hsub : ∀ {s : List Char}, s <:+ L → ∀ c ∈ s, c ≠ '\'' ∧ c ≠ '"' :=
      fun hs c hm => hq c (hs.subset hm)
    rcases front_cases hq h with ⟨hb, rfl⟩ |
      ⟨b, isOut, app, b₁, b₂, s, t, rfl, rfl, hb, hb₁, hne₁, hb₂, hne₂, happ, hst⟩ |
      ⟨b, w, r, r', rfl, rfl, hb, hne, hw, hends, hr⟩
    · exact ⟨[], .nil hb, .nil hb⟩
    · rw [clear, operators_blanks hb] at hc
      replace hc : clear _ _ = true := hc
      rw [clear_op happ, Bool.and_eq_true] at hc
      have hsuf : s <:+ b ++ (opText isOut app ++ s) :=
        ⟨b ++ opText isOut app, List.append_assoc _ _ _⟩
      have hlt : s.length < n := by
        have := opText_length isOut app
        simp only [List.length_append] at hn
        omega
      obtain ⟨ts, hs, ht⟩ := ih _ hlt (hsub hsuf) hst hc.2 rfl
      have hhead : (b₂ ++ t).head?.any isOp = false := by
        obtain ⟨y, b', rfl⟩ := List.exists_cons_of_ne_nil hne₂
        exact blanks_notOp hb₂ y List.mem_cons_self
      refine ⟨.op isOut app :: ts, .op hb isOut app (clear_true_head hc.2) hs,
        .op ?_ isOut app hhead (ht.blanks hb₂)⟩
      rw [List.all_append, hb, hb₁]
      rfl
    · rw [clear, operators_blanks hb, operators_wordChars hw hne] at hc
      replace hc : clear true r = true := hc
      cases r with
      | nil =>
        obtain rfl := hr.nil_left
        exact ⟨[.word w], .word hb hne hw hends (.nil rfl), .word hb hne hw hends (.nil rfl)⟩
      | cons d s =>
        have hd : isOp d = false := clear_true_head hc
        have hblank := hends.blank hd
        obtain ⟨s', rfl, hs'⟩ := Spaced.append_left (w := [d]) (by simpa using hd) hr
        rw [clear, operators_char hd, hblank] at hc
        have hsuf : s <:+ b ++ (w ++ d :: s) := ⟨b ++ (w ++ [d]), by simp⟩
        have hlt : s.length < n := by
          simp only [List.length_append, List.length_cons] at hn
          omega
        obtain ⟨ts, hs, ht⟩ := ih _ hlt (hsub hsuf) hs' hc rfl
        exact ⟨.word w :: ts, .word hb hne hw hends hs, .word hb hne hw hends ht⟩

/-! ## Lines whose operators have names -/

def nameNext (s : List Char) : Bool := (s.dropWhile isBlank).head?.any fun c => !isOp c

/-- A name stands behind every operator. -/
def named : List Char → Bool
  | [] => true
  | '>' :: '>' :: s => nameNext s && named s
  | c :: s => (!isOp c || nameNext s) && named s

theorem named_op {isOut app : Bool} {s : List Char}
    (happ : opText isOut app = ['>'] → s.head? ≠ some '>') :
    named (opText isOut app ++ s) = (nameNext s && named s) := by
  cases isOut <;> cases app
  · rfl
  · rfl
  · cases s with
    | nil => rfl
    | cons d s =>
      have hd : d ≠ '>' := fun he => happ rfl (by rw [he]; rfl)
      rw [opText, List.singleton_append, named]
      · rfl
      · intro s' _ he
        exact absurd (List.cons.inj he).1 hd
  · rfl

theorem named_append {w r : List Char} (hw : ∀ c ∈ w, isOp c = false) :
    named (w ++ r) = named r := by
  induction w with
  | nil => rfl
  | cons c w ih =>
    have hc := hw c List.mem_cons_self
    rw [List.cons_append, named]
    · rw [hc, ih fun c hm => hw c (List.mem_cons_of_mem _ hm)]
      rfl
    · rintro s' rfl
      exact absurd hc (by decide)

theorem wordCount_blanks {b r : List Char} (hb : b.all isBlank = true) :
    wordCount false (b ++ r) = wordCount false r := by
  induction b with
  | nil => rfl
  | cons c b ih =>
    rw [List.all_cons, Bool.and_eq_true] at hb
    have hd : isDelim c = true := by simp [isDelim, hb.1]
    rw [List.cons_append, wordCount, if_pos hd, ih hb.2]

theorem wordCount_op (isOut app : Bool) (s : List Char) :
    wordCount false (opText isOut app ++ s) = wordCount false s := by
  cases isOut <;> cases app <;> rfl

theorem wordCount_ends {r : List Char} (h : Ends0 r) : wordCount true r = wordCount false r := by
  cases r with
  | nil => rfl
  | cons d s =>
    have hd : isDelim d = true := h
    rw [wordCount, wordCount, if_pos hd, if_pos hd]

theorem wordCount_word {w r : List Char} (hw : w.all isWordChar = true) (hne : w ≠ [])
    (h : Ends0 r) : wordCount false (w ++ r) = wordCount false r + 1 := by
  have hin : ∀ v : List Char, v.all isWordChar = true →
      wordCount true (v ++ r) = wordCount false r := by
    intro v hv
    induction v with
    | nil => exact wordCount_ends h
    | cons c v ih =>
      rw [List.all_cons, Bool.and_eq_true] at hv
      have hd := (isWordChar_spec hv.1).1
      rw [List.cons_append, wordCount, hd, ih hv.2]
      simp
  cases w with
  | nil => exact absurd rfl hne
  | cons c v =>
    rw [List.all_cons, Bool.and_eq_true] at hw
    have hd := (isWordChar_spec hw.1).1
    rw [List.cons_append, wordCount, hd, hin v hw.2, Nat.add_comm]
    rfl

/-- A word of the line, with the operator that it is the name of. -/
structure Entry where
  op : Option Operator
  text : List Char

namespace Entry

/-- What the entry is. -/
def full (e : Entry) : List Tok :=
  match e.op with
  | none => [.word e.text]
  | some o => [.op o.isOut o.app, .word e.text]

/-- What is read of it: of an operator that is glued, only the second byte of `>>`. -/
def kept (e : Entry) : List Tok :=
  match e.op with
  | none => [.word e.text]
  | some o =>
    if !o.glued then [.op o.isOut o.app, .word e.text]
    else if o.isOut && o.app then [.op true false, .word e.text]
    else [.word e.text]

end Entry

/-- `K` is read as the operators that are not lost allow, `F` is read in full. -/
def Paired (K F : List Char) (os : List Operator) (k : Nat) : Prop :=
  ∃ es : List Entry, Scans K (es.flatMap Entry.kept) ∧ Scans F (es.flatMap Entry.full) ∧
    es.filterMap Entry.op = os ∧ es.length = k

namespace Paired

variable {b b₁ b₂ w r r' : List Char} {os : List Operator} {k : Nat}

theorem word (hb : b.all isBlank = true) (hw : w.all isWordChar = true) (hne : w ≠ [])
    (h : Ends0 r) (h' : Ends0 r') (H : Paired r.tail r'.tail os k) :
    Paired (b ++ (w ++ r)) (b ++ (w ++ r')) os (k + 1) := by
  obtain ⟨es, hk, hf, hos, hlen⟩ := H
  exact ⟨⟨none, w⟩ :: es, .word hb hne hw h hk, .word hb hne hw h' hf, hos, by simp [hlen]⟩

theorem head_word {b w r : List Char} (hb : b.all isBlank = true) (hw : w.all isWordChar = true)
    (hne : w ≠ []) : (b ++ (w ++ r)).head?.any isOp = false := by
  cases b with
  | nil =>
    obtain ⟨c, v, rfl⟩ := List.exists_cons_of_ne_nil hne
    exact wordChars_notOp hw c List.mem_cons_self
  | cons c b => exact blanks_notOp hb c List.mem_cons_self

/-- A redirection that is read. -/
theorem redir {b' : List Char} (isOut app : Bool) (hb : b.all isBlank = true)
    (hb' : b'.all isBlank = true) (hb₁ : b₁.all isBlank = true) (hb₂ : b₂.all isBlank = true)
    (hw : w.all isWordChar = true) (hne : w ≠ []) (h : Ends0 r) (h' : Ends0 r')
    (H : Paired r.tail r'.tail os k) :
    Paired (b ++ (opText isOut app ++ (b₁ ++ (w ++ r))))
      (b' ++ (opText isOut app ++ (b₂ ++ (w ++ r')))) (⟨isOut, isOut && app, false⟩ :: os)
      (k + 1) := by
  obtain ⟨es, hk, hf, hos, hlen⟩ := H
  have happ : opText isOut app = opText isOut (isOut && app) := by cases isOut <;> rfl
  rw [happ]
  refine ⟨⟨some ⟨isOut, isOut && app, false⟩, w⟩ :: es, ?_, ?_, ?_, ?_⟩
  · exact .op hb _ _ (head_word hb₁ hw hne) (.word hb₁ hne hw h hk)
  · exact .op hb' _ _ (head_word hb₂ hw hne) (.word hb₂ hne hw h' hf)
  · exact congrArg (_ :: ·) hos
  · rw [List.length_cons, hlen]

/-- A redirection whose first byte is lost. -/
theorem glued {b' : List Char} (isOut app : Bool) (hb' : b'.all isBlank = true)
    (hb₁ : b₁.all isBlank = true) (hb₂ : b₂.all isBlank = true) (hw : w.all isWordChar = true)
    (hne : w ≠ []) (h : Ends0 r) (h' : Ends0 r') (H : Paired r.tail r'.tail os k) :
    Paired ((opText isOut app ++ (b₁ ++ (w ++ r))).tail)
      (b' ++ (opText isOut app ++ (b₂ ++ (w ++ r')))) (⟨isOut, isOut && app, true⟩ :: os)
      (k + 1) := by
  obtain ⟨es, hk, hf, hos, hlen⟩ := H
  obtain ⟨s, hs, hs'⟩ := Parse.opText_head isOut app
  have happ : opText isOut app = opText isOut (isOut && app) := by cases isOut <;> rfl
  have hhead := head_word (r := r) hb₁ hw hne
  refine ⟨⟨some ⟨isOut, isOut && app, true⟩, w⟩ :: es, ?_, ?_, ?_, ?_⟩
  · have htail : (opText isOut app ++ (b₁ ++ (w ++ r))).tail = s ++ (b₁ ++ (w ++ r)) := by
      rw [hs]
      rfl
    rw [htail, hs', List.flatMap_cons, Entry.kept]
    cases hboth : isOut && app with
    | false =>
      simp only [Bool.and_false, Bool.not_true, Bool.false_eq_true, if_false]
      exact .word hb₁ hne hw h hk
    | true =>
      obtain ⟨rfl, rfl⟩ := Bool.and_eq_true_iff.mp hboth
      exact .op (b := []) rfl true false hhead (.word hb₁ hne hw h hk)
  · rw [happ]
    exact .op hb' _ _ (head_word hb₂ hw hne) (.word hb₂ hne hw h' hf)
  · exact congrArg (_ :: ·) hos
  · rw [List.length_cons, hlen]

end Paired

theorem Spaced.ends0 {r r' : List Char} (h : Spaced r r') (he : Ends0 r) : Ends0 r' := by
  cases h with
  | nil => rfl
  | char hc h => exact he
  | op isOut app happ hb hne =>
    obtain ⟨d, b, rfl⟩ := List.exists_cons_of_ne_nil hne
    rw [List.all_cons, Bool.and_eq_true] at hb
    have hd : isDelim d = true := by simp [isDelim, hb.1]
    exact hd

theorem named_word {b w r : List Char} (hb : b.all isBlank = true) (hw : w.all isWordChar = true) :
    named (b ++ (w ++ r)) = named r := by
  rw [named_append (blanks_notOp hb), named_append (wordChars_notOp hw)]

theorem length_behind_word (b : List Char) {w : List Char} (r : List Char) (hne : w ≠ []) :
    r.length < (b ++ (w ++ r)).length := by
  have hpos := List.length_pos_iff.mpr hne
  rw [List.length_append, List.length_append]
  omega

/-- What stands behind an operator that has a name. -/
theorem name_cases {s t : List Char} (hq : ∀ c ∈ s, c ≠ '\'' ∧ c ≠ '"') (h : Spaced s t)
    (hn : nameNext s = true) : ∃ b w r r', s = b ++ (w ++ r) ∧ t = b ++ (w ++ r') ∧
      b.all isBlank = true ∧ w ≠ [] ∧ w.all isWordChar = true ∧ Ends0 r ∧ Spaced r r' := by
  rcases front_cases hq h with ⟨hb, -⟩ | ⟨b, isOut, app, b₁, b₂, s', t', rfl, -, hb, -⟩ | H
  · have hdrop : s.dropWhile isBlank = [] :=
      List.dropWhile_eq_nil_iff.mpr (List.all_eq_true.mp hb)
    rw [nameNext, hdrop] at hn
    cases hn
  · obtain ⟨c, s₀, hs, hc⟩ := opText_isOp isOut app s'
    have hblank : isBlank c = false := by
      cases hbl : isBlank c with
      | false => rfl
      | true =>
        have := blanks_notOp (b := [c]) (by simpa using hbl) c List.mem_cons_self
        rw [hc] at this
        cases this
    rw [nameNext, List.dropWhile_append_of_pos (List.all_eq_true.mp hb), hs,
      List.dropWhile_cons_of_neg (by simp [hblank]), List.head?_cons, Option.any_some, hc] at hn
    cases hn
  · exact H

/-- A line whose operators have names, and the line with the blanks: from the front, and from
behind a word, where one byte is skipped. -/
theorem Spaced.paired {L L' : List Char} (hq : ∀ c ∈ L, c ≠ '\'' ∧ c ≠ '"') (h : Spaced L L')
    (hn : named L = true) : Paired L L' (operators false L) (wordCount false L) ∧
      (Ends0 L → Paired L.tail L'.tail (operators true L) (wordCount false L)) := by
  induction hlen : L.length using Nat.strongRecOn generalizing L L' with
  | _ n ih =>
    have hsub : ∀ {s : List Char}, s <:+ L → ∀ c ∈ s, c ≠ '\'' ∧ c ≠ '"' :=
      fun hs c hm => hq c (hs.subset hm)
    constructor
    · rcases front_cases hq h with ⟨hb, rfl⟩ |
        ⟨b, isOut, app, b₁, b₂, s, t, rfl, rfl, hb, hb₁, hne₁, hb₂, hne₂, happ, hst⟩ |
        ⟨b, w, r, r', rfl, rfl, hb, hne, hw, hends, hr⟩
      · have hcount := wordCount_blanks (r := []) hb
        have hops : operators false (_ ++ []) = _ := operators_blanks hb
        rw [List.append_nil] at hcount hops
        rw [hcount, hops]
        exact ⟨[], .nil hb, .nil hb, rfl, rfl⟩
      · rw [named_append (blanks_notOp hb), named_op happ, Bool.and_eq_true] at hn
        have hsuf : s <:+ b ++ (opText isOut app ++ s) :=
          ⟨b ++ opText isOut app, List.append_assoc _ _ _⟩
        obtain ⟨b₃, w, r, r', rfl, rfl, hb₃, hne, hw, hends, hr⟩ := name_cases (hsub hsuf) hst hn.1
        have hnr : named r = true := named_word hb₃ hw ▸ hn.2
        have hlt : r.length < n := by
          have hshort := length_behind_word b₃ r hne
          rw [List.length_append, List.length_append] at hlen
          omega
        have hsuf' : r <:+ b ++ (opText isOut app ++ (b₃ ++ (w ++ r))) :=
          ⟨b ++ (opText isOut app ++ (b₃ ++ w)), by simp⟩
        obtain ⟨-, H⟩ := ih _ hlt (hsub hsuf') hr hnr rfl
        rw [wordCount_blanks hb, wordCount_op, wordCount_blanks hb₃, wordCount_word hw hne hends,
          operators_blanks hb, operators_op happ, operators_blanks hb₃, operators_wordChars hw hne,
          ← List.append_assoc b₂]
        exact .redir isOut app hb (by rw [List.all_append, hb, hb₁]; rfl) hb₃
          (by rw [List.all_append, hb₂, hb₃]; rfl) hw hne hends (hr.ends0 hends) (H hends)
      · have hnr : named r = true := named_word hb hw ▸ hn
        have hlt : r.length < n := hlen ▸ length_behind_word b r hne
        have hsuf : r <:+ b ++ (w ++ r) := ⟨b ++ w, List.append_assoc _ _ _⟩
        obtain ⟨-, H⟩ := ih _ hlt (hsub hsuf) hr hnr rfl
        rw [wordCount_blanks hb, wordCount_word hw hne hends, operators_blanks hb,
          operators_wordChars hw hne]
        exact .word hb hw hne hends (hr.ends0 hends) (H hends)
    · intro hends
      cases L with
      | nil =>
        obtain rfl := h.nil_left
        exact ⟨[], .nil rfl, .nil rfl, rfl, rfl⟩
      | cons d s =>
        cases hd : isOp d with
        | false =>
          have hblank := hends.blank hd
          have hdel : isDelim d = true := hends
          obtain ⟨t, rfl, ht⟩ := Spaced.append_left (w := [d]) (by simpa using hd) h
          have hns : named s = true := by
            rw [← named_append (w := [d]) (by simpa using hd)]
            exact hn
          have hlt : s.length < n := by
            rw [List.length_cons] at hlen
            omega
          obtain ⟨H, -⟩ := ih _ hlt (hsub (List.suffix_cons d s)) ht hns rfl
          rw [operators_char hd, hblank, wordCount, if_pos hdel]
          exact H
        | true =>
          obtain ⟨isOut, app, b₁, b₂, s', t, he, happ, hb₁, hne₁, hb₂, hne₂, rfl, hst⟩ :=
            h.op_left hd
          rw [he, named_op happ, Bool.and_eq_true] at hn
          have hsuf : s' <:+ d :: s := ⟨opText isOut app, he.symm⟩
          obtain ⟨b₃, w, r, r', rfl, rfl, hb₃, hne, hw, hends', hr⟩ :=
            name_cases (hsub hsuf) hst hn.1
          have hnr : named r = true := named_word hb₃ hw ▸ hn.2
          have hlt : r.length < n := by
            have hshort := length_behind_word b₃ r hne
            rw [he, List.length_append] at hlen
            omega
          have hsuf' : r <:+ d :: s := ⟨opText isOut app ++ (b₃ ++ w), by rw [he]; simp⟩
          obtain ⟨-, H⟩ := ih _ hlt (hsub hsuf') hr hnr rfl
          -- the byte that is skipped in the spaced line is a blank
          obtain ⟨x, b₀, rfl⟩ := List.exists_cons_of_ne_nil hne₁
          rw [List.all_cons, Bool.and_eq_true] at hb₁
          rw [he, wordCount_op, wordCount_blanks hb₃, wordCount_word hw hne hends',
            operators_op happ, operators_blanks hb₃, operators_wordChars hw hne,
            ← List.append_assoc b₂]
          exact .glued isOut app hb₁.2 hb₃ (by rw [List.all_append, hb₂, hb₃]; rfl) hw hne hends'
            (hr.ends0 hends') (H hends')

/-! ## Reading the entries -/

namespace Entry

def isPlain (e : Entry) : Bool := e.op.isNone

/-- An operator whose name is read as an item. -/
def isLost (e : Entry) : Bool := e.op.any fun o => o.glued && !(o.isOut && o.app)

end Entry

/-- The append flag after the redirections. -/
def lastAppend (f : Operator → Bool) (a : Bool) (os : List Operator) : Bool :=
  os.foldl (fun a o => if o.isOut then f o else a) a

/-- Of the operators that are glued to something, nothing is lost that matters: each is a `>>`, and
is not the last output redirection. -/
structure OperatorsKept (os : List Operator) : Prop where
  append : ∀ o ∈ os, o.glued = true → (o.isOut && o.app) = true
  last : ∀ o, (os.filter Operator.isOut).getLast? = some o → o.glued = false

theorem lastAppend_eq (f : Operator → Bool) (a : Bool) (os : List Operator) :
    lastAppend f a os = (((os.filter Operator.isOut).getLast?).map f).getD a := by
  induction os generalizing a with
  | nil => rfl
  | cons o os ih =>
    have hcons : lastAppend f a (o :: os) = lastAppend f (if o.isOut then f o else a) os := rfl
    rw [hcons, ih]
    cases ho : o.isOut with
    | false => rw [List.filter_cons_of_neg (by simp [ho])]; rfl
    | true =>
      rw [List.filter_cons_of_pos ho, List.getLast?_cons]
      cases (os.filter Operator.isOut).getLast? <;> rfl

/-- The append flag comes out the same exactly when the last output redirection is read in full. -/
theorem operatorsKept_iff {os : List Operator}
    (h : ∀ o ∈ os, o.glued = true → (o.isOut && o.app) = true) :
    OperatorsKept os ↔
      lastAppend (fun o => o.app && !o.glued) false os = lastAppend Operator.app false os := by
  rw [lastAppend_eq, lastAppend_eq]
  constructor
  · intro H
    cases hlast : (os.filter Operator.isOut).getLast? with
    | none => rfl
    | some o => simp [H.last o hlast]
  · refine fun he => ⟨h, fun o ho => ?_⟩
    rw [ho] at he
    have hmem : o ∈ os := (List.mem_filter.mp (List.mem_of_getLast? ho)).1
    cases hg : o.glued with
    | false => rfl
    | true =>
      have happ := (Bool.and_eq_true_iff.mp (h o hmem hg)).2
      simp [hg, happ] at he

theorem redirect_append (cl : Cmdline (List Char)) (isOut app : Bool) (w : List Char) :
    (cl.redirect isOut app w).outAppend = if isOut then app else cl.outAppend := by
  cases isOut <;> rfl

theorem filterMap_op (e : Entry) (es : List Entry) :
    (e :: es).filterMap Entry.op = e.op.toList ++ es.filterMap Entry.op := by
  obtain ⟨_ | o, w⟩ := e <;> rfl

/-- A word that is an item. -/
def pushWord (code : Fin 256) (w : List Char) (cl : Cmdline (List Char)) (ram : Ram) :
    Option (Cmdline (List Char) × Ram) :=
  if Fits code 0 (pieces 0 w).1 then
    let tok := wordOf code (pieces 0 w).1
    let (copy, ram) := expandTilde tok ram
    some (cl.push (copy.getD tok), ram)
  else none

/-- Reads an entry in full, or as much of it as is kept. -/
def Entry.read (code : Fin 256) (keeps : Bool) (x : Cmdline (List Char) × Ram) (e : Entry) :
    Option (Cmdline (List Char) × Ram) :=
  match e.op with
  | none => pushWord code e.text x.1 x.2
  | some o =>
    if keeps && o.glued then
      if o.isOut && o.app then some (x.1.redirect true false e.text, x.2)
      else pushWord code e.text x.1 x.2
    else some (x.1.redirect o.isOut o.app e.text, x.2)

theorem readToks_word {ts : List Tok} (w : List Char) (hlen : cl.items.length < 63) :
    readToks code none (.word w :: ts) cl ram =
      (pushWord code w cl ram).bind fun x => readToks code none ts x.1 x.2 := by
  rw [readToks, if_neg (Nat.not_le.mpr hlen), pushWord]
  split <;> rfl

theorem readToks_op {ts : List Tok} (isOut app : Bool) (w : List Char)
    (hlen : cl.items.length < 63) : readToks code none (.op isOut app :: .word w :: ts) cl ram =
      readToks code none ts (cl.redirect isOut app w) ram := by
  rw [readToks, if_neg (Nat.not_le.mpr hlen)]
  rfl

theorem Entry.readToks_full (e : Entry) {ts : List Tok} (hlen : cl.items.length < 63) :
    readToks code none (e.full ++ ts) cl ram =
      (e.read code false (cl, ram)).bind fun x => readToks code none ts x.1 x.2 := by
  obtain ⟨_ | o, w⟩ := e
  · exact readToks_word w hlen
  · exact readToks_op o.isOut o.app w hlen

theorem Entry.readToks_kept (e : Entry) {ts : List Tok} (hlen : cl.items.length < 63) :
    readToks code none (e.kept ++ ts) cl ram =
      (e.read code true (cl, ram)).bind fun x => readToks code none ts x.1 x.2 := by
  obtain ⟨_ | ⟨isOut, app, glued⟩, w⟩ := e
  · exact readToks_word w hlen
  · cases glued with
    | false => exact readToks_op isOut app w hlen
    | true =>
      simp only [Entry.kept, Entry.read]
      cases isOut && app with
      | false => exact readToks_word w hlen
      | true => exact readToks_op true false w hlen

/-! ### What one entry changes -/

theorem pushWord_spec {w : List Char} {x : Cmdline (List Char) × Ram}
    (h : pushWord code w cl ram = some x) :
    x.1.items.length = cl.items.length + 1 ∧ x.1.outAppend = cl.outAppend := by
  rw [pushWord] at h
  split at h
  · obtain rfl := Option.some.inj h
    exact ⟨List.length_append, rfl⟩
  · cases h

theorem pushWord_append (w : List Char) (a : Bool) :
    pushWord code w { cl with outAppend := a } ram =
      (pushWord code w cl ram).map fun x => ({ x.1 with outAppend := a }, x.2) := by
  rw [pushWord, pushWord]
  split <;> rfl

namespace Entry

variable {e : Entry} {es : List Entry} {x y : Cmdline (List Char) × Ram} {keeps : Bool}

theorem read_items (h : e.read code keeps x = some y) : y.1.items.length =
    x.1.items.length + if e.isPlain || (keeps && e.isLost) then 1 else 0 := by
  obtain ⟨_ | ⟨isOut, app, glued⟩, w⟩ := e
  · exact (pushWord_spec h).1
  · have hif : (isPlain ⟨some ⟨isOut, app, glued⟩, w⟩ ||
        (keeps && isLost ⟨some ⟨isOut, app, glued⟩, w⟩)) =
        ((keeps && glued) && !(isOut && app)) := (Bool.and_assoc ..).symm
    rw [hif]
    simp only [Entry.read] at h
    cases hk : keeps && glued with
    | false =>
      rw [hk] at h
      obtain rfl := Option.some.inj h
      simp
    | true =>
      rw [hk] at h
      cases hboth : isOut && app with
      | false =>
        rw [hboth] at h
        exact (pushWord_spec h).1
      | true =>
        rw [hboth] at h
        obtain rfl := Option.some.inj h
        simp

theorem read_append (h : e.read code false x = some y) :
    y.1.outAppend = lastAppend Operator.app x.1.outAppend e.op.toList := by
  obtain ⟨_ | o, w⟩ := e
  · exact (pushWord_spec h).2
  · obtain rfl := Option.some.inj h
    exact redirect_append x.1 o.isOut o.app w

/-- Only the append flag tells the two readings apart. -/
theorem read_kept (code : Fin 256)
    (h : ∀ o, e.op = some o → o.glued = true → (o.isOut && o.app) = true) (a : Bool) :
    e.read code true ({ x.1 with outAppend := a }, x.2) = (e.read code false x).map fun y =>
      ({ y.1 with outAppend := lastAppend (fun o => o.app && !o.glued) a e.op.toList }, y.2) := by
  obtain ⟨_ | ⟨isOut, app, glued⟩, w⟩ := e
  · exact pushWord_append w a
  · cases glued with
    | false => cases isOut <;> cases app <;> rfl
    | true =>
      obtain ⟨rfl, rfl⟩ := Bool.and_eq_true_iff.mp (h _ rfl rfl)
      rfl

end Entry

/-! ### Whole lines -/

/-- Reads the entries of a line. -/
def readAll (code : Fin 256) (keeps : Bool) (es : List Entry) (x : Cmdline (List Char) × Ram) :
    Option (Cmdline (List Char) × Ram) :=
  es.foldlM (Entry.read code keeps) x

section

variable {es : List Entry} {x y : Cmdline (List Char) × Ram} {keeps : Bool}

theorem readAll_items (h : readAll code keeps es x = some y) : y.1.items.length =
    x.1.items.length + es.countP fun e => e.isPlain || (keeps && e.isLost) := by
  induction es generalizing x with
  | nil =>
    obtain rfl := Option.some.inj h
    rfl
  | cons e es ih =>
    obtain ⟨z, hz, hy⟩ := Option.bind_eq_some_iff.mp h
    rw [ih hy, Entry.read_items hz, List.countP_cons]
    omega

theorem readAll_append (h : readAll code false es x = some y) :
    y.1.outAppend = lastAppend Operator.app x.1.outAppend (es.filterMap Entry.op) := by
  induction es generalizing x with
  | nil =>
    obtain rfl := Option.some.inj h
    rfl
  | cons e es ih =>
    obtain ⟨z, hz, hy⟩ := Option.bind_eq_some_iff.mp h
    rw [ih hy, Entry.read_append hz, filterMap_op, lastAppend, lastAppend, lastAppend,
      List.foldl_append]

theorem readAll_kept (code : Fin 256)
    (h : ∀ o ∈ es.filterMap Entry.op, o.glued = true → (o.isOut && o.app) = true) (a : Bool) :
    readAll code true es ({ x.1 with outAppend := a }, x.2) = (readAll code false es x).map fun y =>
      ({ y.1 with outAppend :=
        lastAppend (fun o => o.app && !o.glued) a (es.filterMap Entry.op) }, y.2) := by
  induction es generalizing x a with
  | nil => rfl
  | cons e es ih =>
    rw [filterMap_op] at h ⊢
    have he := Entry.read_kept code (e := e) (x := x)
      (fun o ho => h o (List.mem_append_left _ (by rw [ho]; exact List.mem_singleton_self o))) a
    rw [readAll, readAll, List.foldlM_cons, List.foldlM_cons, he]
    cases e.read code false x with
    | none => rfl
    | some z =>
      have := ih (x := z) (fun o ho => h o (List.mem_append_right _ ho))
        (lastAppend (fun o => o.app && !o.glued) a e.op.toList)
      rw [readAll, readAll] at this
      refine this.trans ?_
      simp only [lastAppend, List.foldl_append]
      rfl

/-- The tokens of the entries, below the limit of 63 items. -/
theorem readToks_entries {toks : Entry → List Tok}
    (hread : ∀ e ts (cl : Cmdline (List Char)) ram, cl.items.length < 63 →
      readToks code none (toks e ++ ts) cl ram =
        (e.read code keeps (cl, ram)).bind fun x => readToks code none ts x.1 x.2)
    (hlen : cl.items.length + es.length < 63) :
    readToks code none (es.flatMap toks) cl ram = readAll code keeps es (cl, ram) := by
  induction es generalizing cl ram with
  | nil => rfl
  | cons e es ih =>
    rw [List.length_cons] at hlen
    rw [List.flatMap_cons, hread _ _ _ _ (by omega), readAll, List.foldlM_cons]
    cases he : e.read code keeps (cl, ram) with
    | none => rfl
    | some y =>
      have hy := Entry.read_items he
      have hle : y.1.items.length ≤ cl.items.length + 1 := by
        rw [hy]
        exact Nat.add_le_add_left (by split <;> omega) _
      exact ih (by omega)

end

/-! ## The spacing in the shell -/

/-- What `tokenize` returns, with the texts of the items. -/
def tokenizeTexts (code : Fin 256) (line : Buf) (ram : Ram) : Option (Cmdline (List Char)) :=
  (tokenize code line ram).map fun r => r.2.1.map (Item.text r.1)

theorem tokenizeTexts_eq {text T : List Char} (h : NUL ∉ text) :
    tokenizeTexts code (text ++ NUL :: T) ram = (parseInPlace code text ram).map Prod.fst := by
  cases hp : parseInPlace code text ram with
  | none =>
    rw [tokenizeTexts, tokenize_eq_none h hp]
    rfl
  | some r =>
    obtain ⟨A, cl, -, ht, hcl⟩ := tokenize_eq_some (T := T) h hp
    rw [tokenizeTexts, ht]
    exact congrArg some hcl

theorem Spaced.exists (L : List Char) : ∃ L', Spaced L L' := by
  have hblank : [' '].all isBlank = true := rfl
  induction L using named.induct with
  | case1 => exact ⟨_, .nil⟩
  | case2 s ih =>
    obtain ⟨t, ht⟩ := ih
    exact ⟨_, .op true true (fun he => by cases he) hblank (List.cons_ne_nil _ _) hblank
      (List.cons_ne_nil _ _) ht⟩
  | case3 c s hno ih =>
    obtain ⟨t, ht⟩ := ih
    cases hc : isOp c with
    | false => exact ⟨_, .char hc ht⟩
    | true =>
      simp only [isOp, decide_eq_true_eq] at hc
      rcases hc with rfl | rfl
      · refine ⟨_, .op true false (fun _ hs => ?_) hblank (List.cons_ne_nil _ _) hblank
          (List.cons_ne_nil _ _) ht⟩
        obtain ⟨s', rfl⟩ := List.head?_eq_some_iff.mp hs
        exact hno s' rfl rfl
      · exact ⟨_, .op false false (fun he => by cases he) hblank (List.cons_ne_nil _ _) hblank
          (List.cons_ne_nil _ _) ht⟩

theorem Spaced.nul {L L' : List Char} (h : Spaced L L') (hL : NUL ∉ L) : NUL ∉ L' := by
  have hblank : ∀ {b : List Char}, b.all isBlank = true → NUL ∉ b := by
    intro b hb hm
    exact absurd (List.all_eq_true.mp hb _ hm) (by decide)
  induction h with
  | nil => exact hL
  | char hc h ih =>
    rw [List.mem_cons, not_or] at hL ⊢
    exact ⟨hL.1, ih hL.2⟩
  | op isOut app happ hb hne hb' hne' h ih =>
    rw [List.mem_append, not_or] at hL
    simp only [List.mem_append, not_or]
    exact ⟨hblank hb, hL.1, hblank hb', ih hL.2⟩

/-- Whether blanks around the operators of the line make no difference. -/
def SpacingKept (code : Fin 256) (L : List Char) (ram : Ram) : Prop :=
  ∀ L', Spaced L L' → ∀ T T',
    tokenizeTexts code (L' ++ NUL :: T') ram = tokenizeTexts code (L ++ NUL :: T) ram

theorem spacingKept_of_clear {L : List Char} (hq : ∀ c ∈ L, c ≠ '\'' ∧ c ≠ '"') (hL : NUL ∉ L)
    (hc : clear false L = true) : SpacingKept code L ram := by
  intro L' h T T'
  obtain ⟨ts, hs, hs'⟩ := h.scans hq hc
  rw [tokenizeTexts_eq hL, tokenizeTexts_eq (h.nul hL), hs.parseInPlace, hs'.parseInPlace]

theorem Entry.isLost_plain {e : Entry} (h : e.isLost = true) : e.isPlain = false := by
  obtain ⟨_ | o, w⟩ := e
  · cases h
  · rfl

/-- The names of lost operators are items more. -/
theorem countP_lost {es : List Entry} (h : ∃ e ∈ es, e.isLost = true) :
    (es.countP fun e => e.isPlain || (false && e.isLost)) <
      es.countP fun e => e.isPlain || (true && e.isLost) := by
  induction es with
  | nil =>
    obtain ⟨e, hm, -⟩ := h
    cases hm
  | cons e es ih =>
    have hle : (es.countP fun e => e.isPlain || (false && e.isLost)) ≤
        es.countP fun e => e.isPlain || (true && e.isLost) := by
      refine List.countP_mono_left fun e _ he => ?_
      rw [Bool.false_and, Bool.or_false] at he
      rw [he]
      rfl
    rw [List.countP_cons, List.countP_cons]
    cases hl : e.isLost with
    | true =>
      rw [Entry.isLost_plain hl]
      simp only [Bool.false_and, Bool.true_and, Bool.or_false, Bool.or_true, if_true] at hle ⊢
      simp only [Bool.false_eq_true, if_false]
      omega
    | false =>
      obtain ⟨e', hm, he'⟩ := h
      have hm' : e' ∈ es := by
        rcases List.mem_cons.mp hm with rfl | hm
        · rw [hl] at he'
          cases he'
        · exact hm
      have := ih ⟨e', hm', he'⟩
      simp only [Bool.false_and, Bool.true_and, Bool.or_false] at this ⊢
      omega

/-- On a line whose operators have names, the blanks make no difference exactly when the operators
that are glued to something are `>>` and do not decide how the output is opened. -/
theorem spacingKept_iff_of_named {L : List Char} (hq : ∀ c ∈ L, c ≠ '\'' ∧ c ≠ '"') (hL : NUL ∉ L)
    (hn : named L = true) (hcount : wordCount false L < 60)
    (hsome : (parseInPlace code L ram).isSome = true) :
    SpacingKept code L ram ↔ OperatorsKept (operators false L) := by
  have hread : ∀ L', Spaced L L' → ∃ es : List Entry, es.filterMap Entry.op = operators false L ∧
      parseInPlace code L ram = readAll code true es (.empty, ram) ∧
      parseInPlace code L' ram = readAll code false es (.empty, ram) := by
    intro L' h
    obtain ⟨⟨es, hk, hf, hos, hlen⟩, -⟩ := h.paired hq hn
    have hlt : (Cmdline.empty (ι := List Char)).items.length + es.length < 63 := by
      rw [hlen]
      exact Nat.lt_of_lt_of_le (by simpa [Cmdline.empty] using hcount) (by decide)
    refine ⟨es, hos, ?_, ?_⟩
    · rw [hk.parseInPlace, readToks_entries (fun e ts cl ram => e.readToks_kept) hlt]
    · rw [hf.parseInPlace, readToks_entries (fun e ts cl ram => e.readToks_full) hlt]
  have hkept : ∀ {es : List Entry} {y : Cmdline (List Char) × Ram},
      (∀ o ∈ es.filterMap Entry.op, o.glued = true → (o.isOut && o.app) = true) →
      readAll code false es (.empty, ram) = some y →
      readAll code true es (.empty, ram) = some ({ y.1 with
        outAppend := lastAppend (fun o => o.app && !o.glued) false (es.filterMap Entry.op) }, y.2) ∧
      y.1.outAppend = lastAppend Operator.app false (es.filterMap Entry.op) := by
    intro es y hos hy
    refine ⟨?_, readAll_append hy⟩
    have := readAll_kept code (x := (.empty, ram)) hos false
    rw [hy] at this
    exact this
  constructor
  · intro H
    obtain ⟨L', hL'⟩ := Spaced.exists L
    obtain ⟨es, hos, hk, hf⟩ := hread L' hL'
    have he := H L' hL' [] []
    rw [tokenizeTexts_eq hL, tokenizeTexts_eq (hL'.nul hL), hk, hf] at he
    obtain ⟨z, hz⟩ := Option.isSome_iff_exists.mp hsome
    rw [hk] at hz
    rw [hz] at he
    obtain ⟨y, hy, hyz⟩ := Option.map_eq_some_iff.mp he
    have happ : ∀ o ∈ es.filterMap Entry.op, o.glued = true → (o.isOut && o.app) = true := by
      intro o ho hg
      by_contra hno
      obtain ⟨e, hm, heo⟩ := List.mem_filterMap.mp ho
      have hlost : e.isLost = true := by
        rw [Entry.isLost, heo, Option.any_some, hg, Bool.eq_false_of_not_eq_true hno]
        rfl
      have hlt := countP_lost ⟨e, hm, hlost⟩
      have h1 := readAll_items hy
      have h2 := readAll_items hz
      rw [hyz] at h1
      omega
    obtain ⟨hy1, hy2⟩ := hkept happ hy
    rw [hz] at hy1
    rw [← hos, operatorsKept_iff happ, ← hy2, hyz, Option.some.inj hy1]
  · intro H L' hL' T T'
    obtain ⟨es, hos, hk, hf⟩ := hread L' hL'
    rw [tokenizeTexts_eq hL, tokenizeTexts_eq (hL'.nul hL), hk, hf]
    rw [← hos] at H
    have := readAll_kept code (x := (.empty, ram)) H.append false
    cases hy : readAll code false es (.empty, ram) with
    | none =>
      rw [hy] at this
      rw [show readAll code true es (.empty, ram) = none from this]
    | some y =>
      obtain ⟨hy1, hy2⟩ := hkept H.append hy
      rw [(operatorsKept_iff H.append).mp H, ← hy2] at hy1
      rw [hy1]

/-- The blanks make no difference when every operator is the first thing of the line or stands
behind a blank. On a line whose operators have names, and that `tokenize` returns on, they make none
exactly when no operator is glued to something but a `>>` that another output redirection follows
and overrides. -/
theorem spacingKept_iff {L : List Char} (hq : ∀ c ∈ L, c ≠ '\'' ∧ c ≠ '"') (hL : NUL ∉ L)
    (hcount : wordCount false L < 60) :
    (clear false L = true → SpacingKept code L ram) ∧
      (named L = true → (parseInPlace code L ram).isSome = true →
        (SpacingKept code L ram ↔ OperatorsKept (operators false L))) :=
  ⟨spacingKept_of_clear hq hL, fun hn hsome => spacingKept_iff_of_named hq hL hn hcount hsome⟩

/-- `>` is lost behind the name of a redirection. -/
theorem gluedNames_not_kept : ¬ SpacingKept 0 "sort <f>g".toList bootRam := by
  intro H
  have hg : Spaced ">g".toList " > g".toList :=
    @Spaced.op true false [' '] [' '] ['g'] ['g'] (fun _ he => by cases he) rfl
      (List.cons_ne_nil _ _) rfl (List.cons_ne_nil _ _) (.char rfl .nil)
  have hf : Spaced "<f>g".toList " < f > g".toList :=
    @Spaced.op false false [' '] [' '] _ _ (fun he => by cases he) rfl
      (List.cons_ne_nil _ _) rfl (List.cons_ne_nil _ _) (.char rfl hg)
  have hsp : Spaced "sort <f>g".toList "sort  < f > g".toList :=
    .char rfl (.char rfl (.char rfl (.char rfl (.char rfl hf))))
  have hne : tokenizeTexts 0 ("sort  < f > g".toList ++ NUL :: []) bootRam ≠
      tokenizeTexts 0 ("sort <f>g".toList ++ NUL :: []) bootRam := by decide +kernel
  exact hne (H _ hsp [] [])

theorem spacedNames_kept : clear false "sort <f >g".toList = true ∧
    SpacingKept 0 "sort <f >g".toList bootRam :=
  have hclear : clear false "sort <f >g".toList = true := by decide
  have hq : ∀ c ∈ "sort <f >g".toList, c ≠ '\'' ∧ c ≠ '"' :=
    List.all_iff_forall_prop.mp (by decide)
  ⟨hclear, (spacingKept_iff hq (by decide) (by decide)).1 hclear⟩

end BojanOS
