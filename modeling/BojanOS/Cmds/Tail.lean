import BojanOS.Cmds.Numerals
import Mathlib.Data.List.DropRight

/-!
# The last lines (`cmd_tail`)

`cmd_tail` goes back over as many newlines as lines were asked for. The newline at the end of a text
is one of them, though no line is behind it, and a count of zero is never reached.
-/

namespace BojanOS

open Prog

/-! ## Lines -/

/-- The lines of a text, each with the newline that ends it, `line` being the front of the first
one. -/
def textLines (line : List Char) : List Char → List (List Char)
  | [] => if line = [] then [] else [line]
  | c :: text =>
    if c = '\n' then (line ++ ['\n']) :: textLines [] text else textLines (line ++ [c]) text

theorem textLines_flatten (line text : List Char) :
    (textLines line text).flatten = line ++ text := by
  induction text generalizing line with
  | nil =>
    rw [textLines]
    split_ifs with h
    · simp [h]
    · simp
  | cons c text ih =>
    rw [textLines]
    split_ifs with h
    · simp [h, ih]
    · rw [ih]
      simp

theorem textLines_ne_nil {line text l : List Char} (h : l ∈ textLines line text) : l ≠ [] := by
  induction text generalizing line with
  | nil =>
    rw [textLines] at h
    split_ifs at h with hline
    · cases h
    · exact List.mem_singleton.mp h ▸ hline
  | cons c text ih =>
    rw [textLines] at h
    split_ifs at h
    · rcases List.mem_cons.mp h with rfl | h
      · simp
      · exact ih h
    · exact ih h

/-- The lines of a text up to a newline and behind it. -/
theorem textLines_append (line p s : List Char) :
    ∃ ls, textLines line (p ++ '\n' :: s) = ls ++ textLines [] s ∧
      ls.length = p.count '\n' + 1 := by
  induction p generalizing line with
  | nil => exact ⟨[line ++ ['\n']], by simp [textLines], rfl⟩
  | cons c p ih =>
    rw [List.cons_append, textLines]
    split_ifs with h
    · obtain ⟨ls, hls, hlen⟩ := ih []
      refine ⟨(line ++ ['\n']) :: ls, by rw [hls, List.cons_append], ?_⟩
      rw [List.length_cons, hlen, h, List.count_cons_self]
    · obtain ⟨ls, hls, hlen⟩ := ih (line ++ [c])
      refine ⟨ls, hls, ?_⟩
      rw [hlen, List.count_cons_of_ne h]

/-- The text ends in a line without a newline. -/
def Unended (text : List Char) : Prop := text ≠ [] ∧ text.getLast? ≠ some '\n'

instance (text : List Char) : Decidable (Unended text) := instDecidableAnd

theorem unended_append {a b : List Char} (hb : b ≠ []) : Unended (a ++ b) ↔ Unended b := by
  rw [Unended, Unended, List.getLast?_append, List.getLast?_eq_some_getLast hb]
  simp [hb]

theorem unended_newline (a text : List Char) : Unended (a ++ '\n' :: text) ↔ Unended text := by
  rw [unended_append (List.cons_ne_nil _ _)]
  cases text with
  | nil => decide
  | cons c text => exact unended_append (a := ['\n']) (List.cons_ne_nil c text)

/-- A newline for each line but an unended one. -/
theorem length_textLines {line : List Char} (hline : '\n' ∉ line) (text : List Char) :
    (textLines line text).length =
      text.count '\n' + if Unended (line ++ text) then 1 else 0 := by
  induction text generalizing line with
  | nil =>
    rw [textLines, List.append_nil]
    split_ifs with hnil h h
    · exact absurd hnil h.1
    · rfl
    · rfl
    · refine absurd ⟨hnil, fun hl => hline ?_⟩ h
      exact List.mem_of_getLast? hl
  | cons c text ih =>
    rw [textLines]
    by_cases hc : c = '\n'
    · subst hc
      have hrest := ih List.not_mem_nil
      rw [List.nil_append] at hrest
      rw [if_pos rfl, List.length_cons, hrest, List.count_cons_self]
      simp only [unended_newline]
      omega
    · have hrest : '\n' ∉ line ++ [c] := by
        simp only [List.mem_append, List.mem_singleton, not_or]
        exact ⟨hline, fun h => hc h.symm⟩
      rw [if_neg hc, ih hrest, List.count_cons_of_ne hc, List.append_assoc]
      rfl

/-! ## `tail` -/

/-- The loop over the text from `i` down, with the newlines so far; the result is `start`. -/
def tailStart (n : Int) (text : List Char) : Nat → Int → Nat
  | 0, _ => 0
  | i + 1, lines =>
    if text[i]? = some '\n' then
      if lines + 1 = n then i + 1 else tailStart n text i (lines + 1)
    else tailStart n text i lines

/-- What is printed for a count of `n`. -/
def tailText (n : Int) (text : List Char) : List Char :=
  text.drop (tailStart n text text.length 0)

/-- The count, and the words behind it. -/
def tailArgs (argv : List (List Char)) : Int × List (List Char) :=
  let w := argv.getD 1 []
  if 2 ≤ argv.length ∧ w.head? = some '-' ∧ isdigit (w.getD 1 NUL) then
    (atoiWord (w.drop 1), argv.drop 2)
  else if 3 ≤ argv.length ∧ w = ['-', 'n'] then (atoiWord (argv.getD 2 []), argv.drop 3)
  else (10, argv.drop 1)

/-- The bytes of a file are read while they are printed. If the output goes to the same file, it is
behind the size that the file had when it was opened. -/
def cmdTail (fuel : Nat) (argv : List (List Char)) : Prog Int := do
  let (n, operands) := tailArgs argv
  match ← openInput fuel operands.head? with
  | none => pure 1
  | some data => do
    puts (tailText n (data.getD []))
    pure 0

/-- The loop stops at the `n`th newline from the end, if there is one. -/
theorem tailStart_cases {n : Int} {text : List Char} {i : Nat} (lines : Int)
    (hi : i ≤ text.length) :
    (tailStart n text i lines = 0 ∧
        ¬ (lines < n ∧ n ≤ lines + ((text.take i).count '\n' : Nat))) ∨
      ∃ p s, text.take i = p ++ '\n' :: s ∧ tailStart n text i lines = p.length + 1 ∧
        n = lines + 1 + (s.count '\n' : Nat) := by
  induction i generalizing lines with
  | zero =>
    refine .inl ⟨rfl, ?_⟩
    simp only [List.take_zero, List.count_nil]
    omega
  | succ i ih =>
    have htake : text.take (i + 1) = text.take i ++ [text[i]] := by
      rw [List.take_add_one, List.getElem?_eq_getElem hi]
      rfl
    rw [tailStart, List.getElem?_eq_getElem hi, htake]
    by_cases hc : text[i] = '\n'
    · rw [if_pos (congrArg some hc), hc]
      split_ifs with hn
      · refine .inr ⟨text.take i, [], rfl, ?_, ?_⟩
        · rw [List.length_take, Nat.min_eq_left (by omega)]
        · simp [hn]
      · rcases ih (lines + 1) (by omega) with ⟨h0, hno⟩ | ⟨p, s, hp, hstart, hs⟩
        · refine .inl ⟨h0, ?_⟩
          rw [List.count_append, List.count_singleton_self]
          omega
        · refine .inr ⟨p, s ++ ['\n'], by rw [hp]; simp, hstart, ?_⟩
          rw [List.count_append, List.count_singleton_self]
          omega
    · rw [if_neg fun h => hc (Option.some.inj h)]
      have hcount : ∀ s : List Char, (s ++ [text[i]]).count '\n' = s.count '\n' := by
        intro s
        rw [List.count_append, List.count_singleton, if_neg (by simpa using hc), Nat.add_zero]
      rcases ih lines (by omega) with ⟨h0, hno⟩ | ⟨p, s, hp, hstart, hs⟩
      · exact .inl ⟨h0, by rwa [hcount]⟩
      · exact .inr ⟨p, s ++ [text[i]], by rw [hp]; simp, hstart, by rwa [hcount]⟩

theorem tailText_cases (n : Int) (text : List Char) :
    (tailText n text = text ∧ ¬ (0 < n ∧ n ≤ (text.count '\n' : Nat))) ∨
      ∃ p, text = p ++ '\n' :: tailText n text ∧
        n = 1 + ((tailText n text).count '\n' : Nat) := by
  rcases tailStart_cases (n := n) 0 (Nat.le_refl text.length) with ⟨h0, hno⟩ | ⟨p, s, hp, hs, hn⟩
  · rw [List.take_length, zero_add] at hno
    exact .inl ⟨by rw [tailText, h0, List.drop_zero], hno⟩
  · rw [List.take_length] at hp
    have htext : tailText n text = s := by
      rw [tailText, hs, hp]
      simp
    rw [htext]
    exact .inr ⟨p, hp, by omega⟩

/-! ## What is printed and what was asked for -/

/-- The last `n` lines. -/
def lastLines (n : Nat) (text : List Char) : List Char := ((textLines [] text).rtake n).flatten

theorem flatten_drop_lt {ls : List (List Char)} (h : ∀ l ∈ ls, l ≠ []) {a b : Nat} (hab : a < b)
    (hb : b ≤ ls.length) : (ls.drop b).flatten.length < (ls.drop a).flatten.length := by
  have hne : ls[a] ≠ [] := h _ (List.getElem_mem _)
  have hsuffix : (ls.drop b).flatten.Sublist (ls.drop (a + 1)).flatten :=
    (List.drop_sublist_drop_left ls hab).flatten
  rw [List.drop_eq_getElem_cons (hab.trans_le hb), List.flatten_cons, List.length_append]
  have := hsuffix.length_le
  have := List.length_pos_iff.mpr hne
  omega

/-- Different numbers of last lines are different texts. -/
theorem flatten_drop_inj {ls : List (List Char)} (h : ∀ l ∈ ls, l ≠ []) {a b : Nat}
    (ha : a ≤ ls.length) (hb : b ≤ ls.length) (he : (ls.drop a).flatten = (ls.drop b).flatten) :
    a = b := by
  rcases Nat.lt_trichotomy a b with hlt | heq | hgt
  · have := flatten_drop_lt h hlt hb
    rw [he] at this
    omega
  · exact heq
  · have := flatten_drop_lt h hgt ha
    rw [he] at this
    omega

theorem eq_lastLines_iff {n a : Nat} {text : List Char} (ha : a ≤ (textLines [] text).length) :
    ((textLines [] text).drop a).flatten = lastLines n text ↔
      a = (textLines [] text).length - n := by
  constructor
  · exact flatten_drop_inj (fun l hl => textLines_ne_nil hl) ha (Nat.sub_le _ _)
  · rintro rfl
    rfl

/-- With `m` for the count that `atoi` reads, the lines are the last `n` exactly in these cases. -/
theorem tailText_iff {n : Nat} {m : Int} (hm : m = asInt n) (text : List Char) :
    tailText m text = lastLines n text ↔
      text = [] ∨ (text.count '\n' : Nat) < m ∨ m ≤ 0 ∧ (textLines [] text).length ≤ n ∨
        m = n ∧ 1 ≤ n ∧ text.getLast? ≠ some '\n' := by
  have hlen := length_textLines List.not_mem_nil text
  rw [List.nil_append] at hlen
  have hwrap := asInt_cases n
  rw [← hm] at hwrap
  rcases tailText_cases m text with ⟨hall, hno⟩ | ⟨p, htext, hcount⟩
  · -- everything is printed
    have hiff := eq_lastLines_iff (n := n) (Nat.zero_le (textLines [] text).length)
    rw [List.drop_zero, textLines_flatten, List.nil_append] at hiff
    rw [hall, hiff]
    constructor
    · intro h
      by_cases hm0 : m ≤ 0
      · exact .inr (.inr (.inl ⟨hm0, by omega⟩))
      · exact .inr (.inl (by omega))
    · rintro (rfl | h | h | h)
      · simp [textLines]
      · split_ifs at hlen <;> omega
      · omega
      · split_ifs at hlen <;> omega
  · -- the text stops behind the newline at the end of `p`
    obtain ⟨ls, hls, hlslen⟩ := textLines_append [] p (tailText m text)
    rw [← htext] at hls
    have hbehind := length_textLines List.not_mem_nil (tailText m text)
    rw [List.nil_append] at hbehind
    have htotal : (textLines [] text).length =
        ls.length + (textLines [] (tailText m text)).length := by
      rw [hls, List.length_append]
    have hle : ls.length ≤ (textLines [] text).length := by omega
    have hiff := eq_lastLines_iff (n := n) hle
    have hdrop : ((textLines [] text).drop ls.length).flatten = tailText m text := by
      rw [hls, List.drop_left, textLines_flatten, List.nil_append]
    rw [hdrop] at hiff
    have hne : text ≠ [] := by
      rw [htext]
      simp
    have hend : text.getLast? ≠ some '\n' ↔ Unended (tailText m text) := by
      rw [← unended_newline p, ← htext, Unended, and_iff_right hne]
    have hmany : text.count '\n' = p.count '\n' + ((tailText m text).count '\n' + 1) := by
      conv_lhs => rw [htext]
      rw [List.count_append, List.count_cons_self]
    rw [hiff, hend]
    constructor
    · intro h
      split_ifs at hbehind with hu
      · exact .inr (.inr (.inr ⟨by omega, by omega, hu⟩))
      · omega
    · rintro (h | h | h | ⟨hmn, -, hu⟩)
      · exact absurd h hne
      · omega
      · omega
      · rw [if_pos hu] at hbehind
        omega

theorem cmdTail_prints {fuel : Nat} {name w : List Char} {operands : List (List Char)}
    {σ σ₁ : Shell} {text : List Char} (hin : Opens fuel operands.head? σ text σ₁) :
    Prints (cmdTail fuel (name :: ['-', 'n'] :: w :: operands)) σ σ₁ (tailText (atoiWord w) text)
      0 := by
  obtain ⟨data, hopen, rfl⟩ := hin
  have hargs : tailArgs (name :: ['-', 'n'] :: w :: operands) = (atoiWord w, operands) := by
    have hdigit : isdigit 'n' = false := by decide
    simp [tailArgs, hdigit]
  refine ⟨σ₁.vfs.ram, ?_⟩
  rw [cmdTail, hargs]
  simp only [run_bind, hopen, Option.bind_some]
  rw [← run_say, run_bind]

/-- `tail -n n` prints the last `n` lines exactly when there is no text, when fewer newlines than
`n` are in it, or when the last line has none and `n` is not zero. A number that is not an `int` is
the count that it wraps to, and a count that is not positive asks for everything. -/
theorem tail_iff {fuel : Nat} {name w : List Char} {operands : List (List Char)} {σ σ₁ : Shell}
    {text : List Char} (hw : w ≠ [] ∧ ∀ c ∈ w, isdigit c = true)
    (hin : Opens fuel operands.head? σ text σ₁) :
    ∃ out, Prints (cmdTail fuel (name :: ['-', 'n'] :: w :: operands)) σ σ₁ out 0 ∧
      (out = lastLines (natValue w) text ↔
        text = [] ∨ (text.count '\n' : Nat) < asInt (natValue w) ∨
          asInt (natValue w) ≤ 0 ∧ (textLines [] text).length ≤ natValue w ∨
          asInt (natValue w) = natValue w ∧ 1 ≤ natValue w ∧ text.getLast? ≠ some '\n') := by
  refine ⟨tailText (atoiWord w) text, cmdTail_prints hin, ?_⟩
  rw [atoiWord_digits hw.1 hw.2]
  exact tailText_iff rfl text

theorem opens_hostname :
    Opens 0 (some "/etc/hostname".toList) bootShell Vfs.hostnameText bootShell := by
  have h : bootShell.vfs.vfsResolve "/etc/hostname".toList = some 10 ∧
      (bootShell.vfs.node 10).type = .file ∧ bootShell.vfs.contents 10 = Vfs.hostnameText := by
    rw [bootShell_spelled]
    decide +kernel
  obtain ⟨hn, hf, htext⟩ := h
  rw [← htext]
  exact opens_file hn hf

/-- There is one newline in `/etc/hostname`, and the last two lines are asked for. -/
theorem tail_hostname_two : Prints (cmdTail 0 ["tail".toList, ['-', 'n'], ['2'],
    "/etc/hostname".toList]) bootShell bootShell (lastLines 2 Vfs.hostnameText) 0 := by
  have hpath : ["/etc/hostname".toList].head? = some "/etc/hostname".toList := rfl
  have hopen := opens_hostname
  rw [← hpath] at hopen
  have hdigits : (['2'] : List Char) ≠ [] ∧ ∀ c ∈ ['2'], isdigit c = true :=
    ⟨by decide, List.forall_mem_singleton.mpr (by decide)⟩
  obtain ⟨out, hprint, hiff⟩ := tail_iff hdigits hopen
  have hout : out = lastLines 2 Vfs.hostnameText := hiff.mpr (.inr (.inl (by decide)))
  rwa [hout] at hprint

/-- The last line of `/etc/hostname`, which is its only one, is not printed. -/
theorem tail_hostname_empty : ¬ ∀ (fuel : Nat) (name w : List Char) (operands : List (List Char))
    (σ σ₁ : Shell) (text : List Char), (w ≠ [] ∧ ∀ c ∈ w, isdigit c = true) →
    Opens fuel operands.head? σ text σ₁ →
    Prints (cmdTail fuel (name :: ['-', 'n'] :: w :: operands)) σ σ₁ (lastLines (natValue w) text)
      0 := by
  intro H
  have hpath : ["/etc/hostname".toList].head? = some "/etc/hostname".toList := rfl
  have hopen := opens_hostname
  rw [← hpath] at hopen
  have hlast := H 0 "tail".toList ['1'] _ bootShell bootShell _
    ⟨by decide, List.forall_mem_singleton.mpr (by decide)⟩ hopen
  have hprint := @cmdTail_prints 0 "tail".toList ['1'] _ bootShell bootShell _ hopen
  have hsame := (hprint.unique rfl rfl hlast).1
  revert hsame
  decide

end BojanOS
