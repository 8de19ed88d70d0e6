import Mathlib.Data.Bool.AllAny
import BojanOS.Shell.Calls
import BojanOS.Shell.Lexemes
import BojanOS.Shell.Pipes

/-!
# Quoted arguments

Only `tokenize` knows quotes. `shell_exec_line` and `exec_pipeline` cut a line at `;`, `&&`, `#` and
`|` inside them as well, and `expand_tilde` sees an argument when its quotes are gone.
-/

namespace BojanOS

/-! ## Where a line is cut -/

theorem Segment.text_prefix (cur : List Char) (op : Option Op) : (Segment.of cur op).text <+: cur :=
  List.rdropWhile_prefix isBlank cur

theorem segmentsFrom_separator {c : Char} {s cur : List Char} {op : Op} {skip : Nat}
    (h : isSeparator (c :: s) = some (op, skip)) : segmentsFrom cur (c :: s) =
      .of cur op :: segmentsFrom [] ((s.drop (skip - 1)).dropWhile isBlank) := by
  rw [segmentsFrom, h]

/-- Of any byte, a segment has at most as many as the line. -/
theorem segmentsFrom_count {cur s : List Char} {seg : Segment} (h : seg ∈ segmentsFrom cur s)
    (x : Char) : seg.text.count x ≤ (cur ++ s).count x := by
  induction cur, s using segmentsFrom.induct with
  | case1 cur =>
    rw [segmentsFrom, List.mem_singleton] at h
    subst h
    rw [List.append_nil]
    exact (Segment.text_prefix cur none).sublist.count_le x
  | case2 cur c s op skip hsep ih =>
    rw [segmentsFrom_separator hsep, List.mem_cons] at h
    rcases h with rfl | h
    · exact ((Segment.text_prefix cur op).sublist.trans (List.sublist_append_left _ _)).count_le x
    · have hsub : ((s.drop (skip - 1)).dropWhile isBlank).Sublist (cur ++ c :: s) :=
        (List.dropWhile_suffix isBlank).sublist.trans ((List.drop_sublist _ _).trans
          ((List.sublist_cons_self c s).trans (List.sublist_append_right _ _)))
      exact (ih h).trans (hsub.count_le x)
  | case3 cur s hsep =>
    rw [segmentsFrom, hsep] at h
    simp only [if_true, List.mem_singleton] at h
    subst h
    exact ((Segment.text_prefix cur none).sublist.trans (List.sublist_append_left _ _)).count_le x
  | case4 cur c s hsep hc ih =>
    rw [segmentsFrom, hsep] at h
    simp only [hc, if_false] at h
    have := ih h
    rwa [List.append_assoc] at this

/-- No segment has a `;` or a `#`. -/
theorem segmentsFrom_not_mem {cur s : List Char} {seg : Segment} (h : seg ∈ segmentsFrom cur s)
    {x : Char} (hx : x = ';' ∨ x = '#') (hcur : x ∉ cur) : x ∉ seg.text := by
  induction cur, s using segmentsFrom.induct with
  | case1 cur =>
    rw [segmentsFrom, List.mem_singleton] at h
    subst h
    exact fun hm => hcur ((Segment.text_prefix cur none).subset hm)
  | case2 cur c s op skip hsep ih =>
    rw [segmentsFrom_separator hsep, List.mem_cons] at h
    rcases h with rfl | h
    · exact fun hm => hcur ((Segment.text_prefix cur op).subset hm)
    · exact ih h List.not_mem_nil
  | case3 cur s hsep =>
    rw [segmentsFrom, hsep] at h
    simp only [if_true, List.mem_singleton] at h
    subst h
    exact fun hm => hcur ((Segment.text_prefix cur none).subset hm)
  | case4 cur c s hsep hc ih =>
    rw [segmentsFrom, hsep] at h
    simp only [hc, if_false] at h
    refine ih h fun hm => ?_
    rcases List.mem_append.mp hm with hm | hm
    · exact hcur hm
    · obtain rfl := List.mem_singleton.mp hm
      rcases hx with rfl | rfl
      · cases hsep
      · exact hc rfl

/-- An `&&` is in no segment. -/
theorem segmentsFrom_and {cur s : List Char} {seg : Segment} (h : seg ∈ segmentsFrom cur s)
    (hsemi : ';' ∉ s) (hhash : '#' ∉ s) (hbar : '|' ∉ s) (hand : ['&', '&'] <:+: s) :
    seg.text.count '&' + 2 ≤ (cur ++ s).count '&' := by
  induction cur, s using segmentsFrom.induct with
  | case1 cur => exact absurd (List.eq_nil_of_infix_nil hand) (by simp)
  | case2 cur c s op skip hsep ih =>
    obtain ⟨s', rfl, rfl, rfl⟩ : ∃ s', c = '&' ∧ s = '&' :: s' ∧ skip = 2 := by
      unfold isSeparator at hsep
      split at hsep
      · rename_i he
        obtain ⟨rfl, -⟩ := List.cons.inj he
        exact absurd List.mem_cons_self hsemi
      · rename_i s' he
        obtain ⟨rfl, rfl⟩ := List.cons.inj he
        exact ⟨s', rfl, rfl, (Prod.mk.inj (Option.some.inj hsep)).2.symm⟩
      · rename_i he
        obtain ⟨rfl, -⟩ := List.cons.inj he
        exact absurd List.mem_cons_self hbar
      · cases hsep
    have hcount : (cur ++ '&' :: '&' :: s').count '&' = cur.count '&' + (s'.count '&' + 2) := by
      simp [List.count_append]
    rw [hcount]
    rw [segmentsFrom_separator hsep, List.mem_cons] at h
    rcases h with rfl | h
    · have := (Segment.text_prefix cur op).sublist.count_le '&'
      omega
    · have hle := segmentsFrom_count h '&'
      have hdrop := (List.dropWhile_suffix isBlank (l := s')).sublist.count_le '&'
      have hone : ('&' :: s').drop (2 - 1) = s' := rfl
      rw [hone, List.nil_append] at hle
      omega
  | case3 cur s hsep => exact absurd List.mem_cons_self hhash
  | case4 cur c s hsep hc ih =>
    rw [segmentsFrom, hsep] at h
    simp only [hc, if_false] at h
    rw [List.mem_cons, not_or] at hsemi hhash hbar
    have htail : ['&', '&'] <:+: s := by
      rcases List.infix_cons_iff.mp hand with hp | hi
      · obtain ⟨t, ht⟩ := hp
        rw [← ht] at hsep
        cases hsep
      · exact hi
    have := ih h hsemi.2 hhash.2 hbar.2 htail
    rwa [List.append_assoc] at this

/-- A stage is a part of its segment, and has no `|`. -/
theorem stages_spec {text t : List Char} (h : t ∈ stages text) : t.Sublist text ∧ '|' ∉ t := by
  induction hn : text.length using Nat.strongRecOn generalizing text t with
  | _ n ih =>
    cases text with
    | nil =>
      rw [stages_nil, List.mem_singleton] at h
      subst h
      exact ⟨List.Sublist.refl _, List.not_mem_nil⟩
    | cons c s =>
      rw [List.length_cons] at hn
      rcases eq_or_ne c '|' with rfl | hc
      · rw [stages_bar, List.mem_cons] at h
        rcases h with rfl | h
        · exact ⟨List.nil_sublist _, List.not_mem_nil⟩
        · have hsuf := List.dropWhile_suffix isBlank (l := s)
          have hlt : (s.dropWhile isBlank).length < n := by
            have := hsuf.length_le
            omega
          obtain ⟨hsub, hbar⟩ := ih _ hlt h rfl
          exact ⟨hsub.trans (hsuf.sublist.trans (List.sublist_cons_self _ _)), hbar⟩
      · rw [stages_cons hc] at h
        obtain ⟨u, us, hu⟩ := List.exists_cons_of_ne_nil (stages_ne_nil s)
        rw [hu, List.modifyHead_cons, List.mem_cons] at h
        rcases h with rfl | h
        · obtain ⟨hsub, hbar⟩ := ih s.length (by omega) (hu ▸ List.mem_cons_self) rfl
          refine ⟨hsub.cons_cons c, ?_⟩
          rw [List.mem_cons, not_or]
          exact ⟨Ne.symm hc, hbar⟩
        · obtain ⟨hsub, hbar⟩ := ih s.length (by omega) (hu ▸ List.mem_cons_of_mem _ h) rfl
          exact ⟨hsub.cons c, hbar⟩

theorem stages_single {text : List Char} (h : '|' ∉ text) : stages text = [text] := by
  induction text with
  | nil => rfl
  | cons c s ih =>
    rw [List.mem_cons, not_or] at h
    rw [stages_cons (Ne.symm h.1), ih h.2]
    rfl

/-- A line that is not cut is one segment. -/
theorem segmentsFrom_single {line : List Char} (hsemi : ';' ∉ line) (hhash : '#' ∉ line)
    (hbar : '|' ∉ line) (hand : ¬ ['&', '&'] <:+: line) :
    segmentsFrom [] line = [.of line none] := by
  suffices hsplit : segmentsFrom [] (line ++ []) = segmentsFrom ([] ++ line) [] by
    rw [List.append_nil, List.nil_append] at hsplit
    rw [hsplit, segmentsFrom]
  refine segmentsFrom_append fun u x v hv => ?_
  have hmem : ∀ y ∈ x :: v, y ∈ line := fun y hy => hv ▸ List.mem_append_right _ hy
  refine ⟨?_, fun hx => hhash (hx ▸ hmem x List.mem_cons_self)⟩
  rw [List.append_nil]
  unfold isSeparator
  split
  · rename_i he
    obtain ⟨rfl, -⟩ := List.cons.inj he
    exact absurd (hmem _ List.mem_cons_self) hsemi
  · rename_i s he
    rw [he] at hv
    exact absurd ⟨u, s, by rw [hv]; simp⟩ hand
  · rename_i he
    obtain ⟨rfl, -⟩ := List.cons.inj he
    exact absurd (hmem _ List.mem_cons_self) hbar
  · rfl

/-! ## Quoted lines -/

def quoted (w : List Char) : List Char := '\'' :: (w ++ ['\''])

/-- Arguments with the blanks before them. -/
def argsText (args : List (List Char × List Char)) : List Char :=
  args.flatMap fun a => a.1 ++ quoted a.2

def quotedLine (c : List Char) (args : List (List Char × List Char)) : List Char := c ++ argsText args

/-- Bytes that mean something outside quotes. -/
def isSpecial (c : Char) : Bool := c ∈ [NUL, ';', '|', '#', '&', '~']

/-- A command name: not empty, and without characters that mean something to the shell. -/
structure IsName (c : List Char) : Prop where
  ne : c ≠ []
  plain : ∀ x ∈ c, isPlain x = true ∧ isSpecial x = false

/-- Blanks, and a word of printable ASCII without the quote itself. -/
structure IsArg (a : List Char × List Char) : Prop where
  ne : a.1 ≠ []
  blanks : Blanks a.1
  printable : ∀ x ∈ a.2, 32 ≤ x.toNat ∧ x.toNat < 127
  quote : '\'' ∉ a.2

variable {commands : Commands} {σ : Shell} {c : List Char} {args : List (List Char × List Char)}
  {x : Char}

theorem IsArg.nul {a : List Char × List Char} (h : IsArg a) : NUL ∉ a.2 :=
  fun hm => absurd (h.printable NUL hm).1 (by decide)

/-- In front of an argument there is a blank. -/
theorem IsArg.text {a : List Char × List Char} (h : IsArg a) : ∃ y b', isBlank y = true ∧
    b'.all isBlank = true ∧ argsText (a :: args) = y :: (b' ++ (quoted a.2 ++ argsText args)) ∧
      Ends0 (argsText (a :: args)) := by
  obtain ⟨y, b', hy⟩ := List.exists_cons_of_ne_nil h.ne
  have hyb : isBlank y = true := h.blanks y (hy ▸ List.mem_cons_self)
  have hb' : b'.all isBlank = true :=
    List.all_eq_true.mpr fun z hz => h.blanks z (hy ▸ List.mem_cons_of_mem _ hz)
  have htext : argsText (a :: args) = y :: (b' ++ (quoted a.2 ++ argsText args)) := by
    simp [argsText, hy]
  refine ⟨y, b', hyb, hb', htext, ?_⟩
  rw [htext]
  simp [Ends0, isDelim, hyb]

theorem quoted_lexed {w b : List Char} (hw : '\'' ∉ w) (hb : b.all isBlank = true)
    (ha : ∀ a ∈ args, IsArg a) :
    Lexed (b ++ (quoted w ++ argsText args)) (w :: args.map Prod.snd) := by
  induction args generalizing w b with
  | nil =>
    have hends : Ends0 (argsText []) := rfl
    exact .cons hb (.quoted hw hends) rfl (.nil rfl)
  | cons a args ih =>
    have h := ha a List.mem_cons_self
    obtain ⟨y, b', hyb, hb', htext, hends⟩ := @IsArg.text args a h
    refine .cons hb (.quoted hw hends) ?_ ?_
    · rw [htext]
      simp [hyb]
    · rw [htext]
      exact ih h.quote hb' fun a hm => ha a (List.mem_cons_of_mem _ hm)

/-- A quoted line is made of the name and the words. -/
theorem quotedLine_lexed (hc : IsName c) (ha : ∀ a ∈ args, IsArg a) :
    Lexed (quotedLine c args) (c :: args.map Prod.snd) := by
  have hplain : ∀ x ∈ c, isPlain x = true := fun x hx => (hc.plain x hx).1
  cases args with
  | nil =>
    have hends : Ends0 (argsText []) := rfl
    exact .cons (b := []) rfl (.plain hc.ne hplain hends) rfl (.nil rfl)
  | cons a args =>
    have h := ha a List.mem_cons_self
    obtain ⟨y, b', hyb, hb', htext, hends⟩ := @IsArg.text args a h
    refine .cons (b := []) rfl (.plain hc.ne hplain hends) ?_ ?_
    · rw [htext]
      simp [hyb]
    · rw [htext]
      exact quoted_lexed h.quote hb' fun a hm => ha a (List.mem_cons_of_mem _ hm)

/-- A byte that is neither a blank nor a quote comes from the words. -/
theorem quotedLine_count (ha : ∀ a ∈ args, IsArg a) (hx : isBlank x = false) (hq : x ≠ '\'') :
    (quotedLine c args).count x = (c :: args.map Prod.snd).flatten.count x := by
  have hargs : (argsText args).count x = (args.map Prod.snd).flatten.count x := by
    induction args with
    | nil => rfl
    | cons a args ih =>
      have hb : a.1.count x = 0 := by
        rw [List.count_eq_zero]
        intro hm
        rw [(ha a List.mem_cons_self).blanks x hm] at hx
        cases hx
      have htail := ih fun a hm => ha a (List.mem_cons_of_mem _ hm)
      rw [argsText, List.flatMap_cons, ← argsText, List.map_cons, List.flatten_cons,
        List.count_append, List.count_append, List.count_append, hb, htail]
      simp [quoted, List.count_append, hq.symm]
  rw [quotedLine, List.count_append, hargs, List.flatten_cons, List.count_append]

theorem quotedLine_mem (ha : ∀ a ∈ args, IsArg a) (hc : x ∉ c) (hx : isBlank x = false)
    (hq : x ≠ '\'') : x ∈ quotedLine c args ↔ ∃ a ∈ args, x ∈ a.2 := by
  rw [← List.count_pos_iff, quotedLine_count ha hx hq, List.count_pos_iff, List.flatten_cons,
    List.mem_append, List.mem_flatten]
  constructor
  · rintro (h | ⟨w, hw, hm⟩)
    · exact absurd h hc
    · obtain ⟨a, ham, rfl⟩ := List.mem_map.mp hw
      exact ⟨a, ham, hm⟩
  · rintro ⟨a, ham, hm⟩
    exact .inr ⟨a.2, List.mem_map_of_mem ham, hm⟩

/-- Two bytes that are not on both sides of the cut. -/
theorem infix_append {y : Char} {s t : List Char} (h : [y, y] <:+: s ++ t)
    (ht : t.head? ≠ some y) : [y, y] <:+: s ∨ [y, y] <:+: t := by
  induction s with
  | nil => exact .inr h
  | cons z s ih =>
    rcases List.infix_cons_iff.mp h with ⟨u, hu⟩ | hi
    · obtain ⟨rfl, htail⟩ := List.cons.inj hu
      cases s with
      | nil =>
        have htu : y :: u = t := htail
        exact absurd (congrArg List.head? htu).symm ht
      | cons w s =>
        obtain ⟨rfl, -⟩ := List.cons.inj htail
        exact .inl ⟨[], s, rfl⟩
    · rcases ih hi with hs | ht
      · exact .inl (List.infix_cons hs)
      · exact .inr ht

theorem not_infix_of_not_mem {y : Char} {s : List Char} (h : y ∉ s) : ¬ [y, y] <:+: s :=
  fun hi => h (hi.subset List.mem_cons_self)

theorem argsText_head (ha : ∀ a ∈ args, IsArg a) : (argsText args).head? ≠ some '&' := by
  cases args with
  | nil => exact fun h => by cases h
  | cons a args =>
    have h := ha a List.mem_cons_self
    obtain ⟨y, b, hy⟩ := List.exists_cons_of_ne_nil h.ne
    have hyb : isBlank y = true := h.blanks y (hy ▸ List.mem_cons_self)
    have hhead : (argsText (a :: args)).head? = some y := by simp [argsText, hy]
    rw [hhead]
    rintro he
    rw [Option.some.inj he] at hyb
    exact absurd hyb (by decide)

theorem argsText_and (ha : ∀ a ∈ args, IsArg a) (h : ['&', '&'] <:+: argsText args) :
    ∃ a ∈ args, ['&', '&'] <:+: a.2 := by
  induction args with
  | nil => exact absurd (List.eq_nil_of_infix_nil h) (by simp)
  | cons a args ih =>
    have harg := ha a List.mem_cons_self
    have hrest : ∀ a ∈ args, IsArg a := fun a hm => ha a (List.mem_cons_of_mem _ hm)
    have htext : argsText (a :: args) = a.1 ++ (quoted a.2 ++ argsText args) := by
      simp [argsText]
    rw [htext] at h
    rcases infix_append h (by simp [quoted]) with h | h
    · exact absurd h (not_infix_of_not_mem fun hm => absurd (harg.blanks _ hm) (by decide))
    rcases infix_append h (argsText_head hrest) with h | h
    · rcases List.infix_cons_iff.mp h with ⟨u, hu⟩ | h
      · exact absurd (List.cons.inj hu).1 (by decide)
      · rcases infix_append h (by simp) with h | h
        · exact ⟨a, List.mem_cons_self, h⟩
        · exact absurd h (not_infix_of_not_mem (by decide))
    · obtain ⟨a', hm, hi⟩ := ih hrest h
      exact ⟨a', List.mem_cons_of_mem _ hm, hi⟩

theorem quotedLine_and (hc : IsName c) (ha : ∀ a ∈ args, IsArg a) :
    ['&', '&'] <:+: quotedLine c args ↔ ∃ a ∈ args, ['&', '&'] <:+: a.2 := by
  constructor
  · intro h
    rcases infix_append h (argsText_head ha) with h | h
    · exact absurd h (not_infix_of_not_mem fun hm => absurd (hc.plain _ hm).2 (by decide))
    · exact argsText_and ha h
  · rintro ⟨a, hm, hi⟩
    obtain ⟨pre, post, rfl⟩ := List.append_of_mem hm
    refine hi.trans ⟨c ++ (argsText pre ++ (a.1 ++ ['\''])), ['\''] ++ argsText post, ?_⟩
    simp [quotedLine, argsText, quoted]

/-! ## The tilde expansion -/

/-- No word is expanded: it is not `~` and does not begin with `~/`, or there is no memory for the
copy. -/
def TildesKept : List (List Char) → Ram → Prop
  | [], _ => True
  | w :: ws, ram => (expandTilde w ram).1 = none ∧ TildesKept ws (expandTilde w ram).2

theorem expandTilde_ne {w copy : List Char} {ram : Ram} (h : (expandTilde w ram).1 = some copy) :
    copy ≠ w := by
  unfold expandTilde at h
  split at h
  · split at h
    · split at h
      · cases h
      · obtain rfl := Option.some.inj h
        intro he
        exact absurd (List.cons.inj he).1 (by decide)
    · cases h
  · cases h

theorem expandAll_eq_iff {ws : List (List Char)} {ram : Ram} :
    (expandAll ws ram).1 = ws ↔ TildesKept ws ram := by
  induction ws generalizing ram with
  | nil => exact iff_of_true rfl trivial
  | cons w ws ih =>
    have hword : (expandTilde w ram).1.getD w = w ↔ (expandTilde w ram).1 = none := by
      cases h : (expandTilde w ram).1 with
      | none => exact iff_of_true rfl rfl
      | some copy => exact iff_of_false (expandTilde_ne h) (by simp)
    rw [expandAll, TildesKept, ← ih, ← hword]
    exact List.cons_eq_cons

theorem expandAll_length (ws : List (List Char)) (ram : Ram) :
    (expandAll ws ram).1.length = ws.length := by
  induction ws generalizing ram with
  | nil => rfl
  | cons w ws ih => rw [expandAll, List.length_cons, List.length_cons, ih]

theorem expandTilde_plain {w : List Char} (h : '~' ∉ w) (ram : Ram) :
    expandTilde w ram = (none, ram) := by
  unfold expandTilde
  split
  · exact absurd List.mem_cons_self h
  · rfl

/-! ## Running a quoted line -/

/-- The call of a command with this `argv`, without redirections and pipes. -/
def plainCall (argv : List (List Char)) : Call := ⟨argv, none, none, none, none, false, none⟩

/-- The line makes this one call, and returns if it does. -/
structure RunsOnly (σ : Shell) (line : Buf) (argv : List (List Char)) : Prop where
  calls : ∀ commands rc ran σ', shellExecLine commands line σ = some (rc, ran, σ') →
    σ'.calls = σ.calls ++ [plainCall argv]
  returns : ∀ commands : Commands, (∀ τ, ((shellRunBuiltin commands argv).run τ).isSome) →
    (shellExecLine commands line σ).isSome

open Shell in
/-- A line of words that is not cut. -/
theorem Lexed.shellExecLine {line T : List Char} {ws : List (List Char)} (h : Lexed line ws)
    (hne : ws ≠ []) (hlen : ws.length < ARGV_MAX) (hnul : NUL ∉ line) (hbar : '|' ∉ line)
    (hfirst : line.head?.any isBlank = false) (hlast : line.getLast?.any isBlank = false)
    (hcut : segmentsFrom [] line = [.of line none]) (hhash : '#' ∉ line) (commands : Commands)
    (σ : Shell) : ∃ (τ : Shell) (f : Int × Shell → Int × List Nat × Shell),
      τ.calls = σ.calls ++ [plainCall (expandAll ws σ.pipesReady.vfs.ram).1] ∧
        (∀ r, (f r).2.2.calls = r.2.calls) ∧
        BojanOS.shellExecLine commands (line ++ NUL :: T) σ =
          ((shellRunBuiltin commands (expandAll ws σ.pipesReady.vfs.ram).1).run τ).map f := by
  obtain ⟨c, s, hcs⟩ : ∃ c s, line = c :: s := by
    cases h with
    | nil => exact absurd rfl hne
    | @cons b t rest w ws hb hw =>
      obtain ⟨⟨c, s, rfl, -⟩, -, -⟩ := hw
      cases b with
      | nil => exact ⟨_, _, rfl⟩
      | cons y b => exact ⟨_, _, rfl⟩
  have hblank : isBlank c = false := by simpa [hcs] using hfirst
  have hc : c ≠ '#' := fun he => hhash (by rw [hcs, he]; exact List.mem_cons_self)
  have htrim : trimBlanks line = line := by
    have := trimBlanks_append (c := line) (b := []) (fun _ h => by cases h) hlast
    rwa [List.append_nil] at this
  have hlen63 : ws.length < 63 := hlen.trans (by decide)
  -- the pipeline has one stage, which is this command
  have hparse := h.parseInPlace σ.lastExit hlen63 σ.pipesReady.vfs.ram
  have hitems : (expandAll ws σ.pipesReady.vfs.ram).1 ≠ [] := fun he => hne <| by
    rw [← List.length_eq_zero_iff, ← expandAll_length ws σ.pipesReady.vfs.ram, he, List.length_nil]
  have hitemsLen : ¬ ARGV_MAX ≤ (expandAll ws σ.pipesReady.vfs.ram).1.length := by
    rw [expandAll_length]
    exact Nat.not_le.mpr hlen
  obtain ⟨hexit, -, -, -⟩ := pipesReady_spec σ
  obtain ⟨τ, hτ, hpipe⟩ : ∃ τ : Shell,
      τ.calls = σ.calls ++ [plainCall (expandAll ws σ.pipesReady.vfs.ram).1] ∧
        σ.runPipeline commands line =
          ((shellRunBuiltin commands (expandAll ws σ.pipesReady.vfs.ram).1).run τ).map
            fun r => (r.1, r.2.restoreRedirs.pipesDone) := by
    rw [runPipeline, stages_single hbar, runStages, runText]
    have hexit' : ({ σ.pipesReady with pipeWriter := none } : Shell).lastExit = σ.lastExit := hexit
    rw [hexit', hparse]
    simp only
    rw [runCmdline_plain rfl rfl hitems, if_neg hitemsLen, Option.map_map]
    refine ⟨_, ?_, rfl⟩
    exact congrArg (· ++ _) (pipesReady_calls σ)
  refine ⟨τ, fun r => (r.1, [0], r.2.restoreRedirs.pipesDone.shSetExit r.1), hτ, fun _ => rfl, ?_⟩
  have hdrop : line.dropWhile isBlank = c :: s := by
    rw [hcs, List.dropWhile_cons_of_neg (by simp [hblank])]
  rw [shellExecLine_text commands T σ hnul, runLine, hdrop]
  simp only [hc, if_false]
  rw [← hcs, hcut, runSegments, Segment.of]
  simp only [htrim]
  have hk : runsWith none 0 = true := rfl
  have hl : line ≠ [] := by rw [hcs]; exact List.cons_ne_nil _ _
  rw [if_neg hl, if_pos hk, hpipe]
  cases (shellRunBuiltin commands (expandAll ws σ.pipesReady.vfs.ram).1).run τ with
  | none => rfl
  | some r => simp

theorem IsName.not_mem (hc : IsName c) (hx : isSpecial x = true) : x ∉ c :=
  fun hm => absurd (hc.plain x hm).2 (by simp [hx])

theorem quotedLine_not_mem (hc : IsName c) (ha : ∀ a ∈ args, IsArg a) (hx : isSpecial x = true)
    (hb : isBlank x = false) (hq : x ≠ '\'') (h : ∀ a ∈ args, x ∉ a.2) : x ∉ quotedLine c args := by
  rw [quotedLine_mem ha (hc.not_mem hx) hb hq]
  rintro ⟨a, hm, hn⟩
  exact h a hm hn

theorem quotedLine_nul (hc : IsName c) (ha : ∀ a ∈ args, IsArg a) : NUL ∉ quotedLine c args :=
  quotedLine_not_mem hc ha rfl rfl (by decide) fun a hm => (ha a hm).nul

theorem quotedLine_head (hc : IsName c) : (quotedLine c args).head?.any isBlank = false := by
  obtain ⟨y, s, rfl⟩ := List.exists_cons_of_ne_nil hc.ne
  have hy := (hc.plain y List.mem_cons_self).1
  have hb : isBlank y = false := by
    simp only [isPlain, isDelim, decide_eq_true_eq, not_or] at hy
    simpa using hy.2.2.1.1
  simpa [quotedLine] using hb

theorem quotedLine_last (hc : IsName c) (args : List (List Char × List Char)) :
    (quotedLine c args).getLast?.any isBlank = false := by
  rcases List.eq_nil_or_concat args with rfl | ⟨pre, a, rfl⟩
  · have hlast : (quotedLine c []).getLast? = some (c.getLast hc.ne) := by
      simp [quotedLine, argsText, List.getLast?_eq_getLast_of_ne_nil hc.ne]
    have hy := (hc.plain _ (List.getLast_mem hc.ne)).1
    simp only [isPlain, isDelim, decide_eq_true_eq, not_or] at hy
    rw [hlast]
    simpa using hy.2.2.1.1
  · have hsplit : quotedLine c (pre.concat a) =
        (c ++ (argsText pre ++ (a.1 ++ '\'' :: a.2))) ++ ['\''] := by
      simp [quotedLine, argsText, quoted]
    rw [hsplit, List.getLast?_concat]
    rfl

/-- Every command succeeds and does nothing. -/
def okCommands : Commands := fun _ => some fun _ => pure 0

theorem okCommands_run (argv : List (List Char)) (τ : Shell) :
    (shellRunBuiltin okCommands argv).run τ = some (0, τ) := rfl

open Shell in
/-- What the calls of a line have in common, when the line makes only the call with `argv`. -/
theorem RunsOnly.logs {line T : List Char} {argv : List (List Char)} {P : Call → Prop}
    (h : RunsOnly σ (line ++ NUL :: T) argv) (hnul : NUL ∉ line)
    (hfirst : line.head?.any isBlank = false)
    (hP : ∀ seg ∈ segmentsFrom [] line, ∀ t ∈ stages seg.text, Calls P t) : P (plainCall argv) := by
  have hret := h.returns okCommands fun τ => by rw [okCommands_run]; rfl
  obtain ⟨⟨rc, ran, σ'⟩, hexec⟩ := Option.isSome_iff_exists.mp hret
  have hcalls := h.calls _ _ _ _ hexec
  have hdrop : line.dropWhile isBlank = line := by
    cases line with
    | nil => rfl
    | cons c s =>
      have hc : isBlank c = false := by simpa using hfirst
      rw [List.dropWhile_cons_of_neg (by simp [hc])]
  rw [← hdrop] at hP
  obtain ⟨-, new, hnew, hPnew⟩ := shellExecLine_spec hnul hP hexec
  rw [hcalls] at hnew
  have hone : [plainCall argv] = new := List.append_cancel_left hnew
  exact hPnew _ (hone ▸ List.mem_cons_self)

theorem Call.Of.count {code : Fin 256} {text : List Char} {ram : Ram} {doPipe : Bool} {call : Call}
    (h : Call.Of code text ram doPipe call) (hx : IsKept x) :
    call.argv.flatten.count x ≤ text.count x := by
  obtain ⟨cl, ram', hp, hargv⟩ := h.argv
  rw [hargv]
  exact parse_count hx (parseInPlace_eq_some.mp hp).1

/-- A byte that no stage has is in no word. -/
theorem RunsOnly.not_mem {line T : List Char} {argv : List (List Char)}
    (h : RunsOnly σ (line ++ NUL :: T) argv) (hnul : NUL ∉ line)
    (hfirst : line.head?.any isBlank = false) (hx : IsKept x)
    (hline : ∀ seg ∈ segmentsFrom [] line, ∀ t ∈ stages seg.text, x ∉ t) : x ∉ argv.flatten := by
  have hcall := h.logs (P := fun call => call.argv.flatten.count x = 0) hnul hfirst ?_
  · exact List.count_eq_zero.mp hcall
  intro seg hseg t ht code ram doPipe call hof
  have hle := hof.count hx
  rw [List.count_eq_zero_of_not_mem (hline seg hseg t ht)] at hle
  exact Nat.le_zero.mp hle

/-- The line is cut nowhere, and no word is expanded. -/
structure QuotesHold (args : List (List Char × List Char)) (ram : Ram) : Prop where
  semi : ∀ a ∈ args, ';' ∉ a.2
  bar : ∀ a ∈ args, '|' ∉ a.2
  hash : ∀ a ∈ args, '#' ∉ a.2
  and : ∀ a ∈ args, ¬ ['&', '&'] <:+: a.2
  tilde : TildesKept (args.map Prod.snd) ram

open Shell in
theorem quotedLine_exec (hc : IsName c) (ha : ∀ a ∈ args, IsArg a) (hlen : args.length ≤ 30)
    (hsemi : ∀ a ∈ args, ';' ∉ a.2) (hbar : ∀ a ∈ args, '|' ∉ a.2) (hhash : ∀ a ∈ args, '#' ∉ a.2)
    (hand : ∀ a ∈ args, ¬ ['&', '&'] <:+: a.2) (commands : Commands) (σ : Shell) (T : List Char) :
    ∃ (τ : Shell) (f : Int × Shell → Int × List Nat × Shell),
      τ.calls = σ.calls ++
          [plainCall (c :: (expandAll (args.map Prod.snd) σ.pipesReady.vfs.ram).1)] ∧
        (∀ r, (f r).2.2.calls = r.2.calls) ∧
        BojanOS.shellExecLine commands (quotedLine c args ++ NUL :: T) σ =
          ((shellRunBuiltin commands
            (c :: (expandAll (args.map Prod.snd) σ.pipesReady.vfs.ram).1)).run τ).map f := by
  have hsemi' := quotedLine_not_mem hc ha (x := ';') rfl rfl (by decide) hsemi
  have hbar' := quotedLine_not_mem hc ha (x := '|') rfl rfl (by decide) hbar
  have hhash' := quotedLine_not_mem hc ha (x := '#') rfl rfl (by decide) hhash
  have hand' : ¬ ['&', '&'] <:+: quotedLine c args := by
    rw [quotedLine_and hc ha]
    rintro ⟨a, hm, hi⟩
    exact hand a hm hi
  have hitems : (expandAll (c :: args.map Prod.snd) σ.pipesReady.vfs.ram).1 =
      c :: (expandAll (args.map Prod.snd) σ.pipesReady.vfs.ram).1 := by
    rw [expandAll, expandTilde_plain (hc.not_mem rfl)]
    rfl
  have hexec := (quotedLine_lexed hc ha).shellExecLine (T := T) (List.cons_ne_nil _ _) (by
      simp only [List.length_cons, List.length_map, ARGV_MAX]
      omega) (quotedLine_nul hc ha) hbar' (quotedLine_head hc) (quotedLine_last hc args)
    (segmentsFrom_single hsemi' hhash' hbar' hand') hhash' commands σ
  rwa [hitems] at hexec

theorem runsOnly_of_quotesHold (hc : IsName c) (ha : ∀ a ∈ args, IsArg a) (hlen : args.length ≤ 30)
    {T : List Char} (H : QuotesHold args σ.pipesReady.vfs.ram) :
    RunsOnly σ (quotedLine c args ++ NUL :: T) (c :: args.map Prod.snd) := by
  have hkept := expandAll_eq_iff.mpr H.tilde
  constructor
  · intro commands rc ran σ' h
    obtain ⟨τ, f, hτ, hf, hexec⟩ :=
      quotedLine_exec hc ha hlen H.semi H.bar H.hash H.and commands σ T
    rw [hkept] at hτ hexec
    rw [hexec] at h
    obtain ⟨⟨a, υ⟩, hrun, he⟩ := Option.map_eq_some_iff.mp h
    have hcalls := hf (a, υ)
    rw [he] at hcalls
    exact hcalls.trans ((Prog.run_routing hrun).calls.trans hτ)
  · intro commands hret
    obtain ⟨τ, f, -, -, hexec⟩ := quotedLine_exec hc ha hlen H.semi H.bar H.hash H.and commands σ T
    rw [hkept] at hexec
    rw [hexec, Option.isSome_map]
    exact hret τ

/-- Executing a line of quoted words runs the one command with these words exactly when no word has
a `;`, `|`, `#` or `&&`, and none is expanded. -/
theorem runsOnly_iff {σ : Shell} {c T : List Char} {args : List (List Char × List Char)}
    (hc : IsName c) (ha : ∀ a ∈ args, IsArg a) (hlen : args.length ≤ 30) :
    RunsOnly σ (quotedLine c args ++ NUL :: T) (c :: args.map Prod.snd) ↔
      QuotesHold args σ.pipesReady.vfs.ram := by
  refine ⟨fun H => ?_, runsOnly_of_quotesHold hc ha hlen⟩
  have hnul := quotedLine_nul hc ha
  have hhead : (quotedLine c args).head?.any isBlank = false := quotedLine_head hc
  have hwords : ∀ x, x ∉ (c :: args.map Prod.snd).flatten → ∀ a ∈ args, x ∉ a.2 := by
    intro x hx a hm hn
    exact hx (List.mem_flatten.mpr ⟨a.2, List.mem_cons_of_mem _ (List.mem_map_of_mem hm), hn⟩)
  have hcut : ∀ x, x = ';' ∨ x = '#' →
      ∀ seg ∈ segmentsFrom [] (quotedLine c args), ∀ t ∈ stages seg.text, x ∉ t := by
    intro x hx seg hseg t ht hm
    exact segmentsFrom_not_mem hseg hx List.not_mem_nil ((stages_spec ht).1.subset hm)
  have hsemi := hwords _ (H.not_mem hnul hhead (x := ';') ⟨by decide, rfl⟩ (hcut _ (.inl rfl)))
  have hhash := hwords _ (H.not_mem hnul hhead (x := '#') ⟨by decide, rfl⟩ (hcut _ (.inr rfl)))
  have hbar := hwords _ (H.not_mem hnul hhead (x := '|') ⟨by decide, rfl⟩
    fun seg _ t ht => (stages_spec ht).2)
  have hand : ∀ a ∈ args, ¬ ['&', '&'] <:+: a.2 := by
    intro a hm hi
    have hline : ['&', '&'] <:+: quotedLine c args := (quotedLine_and hc ha).mpr ⟨a, hm, hi⟩
    have hcall := H.logs
      (P := fun call => call.argv.flatten.count '&' + 2 ≤ (quotedLine c args).count '&')
      hnul hhead ?_
    · rw [quotedLine_count ha rfl (by decide)] at hcall
      exact absurd hcall (by simp [plainCall])
    intro seg hseg t ht code ram doPipe call hof
    have hseg' := segmentsFrom_and hseg (quotedLine_not_mem hc ha (x := ';') rfl rfl (by decide) hsemi)
      (quotedLine_not_mem hc ha (x := '#') rfl rfl (by decide) hhash)
      (quotedLine_not_mem hc ha (x := '|') rfl rfl (by decide) hbar) hline
    have ht' := (stages_spec ht).1.count_le '&'
    have hcount := hof.count (x := '&') ⟨by decide, rfl⟩
    rw [List.nil_append] at hseg'
    omega
  refine ⟨hsemi, hbar, hhash, hand, expandAll_eq_iff.mp ?_⟩
  obtain ⟨τ, f, hτ, hf, hexec⟩ := quotedLine_exec hc ha hlen hsemi hbar hhash hand okCommands σ T
  rw [okCommands_run] at hexec
  have hcalls := H.calls okCommands _ _ _ hexec
  rw [hf, hτ] at hcalls
  have hone := List.cons.inj (List.append_cancel_left hcalls)
  exact (List.cons.inj (congrArg Call.argv hone.1)).2

theorem echo_isName : IsName "echo".toList :=
  ⟨by decide, List.all_iff_forall_prop.mp (by decide)⟩

def echoArgs : List (List Char × List Char) := [([' '], "a < b".toList), ([' ', ' '], [])]

theorem echoArgs_isArg : ∀ a ∈ echoArgs, IsArg a := by
  intro a ha
  rcases List.mem_pair.mp ha with rfl | rfl
  · exact ⟨by decide, by decide, List.all_iff_forall_prop.mp (by decide), by decide⟩
  · exact ⟨by decide, by decide, List.all_iff_forall_prop.mp (by decide), by decide⟩

theorem echoArgs_quotesHold (ram : Ram) : QuotesHold echoArgs ram where
  semi := by decide
  bar := by decide
  hash := by decide
  and := by decide
  tilde := ⟨rfl, rfl, trivial⟩

/-- `echo 'a < b'  ''` -/
theorem echoArgs_runsOnly : RunsOnly bootShell (quotedLine "echo".toList echoArgs ++ NUL :: [])
    ("echo".toList :: echoArgs.map Prod.snd) :=
  (runsOnly_iff echo_isName echoArgs_isArg (by decide)).mpr (echoArgs_quotesHold _)

def semicolonArgs : List (List Char × List Char) := [([' '], "a;b".toList)]

/-- `echo 'a;b'` runs `echo` with the argument `a`. -/
theorem semicolonArgs_not_runsOnly :
    ¬ RunsOnly bootShell (quotedLine "echo".toList semicolonArgs ++ NUL :: [])
        ("echo".toList :: semicolonArgs.map Prod.snd) := by
  intro H
  have hcalls : (shellExecLine okCommands (quotedLine "echo".toList semicolonArgs ++ NUL :: [])
      bootShell).map (fun r => r.2.2.calls) = some [plainCall ["echo".toList, "a".toList]] := by
    rw [bootShell_spelled]
    decide +kernel
  obtain ⟨r, hr, he⟩ := Option.map_eq_some_iff.mp hcalls
  have hone := H.calls _ _ _ _ hr
  rw [he] at hone
  exact absurd hone (by decide +kernel)

end BojanOS
