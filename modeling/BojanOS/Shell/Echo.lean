import BojanOS.Dev.Vga
import BojanOS.Shell.LineEditor

/-!
# The echo on the screen (`sh_readline`, `vga_putchar`)

While a line is typed its text is kept twice, in the array and on the screen. The array loses a byte
with every backspace; the console goes back within a row only. Places are counted from the first
column of row 0 of the unbounded terminal, across the ends of the rows.
-/

namespace BojanOS

/-! ## Places of the terminal -/

namespace Terminal

variable {t : Terminal} {c : UInt8} {a : Nat}

/-- The place of the cursor. -/
def place (t : Terminal) : Nat := t.row * VGA_WIDTH + t.col

/-- The glyph at a place. -/
def glyphAt (t : Terminal) (a : Nat) : UInt8 := t.glyphs (a / VGA_WIDTH) (a % VGA_WIDTH)

theorem glyphAt_fill (hcol : t.col < VGA_WIDTH) :
    (t.fill t.col (t.col + 1) c).glyphAt a = if a = t.place then c else t.glyphAt a := by
  have hiff : a / VGA_WIDTH = t.row ∧ t.col ≤ a % VGA_WIDTH ∧ a % VGA_WIDTH < t.col + 1 ↔
      a = t.place := by
    rw [place, VGA_WIDTH] at *
    omega
  rw [glyphAt, Vga.fill_glyphs]
  exact if_congr hiff rfl rfl

theorem wrap_place (hcol : t.col ≤ VGA_WIDTH) :
    t.wrap.place = t.place ∧ t.wrap.col < VGA_WIDTH ∧ t.wrap.glyphs = t.glyphs := by
  rw [wrap]
  split
  · rename_i hfull
    refine ⟨?_, Nat.zero_lt_succ 79, rfl⟩
    rw [place, place, hfull, Nat.succ_mul]
    rfl
  · rename_i hroom
    exact ⟨rfl, Nat.lt_of_le_of_ne hcol hroom, rfl⟩

/-- The bytes that are shown as they are. -/
def Shown (c : UInt8) : Prop := c ≠ 10 ∧ c ≠ 9 ∧ c ≠ 13 ∧ c ≠ 8

theorem blank_shown : Shown 32 := ⟨by decide, by decide, by decide, by decide⟩

/-- A glyph goes to the place of the cursor, and the cursor one place on. -/
theorem type_shown (hc : Shown c) (hcol : t.col < VGA_WIDTH) :
    (t.type c).place = t.place + 1 ∧ (t.type c).col < VGA_WIDTH ∧
      ∀ a, (t.type c).glyphAt a = if a = t.place then c else t.glyphAt a := by
  obtain ⟨h₁, h₂, h₃, h₄⟩ := hc
  rw [type, if_neg h₁, if_neg h₂, if_neg h₃, if_neg h₄]
  obtain ⟨hplace, hlt, hglyphs⟩ :=
    wrap_place (t := { t.fill t.col (t.col + 1) c with col := t.col + 1 }) hcol
  refine ⟨hplace, hlt, fun a => ?_⟩
  rw [glyphAt, hglyphs]
  exact glyphAt_fill hcol

/-- A backspace within a row. -/
theorem type_back (hcol : t.col < VGA_WIDTH) (hpos : 0 < t.col) :
    (t.type 8).place + 1 = t.place ∧ (t.type 8).col + 1 = t.col ∧
      ∀ a, (t.type 8).glyphAt a = if a + 1 = t.place then 32 else t.glyphAt a := by
  have htype : t.type 8 =
      { t.fill (t.col - 1) t.col 32 with col := t.col - 1 } := by
    rw [type, if_neg (by decide), if_neg (by decide), if_neg (by decide), if_pos rfl,
      if_neg (Nat.ne_of_gt hpos)]
  rw [htype]
  refine ⟨?_, Nat.sub_add_cancel hpos, fun a => ?_⟩
  · show t.row * VGA_WIDTH + (t.col - 1) + 1 = t.place
    rw [place]
    omega
  · have hiff : a / VGA_WIDTH = t.row ∧ t.col - 1 ≤ a % VGA_WIDTH ∧ a % VGA_WIDTH < t.col ↔
        a + 1 = t.place := by
      rw [place, VGA_WIDTH] at *
      omega
    exact if_congr hiff rfl rfl

/-- At the beginning of a row a backspace does nothing. -/
theorem type_back_zero (hcol : t.col = 0) : t.type 8 = t := by
  rw [type, if_neg (by decide), if_neg (by decide), if_neg (by decide), if_pos rfl, if_pos hcol]

/-- `"\b \b"` takes the last glyph back, unless the cursor is at the beginning of a row. -/
theorem type_rubout (hcol : t.col < VGA_WIDTH) (hpos : 0 < t.col) :
    (((t.type 8).type 32).type 8).place + 1 = t.place ∧
      (((t.type 8).type 32).type 8).col < VGA_WIDTH ∧
      ∀ a, (((t.type 8).type 32).type 8).glyphAt a = if a + 1 = t.place then 32 else t.glyphAt a := by
  obtain ⟨hp₁, hc₁, ha₁⟩ := type_back hcol hpos
  obtain ⟨hp₂, hc₂, ha₂⟩ := type_shown blank_shown (t := t.type 8) (by omega)
  have hpos₂ : 0 < ((t.type 8).type 32).col := by
    rw [place, place, VGA_WIDTH] at *
    omega
  obtain ⟨hp₃, hc₃, ha₃⟩ := type_back hc₂ hpos₂
  refine ⟨by omega, by omega, fun a => ?_⟩
  rw [ha₃, ha₂, ha₁]
  split_ifs
  all_goals first | rfl | omega

/-- There it puts a blank under the cursor, and the cursor stays. -/
theorem type_rubout_zero (hcol : t.col = 0) :
    (((t.type 8).type 32).type 8).place = t.place ∧
      (((t.type 8).type 32).type 8).col < VGA_WIDTH := by
  have hlt : t.col < VGA_WIDTH := hcol ▸ Nat.zero_lt_succ 79
  rw [type_back_zero hcol]
  obtain ⟨hp₂, hc₂, -⟩ := type_shown blank_shown hlt
  have hpos₂ : 0 < (t.type 32).col := by
    rw [place, place, VGA_WIDTH] at *
    omega
  obtain ⟨hp₃, hc₃, -⟩ := type_back hc₂ hpos₂
  omega

end Terminal

/-! ## Typing at the console -/

/-- The byte that `out_raw` hands to `vga_putchar`. -/
def toByte (c : Char) : UInt8 := UInt8.ofNat c.toNat

/-- A line that is typed with nothing redirected: the variables of `sh_readline`, the screen, and the
greatest `pos` so far. -/
structure Typing where
  reader : Reader
  vga : Vga
  far : Nat

namespace Typing

/-- A round of `sh_readline` that does not leave the loop, with its echo. -/
def key (max : Nat) (h : History) (k : Int) (s : Typing) : Option Typing :=
  match Reader.key max h k s.reader with
  | some (echo, .inl reader) =>
    (Vga.vgaWrite (echo.map toByte) s.vga).map fun vga =>
      { reader, vga, far := Nat.max s.far reader.pos }
  | _ => none

def run (max : Nat) (h : History) : List Int → Typing → Option Typing
  | [], s => some s
  | k :: ks, s => (key max h k s).bind (run max h ks)

/-- The printable keys and backspace. -/
def Plain (k : Int) : Prop := k = '\x08'.toNat ∨ (32 ≤ k ∧ k < 127)

/-- The length of the line behind the key `k`. -/
def lengthen (max : Nat) (n : Nat) (k : Int) : Nat :=
  if k = '\x08'.toNat then n - 1 else if n < max - 1 then n + 1 else n

/-- The length of the line behind the keys. -/
def lineLength (max : Nat) (ks : List Int) : Nat := ks.foldl (lengthen max) 0

/-- No byte is taken back when the cursor is at the beginning of a row. The prompt ends in the column
`col`. -/
def RowsKept (max col : Nat) (ks : List Int) : Prop :=
  ∀ ps, ps ++ [('\x08'.toNat : Int)] <+: ks → 0 < lineLength max ps →
    (col + lineLength max ps) % VGA_WIDTH ≠ 0

/-- The cell in which the prompt of the screen `st` ended, where it is now. -/
def origin (st : Vga) (s : Typing) : Nat :=
  (st.scrolls + st.row - s.vga.scrolls) * VGA_WIDTH + st.col

def cursor (vga : Vga) : Nat := vga.row * VGA_WIDTH + vga.col

/-- The glyphs of the cells from `a` to `b`, read across the ends of the rows. -/
def screen (vga : Vga) (a b : Nat) : List UInt8 :=
  (List.range (b - a)).map fun i => Vga.glyph (vga.cells (a + i))

/-- From the end of the prompt to the cursor the screen shows the text of the array, and the cells of
the bytes that were deleted behind it are blank. -/
structure Agrees (st : Vga) (s : Typing) : Prop where
  text : screen s.vga (s.origin st) (cursor s.vga) =
    (Reader.chars s.reader.pos s.reader.buf).map toByte
  erased : ∀ i, s.reader.pos ≤ i → i < s.far → s.origin st + i < VGA_HEIGHT * VGA_WIDTH →
    Vga.glyph (s.vga.cells (s.origin st + i)) = 32

/-! ### One key -/

variable {max n : Nat} {h : History} {k : Int} {s : Typing} {r : Reader} {t : Terminal}

theorem reader_backspace : Reader.key max h ('\x08'.toNat : Nat) r =
    some (if 0 < r.pos then (Session.rubout, .inl { r with pos := r.pos - 1 }) else ([], .inl r)) := by
  rw [Reader.key, if_neg (by decide), if_neg (by decide), if_pos rfl]
  split <;> rfl

theorem reader_printable (hk : 32 ≤ k ∧ k < 127) (hpos : r.pos < max) : Reader.key max h k r =
    some (if r.pos < max - 1 then ([Char.ofNat k.toNat], .inl
        { r with buf := Function.update r.buf r.pos (Char.ofNat k.toNat), pos := r.pos + 1 })
      else ([], .inl r)) := by
  have hne : ∀ c : Int, ¬ (32 ≤ c ∧ c < 127) → k ≠ c := fun c hc he => hc (he ▸ hk)
  have henter : ¬ Session.isEnter k = true := by
    intro henter
    rcases of_decide_eq_true henter with he | he
    · exact hne _ (by decide) he
    · exact hne _ (by decide) he
  have hnonneg : ¬ k < 0 := by omega
  have hpoke : Reader.poke max r.pos (Char.ofNat k.toNat) r.buf =
      some (Function.update r.buf r.pos (Char.ofNat k.toNat)) := if_pos hpos
  rw [Reader.key, if_neg hnonneg, if_neg henter, if_neg (hne _ (by decide)),
    if_neg (hne _ (by decide)), if_neg (hne _ (by decide)), if_neg (hne _ (by decide)),
    if_neg (hne _ (by decide)), if_pos hk]
  simp only [hpoke]
  split <;> rfl

theorem toByte_toNat (hk : 32 ≤ k ∧ k < 127) : (toByte (Char.ofNat k.toNat)).toNat = k.toNat := by
  have hvalid : Nat.isValidChar k.toNat := .inl (by omega)
  have hchar : (Char.ofNat k.toNat).toNat = k.toNat := by
    rw [Char.ofNat, dif_pos hvalid]
    rfl
  rw [toByte, hchar, UInt8.toNat_ofNat_of_lt']
  show k.toNat < 256
  omega

theorem toByte_shown (hk : 32 ≤ k ∧ k < 127) : Terminal.Shown (toByte (Char.ofNat k.toNat)) := by
  have hnat := toByte_toNat hk
  have hne : ∀ c : UInt8, c.toNat < 32 → toByte (Char.ofNat k.toNat) ≠ c := by
    intro c hc he
    rw [he] at hnat
    omega
  exact ⟨hne 10 (by decide), hne 9 (by decide), hne 13 (by decide), hne 8 (by decide)⟩

/-- The terminal shows the text from the place `p` on, and blanks up to the farthest place. -/
structure Good (p : Nat) (t : Terminal) (s : Typing) : Prop where
  place : t.place = p + s.reader.pos
  text : ∀ i < s.reader.pos, t.glyphAt (p + i) = toByte (s.reader.buf i)
  erased : ∀ i, s.reader.pos ≤ i → i < s.far → t.glyphAt (p + i) = 32

/-- The cursor has been left behind. -/
def Behind (p : Nat) (t : Terminal) (s : Typing) : Prop := p + s.reader.pos < t.place

/-- What holds between two keys, with `n` the length of the line. -/
structure Between (max p : Nat) (kept : Prop) (n : Nat) (s : Typing) (t : Terminal) : Prop where
  window : Vga.Window s.vga t
  pos : s.reader.pos = n
  room : n < max
  good : kept → Good p t s
  behind : ¬ kept → Behind p t s

variable {p : Nat} {kept : Prop}

theorem col_eq (hcol : t.col < VGA_WIDTH) : t.place % VGA_WIDTH = t.col := by
  rw [Terminal.place, VGA_WIDTH] at *
  omega

/-- A backspace at the beginning of a row takes the byte and leaves the cursor. -/
theorem Between.key_back (B : Between max p kept n s t) (h : History) (hn : 0 < n) : ∃ s' t',
    Typing.key max h ('\x08'.toNat : Nat) s = some s' ∧
    Between max p (kept ∧ (p + n) % VGA_WIDTH ≠ 0) (n - 1) s' t' := by
  have hpos := B.pos
  have hcol : t.col < VGA_WIDTH := B.window.col ▸ B.window.col_lt
  have hbytes : Session.rubout.map toByte = [8, 32, 8] := by decide
  obtain ⟨vga, hwrite, W, -⟩ := B.window.write (Session.rubout.map toByte)
  have hkey : Typing.key max h ('\x08'.toNat : Nat) s = some
      ⟨{ s.reader with pos := s.reader.pos - 1 }, vga, Nat.max s.far (s.reader.pos - 1)⟩ := by
    rw [Typing.key, reader_backspace, if_pos (hpos ▸ hn)]
    simp only
    rw [hwrite]
    rfl
  rw [hbytes] at W
  refine ⟨_, _, hkey, W, congrArg (· - 1) hpos, (Nat.sub_le n 1).trans_lt B.room, ?_, ?_⟩
  · rintro ⟨hkept, hrow⟩
    have G := B.good hkept
    have hplace := G.place
    rw [hpos] at hplace
    rw [← hplace, col_eq hcol] at hrow
    obtain ⟨hplace', -, hglyph⟩ := Terminal.type_rubout hcol (Nat.pos_of_ne_zero hrow)
    refine ⟨?_, fun i hi => ?_, fun i hi hfar => ?_⟩
    · show (((t.type 8).type 32).type 8).place = p + (s.reader.pos - 1)
      omega
    · replace hi : i < s.reader.pos - 1 := hi
      exact (hglyph _).trans ((if_neg (by omega)).trans (G.text i (by omega)))
    · replace hi : s.reader.pos - 1 ≤ i := hi
      replace hfar : i < s.far := (lt_max_iff.mp hfar).resolve_right (Nat.not_lt.mpr hi)
      refine (hglyph _).trans ?_
      split
      · rfl
      · exact G.erased i (by omega) hfar
  · intro hbad
    show p + (s.reader.pos - 1) < (((t.type 8).type 32).type 8).place
    by_cases hkept : kept
    · have hplace := (B.good hkept).place
      rw [hpos] at hplace
      have hrow : (p + n) % VGA_WIDTH = 0 := Classical.not_not.mp fun h => hbad ⟨hkept, h⟩
      rw [← hplace, col_eq hcol] at hrow
      have hplace' := (Terminal.type_rubout_zero hrow).1
      omega
    · have hplace : p + s.reader.pos < t.place := B.behind hkept
      rcases Nat.eq_zero_or_pos t.col with hrow | hrow
      · have hplace' := (Terminal.type_rubout_zero hrow).1
        omega
      · have hplace' := (Terminal.type_rubout hcol hrow).1
        omega

/-- A key that changes nothing. -/
theorem Between.key_ignored (B : Between max p kept n s t)
    (hkey : Reader.key max h k s.reader = some ([], .inl s.reader)) : ∃ s' t',
    Typing.key max h k s = some s' ∧ Between max p kept n s' t' := by
  have hrun : Typing.key max h k s = some ⟨s.reader, s.vga, Nat.max s.far s.reader.pos⟩ := by
    rw [Typing.key, hkey]
    rfl
  refine ⟨_, t, hrun, B.window, B.pos, B.room, fun hkept => ?_, B.behind⟩
  have G := B.good hkept
  refine ⟨G.place, G.text, fun i hi hfar => G.erased i hi ?_⟩
  exact (lt_max_iff.mp hfar).resolve_right (Nat.not_lt.mpr hi)

/-- A character goes to the array and to the screen. -/
theorem Between.key_char (B : Between max p kept n s t) (h : History) (hk : 32 ≤ k ∧ k < 127)
    (hroom : n < max - 1) : ∃ s' t', Typing.key max h k s = some s' ∧
      Between max p kept (n + 1) s' t' := by
  have hpos := B.pos
  have hcol : t.col < VGA_WIDTH := B.window.col ▸ B.window.col_lt
  generalize hc : Char.ofNat k.toNat = c
  have hshown : Terminal.Shown (toByte c) := hc ▸ toByte_shown hk
  obtain ⟨vga, hwrite, W, -⟩ := B.window.write ([c].map toByte)
  have hkey : Typing.key max h k s = some
      ⟨{ s.reader with buf := Function.update s.reader.buf s.reader.pos c, pos := s.reader.pos + 1 },
        vga, Nat.max s.far (s.reader.pos + 1)⟩ := by
    rw [Typing.key, reader_printable hk (hpos ▸ B.room), if_pos (hpos ▸ hroom), hc]
    simp only
    rw [hwrite]
    rfl
  obtain ⟨hplace', -, hglyph⟩ := Terminal.type_shown hshown hcol
  refine ⟨_, t.type (toByte c), hkey, W, congrArg (· + 1) hpos, by omega, fun hkept => ?_,
    fun hkept => ?_⟩
  · have G := B.good hkept
    have hplace := G.place
    refine ⟨?_, fun i hi => ?_, fun i hi hfar => ?_⟩
    · show (t.type (toByte c)).place = p + (s.reader.pos + 1)
      omega
    · replace hi : i < s.reader.pos + 1 := hi
      rw [hglyph]
      rcases Nat.lt_succ_iff_lt_or_eq.mp hi with hlt | rfl
      · rw [if_neg (by omega), G.text i hlt]
        exact congrArg toByte (Function.update_of_ne (Nat.ne_of_lt hlt) _ _).symm
      · have hself : Function.update s.reader.buf s.reader.pos c s.reader.pos = c :=
          Function.update_self ..
        rw [if_pos hplace.symm]
        exact congrArg toByte hself.symm
    · replace hi : s.reader.pos + 1 ≤ i := hi
      replace hfar : i < s.far := (lt_max_iff.mp hfar).resolve_right (Nat.not_lt.mpr hi)
      rw [hglyph, if_neg (by omega)]
      exact G.erased i (by omega) hfar
  · have hbehind : p + s.reader.pos < t.place := B.behind hkept
    show p + (s.reader.pos + 1) < (t.type (toByte c)).place
    omega

/-- One key of any kind. -/
theorem Between.key (B : Between max p kept n s t) (h : History) (hk : Plain k) : ∃ s' t',
    Typing.key max h k s = some s' ∧
    Between max p (kept ∧ (k = '\x08'.toNat → 0 < n → (p + n) % VGA_WIDTH ≠ 0))
      (lengthen max n k) s' t' := by
  rw [lengthen]
  rcases hk with rfl | hk
  · rw [if_pos rfl]
    rcases Nat.eq_zero_or_pos n with rfl | hn
    · have hsame : (kept ∧ (('\x08'.toNat : Int) = '\x08'.toNat → 0 < 0 →
          (p + 0) % VGA_WIDTH ≠ 0)) = kept :=
        propext (and_iff_left fun _ h => absurd h (Nat.lt_irrefl 0))
      rw [hsame]
      apply B.key_ignored
      rw [reader_backspace, if_neg (B.pos ▸ Nat.lt_irrefl 0)]
    · have hsame : (kept ∧ (('\x08'.toNat : Int) = '\x08'.toNat → 0 < n →
          (p + n) % VGA_WIDTH ≠ 0)) = (kept ∧ (p + n) % VGA_WIDTH ≠ 0) :=
        propext (and_congr_right fun _ => ⟨fun h => h rfl hn, fun h _ _ => h⟩)
      rw [hsame]
      exact B.key_back h hn
  · have hne : k ≠ '\x08'.toNat := by
      rintro rfl
      exact absurd hk (by decide)
    have hsame : (kept ∧ (k = '\x08'.toNat → 0 < n → (p + n) % VGA_WIDTH ≠ 0)) = kept :=
      propext (and_iff_left fun h => absurd h hne)
    rw [hsame, if_neg hne]
    split
    · rename_i hroom
      exact B.key_char h hk hroom
    · rename_i hfull
      apply B.key_ignored
      rw [reader_printable hk (B.pos ▸ B.room), if_neg (B.pos ▸ hfull)]

/-! ### The whole line -/

theorem rowsKept_cons {col : Nat} {ks : List Int} {f : List Int → Nat} :
    (∀ ps, ps ++ [('\x08'.toNat : Int)] <+: k :: ks → 0 < f ps → (col + f ps) % VGA_WIDTH ≠ 0) ↔
      (k = '\x08'.toNat → 0 < f [] → (col + f []) % VGA_WIDTH ≠ 0) ∧
      ∀ ps, ps ++ [('\x08'.toNat : Int)] <+: ks →
        0 < f (k :: ps) → (col + f (k :: ps)) % VGA_WIDTH ≠ 0 := by
  constructor
  · intro H
    refine ⟨fun hk => ?_, fun ps hps => ?_⟩
    · exact H [] (hk ▸ List.prefix_append [k] ks)
    · exact H (k :: ps) (List.cons_prefix_cons.mpr ⟨rfl, hps⟩)
  · rintro ⟨h0, H⟩ ps hps
    cases ps with
    | nil => exact h0 (List.cons_prefix_cons.mp hps).1.symm
    | cons c ps =>
      obtain ⟨hc, hps'⟩ := List.cons_prefix_cons.mp hps
      subst hc
      exact H ps hps'

theorem Between.run {ks : List Int} (B : Between max p kept n s t) (h : History)
    (hks : ∀ k ∈ ks, Plain k) : ∃ s' t', Typing.run max h ks s = some s' ∧
    Between max p (kept ∧ ∀ ps, ps ++ [('\x08'.toNat : Int)] <+: ks →
        0 < ps.foldl (lengthen max) n → (p + ps.foldl (lengthen max) n) % VGA_WIDTH ≠ 0)
      (ks.foldl (lengthen max) n) s' t' := by
  induction ks generalizing kept n s t with
  | nil =>
    have hsame : (kept ∧ ∀ ps, ps ++ [('\x08'.toNat : Int)] <+: [] →
        0 < ps.foldl (lengthen max) n → (p + ps.foldl (lengthen max) n) % VGA_WIDTH ≠ 0) = kept :=
      propext (and_iff_left fun ps hps => absurd (List.prefix_nil.mp hps) (by simp))
    refine ⟨s, t, rfl, ?_⟩
    rw [hsame]
    exact B
  | cons k ks ih =>
    rw [List.forall_mem_cons] at hks
    obtain ⟨s₁, t₁, hkey, B₁⟩ := B.key h hks.1
    obtain ⟨s', t', hrun, B'⟩ := ih B₁ hks.2
    refine ⟨s', t', ?_, ?_⟩
    · rw [Typing.run, hkey, Option.bind_some, hrun]
    · rw [rowsKept_cons (f := fun ps => ps.foldl (lengthen max) n), ← and_assoc]
      exact B'

/-- A cell of the screen is a place of the terminal. -/
theorem glyph_eq {vga : Vga} (W : Vga.Window vga t) {j : Nat} (hj : j < VGA_HEIGHT * VGA_WIDTH) :
    Vga.glyph (vga.cells j) = t.glyphAt (vga.scrolls * VGA_WIDTH + j) := by
  have hcell := W.glyphs (j / VGA_WIDTH) (by rw [VGA_HEIGHT, VGA_WIDTH] at *; omega) (j % VGA_WIDTH)
    (by rw [VGA_WIDTH]; omega)
  have hj' : j / VGA_WIDTH * VGA_WIDTH + j % VGA_WIDTH = j := Nat.div_add_mod' j VGA_WIDTH
  have hrow : (vga.scrolls * VGA_WIDTH + j) / VGA_WIDTH = vga.scrolls + j / VGA_WIDTH := by
    rw [VGA_WIDTH]
    omega
  have hcol : (vga.scrolls * VGA_WIDTH + j) % VGA_WIDTH = j % VGA_WIDTH := by
    rw [VGA_WIDTH]
    omega
  rw [hj'] at hcell
  rw [hcell, Terminal.glyphAt, hrow, hcol]

variable {st : Vga} {t₀ : Terminal}

/-- With the prompt on the screen, the places tell whether screen and array agree. -/
theorem Between.agrees (B : Between max t₀.place kept n s t) (W₀ : Vga.Window st t₀)
    (hscroll : s.vga.scrolls ≤ st.scrolls + st.row) : s.Agrees st ↔ kept := by
  have W := B.window
  have horigin : s.vga.scrolls * VGA_WIDTH + s.origin st = t₀.place := by
    have hrow := W₀.row
    have hcol := W₀.col
    rw [origin, Terminal.place, VGA_WIDTH, hrow, hcol]
    omega
  have hcursor : s.vga.scrolls * VGA_WIDTH + cursor s.vga = t.place := by
    rw [cursor, Terminal.place, W.row, W.col, VGA_WIDTH]
    omega
  have hlt : cursor s.vga < VGA_HEIGHT * VGA_WIDTH := Vga.cell_lt W.row_lt W.col_lt
  constructor
  · intro A
    by_contra hbad
    have hbehind : t₀.place + s.reader.pos < t.place := B.behind hbad
    have hlen := congrArg List.length A.text
    rw [screen, List.length_map, List.length_range, List.length_map, Reader.chars, List.length_map,
      List.length_range] at hlen
    omega
  · intro hkept
    have G := B.good hkept
    have hplace := G.place
    have hlen : cursor s.vga - s.origin st = s.reader.pos := by omega
    refine ⟨?_, fun i hi hfar hin => ?_⟩
    · rw [screen, hlen, Reader.chars, List.map_map]
      apply List.map_congr_left
      intro i hi
      have hi := List.mem_range.mp hi
      rw [glyph_eq W (by omega), ← Nat.add_assoc, horigin]
      exact G.text i hi
    · rw [glyph_eq W hin, ← Nat.add_assoc, horigin]
      exact G.erased i hi hfar

/-- The typing begins behind the prompt, on the screen `st`. -/
def start (h : History) (buf : Nat → Char) (lastExit : Int) (st : Vga) : Typing :=
  ⟨Reader.entry h buf lastExit, st, 0⟩

/-- As long as the prompt is on the screen, the screen and the array agree if and only if no byte was
taken back at the beginning of a row. -/
theorem agrees_iff (max : Nat) (h : History) (buf : Nat → Char) (lastExit : Int) (st : Vga)
    (t₀ : Terminal) (ks : List Int) (hmax : 2 ≤ max) (W : Vga.Window st t₀)
    (hks : ∀ k ∈ ks, Plain k) : ∃ s, run max h ks (start h buf lastExit st) = some s ∧
      (s.vga.scrolls ≤ st.scrolls + st.row → (s.Agrees st ↔ RowsKept max st.col ks)) := by
  have B : Between max t₀.place True 0 (start h buf lastExit st) t₀ := by
    refine ⟨W, rfl, by omega, fun _ => ⟨rfl, ?_, ?_⟩, fun h => absurd trivial h⟩
    · exact fun i hi => absurd hi (Nat.not_lt_zero i)
    · exact fun i _ hi => absurd hi (Nat.not_lt_zero i)
  obtain ⟨s, t, hrun, B'⟩ := B.run h hks
  refine ⟨s, hrun, fun hscroll => (B'.agrees W hscroll).trans ?_⟩
  have hcol : ∀ n, (t₀.place + n) % VGA_WIDTH = (st.col + n) % VGA_WIDTH := by
    intro n
    rw [Terminal.place, W.col, VGA_WIDTH]
    omega
  rw [true_and]
  simp only [hcol]
  exact Iff.rfl

/-- A blank screen with the cursor in the column `col` of the first row. -/
def blankScreen (col : Nat) : Vga := ⟨fun _ => 0x0720, 0, col, 7, 0, col, 0⟩

theorem blankScreen_window {col : Nat} (hcol : col < VGA_WIDTH) :
    Vga.Window (blankScreen col) ⟨fun _ _ => 32, 0, col⟩ where
  row_lt := Nat.zero_lt_succ 24
  row := rfl
  glyphs _ _ _ _ := by
    show Vga.glyph 0x0720 = 32
    decide
  below _ _ _ := rfl
  col_lt := hcol
  col := rfl

/-- `ab`, and `b` is taken back. -/
theorem agrees_row : ∃ s,
    run 1024 ⟨fun _ => none, 0⟩ [97, 98, 8] (start ⟨fun _ => none, 0⟩ (fun _ => 'x') 0 (blankScreen 7)) =
      some s ∧ s.Agrees (blankScreen 7) := by
  have hkeys : ∀ k ∈ ([97, 98, 8] : List Int), Plain k := by
    intro k hk
    simp only [List.mem_cons, List.not_mem_nil, or_false] at hk
    rcases hk with rfl | rfl | rfl
    · exact Or.inr (by decide)
    · exact Or.inr (by decide)
    · exact Or.inl rfl
  have hrows : RowsKept 1024 (blankScreen 7).col [97, 98, 8] := by
    intro ps hps _
    have hback : ('\x08'.toNat : Int) = 8 := rfl
    rw [hback] at hps
    rcases List.prefix_concat_iff.mp (show ps ++ [(8 : Int)] <+: [97, 98] ++ [8] from hps)
      with he | hps
    · obtain ⟨rfl, -⟩ := List.append_inj' he rfl
      decide
    · have hlast := hps.subset (List.mem_append_right ps List.mem_cons_self)
      exact absurd hlast (by decide)
  have hscrolls : (run 1024 ⟨fun _ => none, 0⟩ [97, 98, 8]
      (start ⟨fun _ => none, 0⟩ (fun _ => 'x') 0 (blankScreen 7))).map
        (fun s => s.vga.scrolls) = some 0 := by decide
  obtain ⟨s, hrun, hiff⟩ := agrees_iff 1024 ⟨fun _ => none, 0⟩ (fun _ => 'x') 0 (blankScreen 7)
    ⟨fun _ _ => 32, 0, 7⟩ [97, 98, 8] (by decide) (blankScreen_window (by decide)) hkeys
  rw [hrun] at hscrolls
  have hzero : s.vga.scrolls = 0 := Option.some.inj hscrolls
  exact ⟨s, hrun, (hiff (hzero ▸ Nat.zero_le _)).mpr hrows⟩

/-- A prompt of 79 columns: `a` fills the row, and backspace leaves it on the screen. -/
theorem not_agrees : ¬ ∀ (max : Nat) (h : History) (buf : Nat → Char) (lastExit : Int) (st : Vga)
    (t₀ : Terminal) (ks : List Int) (s : Typing), 2 ≤ max → Vga.Window st t₀ →
    (∀ k ∈ ks, Plain k) → run max h ks (start h buf lastExit st) = some s →
    s.vga.scrolls ≤ st.scrolls + st.row → s.Agrees st := by
  intro H
  have hkeys : ∀ k ∈ ([97, 8] : List Int), Plain k := by
    intro k hk
    simp only [List.mem_cons, List.not_mem_nil, or_false] at hk
    rcases hk with rfl | rfl
    · exact Or.inr (by decide)
    · exact Or.inl rfl
  have hend : (run 1024 ⟨fun _ => none, 0⟩ [97, 8]
      (start ⟨fun _ => none, 0⟩ (fun _ => 'x') 0 (blankScreen 79))).map
        (fun s => (s.vga.scrolls, cursor s.vga - s.origin (blankScreen 79), s.reader.pos)) =
      some (0, 1, 0) := by decide
  obtain ⟨s, hrun, hs⟩ := Option.map_eq_some_iff.mp hend
  obtain ⟨hscrolls, hs⟩ := Prod.mk.inj hs
  obtain ⟨hcursor, hpos⟩ := Prod.mk.inj hs
  have A := H 1024 ⟨fun _ => none, 0⟩ (fun _ => 'x') 0 (blankScreen 79) ⟨fun _ _ => 32, 0, 79⟩
    [97, 8] s (by decide) (blankScreen_window (by decide)) hkeys hrun
    (hscrolls ▸ Nat.zero_le _)
  have hlen := congrArg List.length A.text
  rw [screen, List.length_map, List.length_range, List.length_map, Reader.chars, List.length_map,
    List.length_range, hcursor, hpos] at hlen
  exact absurd hlen (by decide)

end Typing

end BojanOS
