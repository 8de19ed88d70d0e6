import BojanOS.Shell.CtrlC
import BojanOS.Shell.History

/-!
# Reading a line (`sh_readline`)

The keys are the answers of `sh_getc`. Each round of the loop is a step on the array, `pos` and
`hist_pos`, with the text that it echoes; a store at `max` or behind it has no result. `Editor` is
the line editor that the function is meant to be.
-/

namespace BojanOS

/-- The variables of `sh_readline`, `hist_pos` and `last_exit`. -/
structure Reader where
  buf : Nat → Char
  pos : Nat
  histPos : Nat
  lastExit : Int

namespace Reader

/-- `buf[i] = c` -/
def poke (max i : Nat) (c : Char) (buf : Nat → Char) : Option (Nat → Char) :=
  if i < max then some (Function.update buf i c) else none

/-- `strncpy(buf, src, n)`, with zeros behind the text. -/
def strncpy (max : Nat) (src : List Char) (n : Nat) (buf : Nat → Char) : Option (Nat → Char) :=
  Loop.upTo (fun i => poke max i (src.getD i NUL)) n buf

/-- `strlen(buf)`; `none` when there is no terminator in the array. -/
def strlen (max : Nat) (buf : Nat → Char) : Option Nat := (List.range max).find? fun i => buf i = NUL

/-- `buf[0 .. n)` -/
def chars (n : Nat) (buf : Nat → Char) : List Char := (List.range n).map buf

/-- `while (pos > 0)` with one `rubout` a byte. -/
def eraseText (pos : Nat) : List Char := (List.replicate pos Session.rubout).flatten

/-- `strncpy(buf, history[hist_pos], max - 1); buf[max - 1] = 0;` -/
def fetch (max : Nat) (entry : Option (List Char)) (buf : Nat → Char) : Option (Nat → Char) := do
  let text ← entry
  let buf ← strncpy max text (max - 1) buf
  poke max (max - 1) NUL buf

/-- `pos = strlen(buf); sh_puts(buf);` behind the erasure of the old text. -/
def shown (max : Nat) (buf : Nat → Char) (s : Reader) : Option (List Char × Reader) := do
  let pos ← strlen max buf
  some (eraseText s.pos ++ chars pos buf, { s with buf, pos })

/-- `buf[pos] = 0; return code;` -/
def leave (max : Nat) (echo : List Char) (code : Int) (s : Reader) :
    Option (List Char × (Reader ⊕ Int × Reader)) :=
  (poke max s.pos NUL s.buf).map fun buf => (echo, .inr (code, { s with buf }))

/-- A round of the loop that does not leave it. -/
def stay : List Char × Reader → List Char × (Reader ⊕ Int × Reader)
  | (echo, s) => (echo, .inl s)

/-- One round of the loop: what it echoes, and the state or what the function returns. -/
def key (max : Nat) (h : History) (c : Int) (s : Reader) :
    Option (List Char × (Reader ⊕ Int × Reader)) :=
  if c < 0 then s.leave max [] (-1)
  else if Session.isEnter c then s.leave max ['\n'] s.pos
  else if c = '\x08'.toNat then
    some (stay (if 0 < s.pos then (Session.rubout, { s with pos := s.pos - 1 }) else ([], s)))
  else if c = KB_CTRL_D then s.leave max [] (-1)
  else if c = KB_CTRL_C then
    (poke max 0 NUL s.buf).map fun buf =>
      ("^C\n".toList, .inr (0, { s with buf, lastExit := 130 }))
  else if c = KB_KEY_UP then
    if h.count ≠ 0 ∧ 0 < s.histPos then do
      let buf ← fetch max (h.slots (s.histPos - 1)) s.buf
      (shown max buf { s with histPos := s.histPos - 1 }).map stay
    else some (stay ([], s))
  else if c = KB_KEY_DOWN then
    if s.histPos + 1 < h.count then do
      let buf ← fetch max (h.slots (s.histPos + 1)) s.buf
      (shown max buf { s with histPos := s.histPos + 1 }).map stay
    else do
      let buf ← poke max 0 NUL s.buf
      (shown max buf { s with histPos := h.count }).map stay
  else if 32 ≤ c ∧ c < 127 then
    if s.pos < max - 1 then
      let ch := Char.ofNat c.toNat
      (poke max s.pos ch s.buf).map fun buf => stay ([ch], { s with buf, pos := s.pos + 1 })
    else some (stay ([], s))
  else some (stay ([], s))

/-- `sh_readline` on these keys, with everything that it echoes; `none` too when it waits for more. -/
def shReadline (max : Nat) (h : History) : List Int → Reader → Option (List Char × Int × Reader)
  | [], _ => none
  | c :: cs, s => do
    let (echo, next) ← key max h c s
    match next with
    | .inr (n, s) => some (echo, n, s)
    | .inl s => do
      let (rest, n, s) ← shReadline max h cs s
      some (echo ++ rest, n, s)

end Reader

/-! ## The line editor -/

/-- A text, and the entry of the history that it comes from; the place behind the newest entry is
the line that is new. -/
structure Editor where
  text : List Char
  place : Nat

namespace Editor

/-- The entry `i`, as far as there is room. -/
def entry (max : Nat) (entries : List (List Char)) (i : Nat) : Editor :=
  ⟨(entries.getD i []).take (max - 1), i⟩

def key (max : Nat) (entries : List (List Char)) (e : Editor) (c : Int) : Editor :=
  if c = '\x08'.toNat then { e with text := e.text.dropLast }
  else if c = KB_KEY_UP then if e.place = 0 then e else entry max entries (e.place - 1)
  else if c = KB_KEY_DOWN then
    if e.place + 1 < entries.length then entry max entries (e.place + 1) else ⟨[], entries.length⟩
  else if 32 ≤ c ∧ c < 127 then
    if e.text.length < max - 1 then { e with text := e.text ++ [Char.ofNat c.toNat] } else e
  else e

/-- What goes to the screen with the key. -/
def echo (max : Nat) (entries : List (List Char)) (e : Editor) (c : Int) : List Char :=
  if c = '\x08'.toNat then if e.text = [] then [] else Session.rubout
  else if c = KB_KEY_UP then
    if e.place = 0 then []
    else Reader.eraseText e.text.length ++ (entry max entries (e.place - 1)).text
  else if c = KB_KEY_DOWN then
    Reader.eraseText e.text.length ++
      if e.place + 1 < entries.length then (entry max entries (e.place + 1)).text else []
  else if 32 ≤ c ∧ c < 127 then
    if e.text.length < max - 1 then [Char.ofNat c.toNat] else []
  else []

/-- The text after the keys `cs`, from an empty line. -/
def typed (max : Nat) (entries : List (List Char)) (cs : List Int) : Editor :=
  cs.foldl (key max entries) ⟨[], entries.length⟩

end Editor

/-! ## The array -/

namespace Reader

variable {max n i : Nat} {buf buf' : Nat → Char} {c : Char} {text : List Char}

theorem chars_succ (n : Nat) (buf : Nat → Char) : chars (n + 1) buf = chars n buf ++ [buf n] := by
  rw [chars, List.range_succ, List.map_append]
  rfl

theorem chars_congr (h : ∀ i < n, buf i = buf' i) : chars n buf = chars n buf' := by
  apply List.map_congr_left
  intro i hi
  exact h i (List.mem_range.mp hi)

theorem chars_update (n : Nat) (buf : Nat → Char) (c : Char) :
    chars n (Function.update buf n c) = chars n buf :=
  chars_congr fun _ hi => Function.update_of_ne (Nat.ne_of_lt hi) _ _

theorem chars_getD (text : List Char) (hn : n ≤ text.length) :
    chars n (fun i => text.getD i NUL) = text.take n := by
  induction n with
  | zero => rfl
  | succ n ih =>
    rw [chars_succ, ih (Nat.le_of_succ_le hn), List.take_succ_eq_append_getElem hn,
      List.getD_eq_getElem _ _ hn]

theorem strlen_eq (hn : n < max) (hnul : buf n = NUL) (htext : NUL ∉ chars n buf) :
    strlen max buf = some n := by
  rw [strlen, List.find?_range_eq_some]
  refine ⟨by rw [hnul]; rfl, List.mem_range.mpr hn, fun i hi => ?_⟩
  have hne : buf i ≠ NUL := by
    intro h
    exact htext (h ▸ List.mem_map_of_mem (List.mem_range.mpr hi))
  rw [decide_eq_false hne]
  rfl

/-- `strncpy` writes all of its `n` bytes. -/
theorem strncpy_eq (text : List Char) (buf : Nat → Char) (hn : n ≤ max) : strncpy max text n buf =
    some fun i => if i < n then text.getD i NUL else buf i := by
  have hstart : buf = fun i => if i < 0 then text.getD i NUL else buf i :=
    funext fun i => (if_neg (Nat.not_lt_zero i)).symm
  rw [strncpy, hstart]
  apply Loop.upTo_eq (g := fun k i => if i < k then text.getD i NUL else
    if i < 0 then text.getD i NUL else buf i)
  intro k hk
  rw [poke, if_pos (hk.trans_le hn)]
  congr 1
  funext i
  rcases Nat.lt_trichotomy i k with hlt | rfl | hlt
  · rw [Function.update_of_ne (Nat.ne_of_lt hlt), if_pos hlt, if_pos (Nat.lt_succ_of_lt hlt)]
  · rw [Function.update_self, if_pos (Nat.lt_succ_self i)]
  · rw [Function.update_of_ne (Nat.ne_of_gt hlt), if_neg (Nat.not_lt.mpr (Nat.le_of_lt hlt)),
      if_neg (Nat.not_lt.mpr hlt)]

/-- The array holds the text and its terminator. -/
structure Holds (max : Nat) (text : List Char) (buf : Nat → Char) : Prop where
  text_eq : chars text.length buf = text
  len_eq : strlen max buf = some text.length

theorem Holds.of_get (hlen : text.length < max) (hnul : NUL ∉ text)
    (hbuf : ∀ i ≤ text.length, buf i = text.getD i NUL) : Holds max text buf := by
  have hchars : chars text.length buf = text := by
    rw [chars_congr fun i hi => hbuf i (Nat.le_of_lt hi), chars_getD text le_rfl,
      List.take_length]
  refine ⟨hchars, strlen_eq hlen ?_ (by rwa [hchars])⟩
  rw [hbuf _ le_rfl, List.getD_eq_default _ _ le_rfl]

/-- The array behind an entry of the history. -/
theorem fetch_eq (buf : Nat → Char) (hmax : 0 < max) (hnul : NUL ∉ text) :
    ∃ buf', fetch max (some text) buf = some buf' ∧ Holds max (text.take (max - 1)) buf' := by
  have hcopy := strncpy_eq text buf (Nat.sub_le max 1)
  have hlast : max - 1 < max := Nat.sub_lt hmax Nat.one_pos
  refine ⟨Function.update (fun i => if i < max - 1 then text.getD i NUL else buf i) (max - 1) NUL,
    ?_, ?_⟩
  · rw [fetch, Option.bind_eq_bind, Option.bind_some, hcopy, Option.bind_eq_bind,
      Option.bind_some, poke, if_pos hlast]
  · have hlen : (text.take (max - 1)).length ≤ max - 1 := List.length_take_le _ _
    apply Holds.of_get (hlen.trans_lt hlast)
    · exact fun h => hnul (List.mem_of_mem_take h)
    · intro i hi
      rcases (hi.trans hlen).lt_or_eq with hlt | rfl
      · rw [Function.update_of_ne (Nat.ne_of_lt hlt), if_pos hlt, List.getD_eq_getElem?_getD,
          List.getD_eq_getElem?_getD, List.getElem?_take_of_lt hlt]
      · rw [Function.update_self, List.getD_eq_default _ _ hlen]

/-! ## The simulation -/

/-- The array and the editor have the same text. -/
structure Edits (max : Nat) (s : Reader) (e : Editor) : Prop where
  pos : s.pos = e.text.length
  text_eq : chars e.text.length s.buf = e.text
  room : e.text.length < max
  clean : NUL ∉ e.text
  place : s.histPos = e.place

/-- The keys that a line is typed with. -/
structure Types (c : Int) : Prop where
  nonneg : 0 ≤ c
  not_enter : Session.isEnter c = false
  not_ctrl : c ≠ KB_CTRL_C ∧ c ≠ KB_CTRL_D

variable {h : History} {entries : List (List Char)} {s : Reader} {e : Editor} {k : Int}

theorem Edits.shown (place : Nat) (hlen : text.length < max) (hnul : NUL ∉ text)
    (H : Holds max text buf) : ∃ s',
      Reader.shown max buf { s with histPos := place } = some (eraseText s.pos ++ text, s') ∧
      Edits max s' ⟨text, place⟩ := by
  refine ⟨{ s with buf, pos := text.length, histPos := place }, ?_, ?_⟩
  · rw [Reader.shown, H.len_eq, Option.bind_eq_bind, Option.bind_some, H.text_eq]
  · exact ⟨rfl, H.text_eq, hlen, hnul, rfl⟩

/-- An entry of the history takes the place of the text. -/
theorem Edits.fetched (hmax : 0 < max) (he : h.entries = entries.map some)
    (hnul : ∀ text ∈ entries, NUL ∉ text) {i : Nat} (hi : i < h.count) : ∃ buf' s',
      fetch max (h.slots i) s.buf = some buf' ∧
      Reader.shown max buf' { s with histPos := i } =
        some (eraseText s.pos ++ (Editor.entry max entries i).text, s') ∧
      Edits max s' (Editor.entry max entries i) := by
  have hget := History.entries_getElem? hi
  rw [he, List.getElem?_map] at hget
  obtain ⟨text, htext, hslot⟩ := Option.map_eq_some_iff.mp hget
  have hclean := hnul text (List.mem_of_getElem? htext)
  obtain ⟨buf', hfetch, H⟩ := fetch_eq s.buf hmax hclean
  have hlen : (text.take (max - 1)).length < max :=
    (List.length_take_le _ _).trans_lt (Nat.sub_lt hmax Nat.one_pos)
  obtain ⟨s', hshown, E⟩ := Edits.shown (s := s) i hlen
    (fun hmem => hclean (List.mem_of_mem_take hmem)) H
  have hentry : Editor.entry max entries i = ⟨text.take (max - 1), i⟩ := by
    rw [Editor.entry, List.getD_eq_getElem?_getD, htext]
    rfl
  rw [hentry]
  exact ⟨buf', s', hslot ▸ hfetch, hshown, E⟩

/-- The line behind the newest entry takes the place of the text. -/
theorem Edits.emptied (place : Nat) (hmax : 0 < max) : ∃ s',
    Reader.shown max (Function.update s.buf 0 NUL) { s with histPos := place } =
      some (eraseText s.pos ++ [], s') ∧ Edits max s' ⟨[], place⟩ := by
  apply Edits.shown place hmax List.not_mem_nil
  apply Holds.of_get hmax List.not_mem_nil
  intro i hi
  rw [Nat.le_zero.mp hi]
  exact Function.update_self ..

theorem Edits.backspace (E : Edits max s e) (hpos : 0 < s.pos) :
    Edits max { s with pos := s.pos - 1 } { e with text := e.text.dropLast } := by
  obtain ⟨n, hn⟩ := Nat.exists_eq_succ_of_ne_zero (Nat.ne_of_gt (E.pos ▸ hpos))
  have htext := E.text_eq
  have hlen : e.text.dropLast.length = n := by rw [List.length_dropLast, hn, Nat.succ_sub_one]
  rw [hn, chars_succ] at htext
  refine ⟨?_, ?_, ?_, fun h => E.clean (List.mem_of_mem_dropLast h), E.place⟩
  · show s.pos - 1 = e.text.dropLast.length
    rw [hlen, E.pos, hn, Nat.succ_sub_one]
  · show chars e.text.dropLast.length s.buf = e.text.dropLast
    rw [hlen, ← htext, List.dropLast_concat]
  · exact (List.length_dropLast ▸ Nat.sub_le _ 1).trans_lt E.room

theorem Edits.append (E : Edits max s e) (hroom : e.text.length < max - 1) (hc : NUL ≠ c) :
    Edits max { s with buf := Function.update s.buf s.pos c, pos := s.pos + 1 }
      { e with text := e.text ++ [c] } := by
  have hlen : (e.text ++ [c]).length = e.text.length + 1 := List.length_append
  refine ⟨?_, ?_, ?_, fun h => ?_, E.place⟩
  · exact (congrArg (· + 1) E.pos).trans hlen.symm
  · show chars (e.text ++ [c]).length (Function.update s.buf s.pos c) = e.text ++ [c]
    rw [hlen, E.pos, chars_succ, chars_update, E.text_eq, Function.update_self]
  · show (e.text ++ [c]).length < max
    omega
  · rcases List.mem_append.mp h with h | h
    · exact E.clean h
    · exact hc (List.mem_singleton.mp h)

/-- Every key does to the array what it does to the text of the editor. -/
theorem Edits.key (E : Edits max s e) (hmax : 0 < max) (he : h.entries = entries.map some)
    (hnul : ∀ text ∈ entries, NUL ∉ text) (hplace : e.place ≤ h.count) (T : Types k) :
    ∃ s', Reader.key max h k s = some (e.echo max entries k, .inl s') ∧
      Edits max s' (e.key max entries k) := by
  have hcount : entries.length = h.count := by
    rw [← History.entries_length, he, List.length_map]
  have hnonneg := Int.not_lt.mpr T.nonneg
  rw [Reader.key, Editor.key, Editor.echo, if_neg hnonneg, T.not_enter,
    if_neg Bool.false_ne_true, ← E.pos]
  by_cases hback : k = '\x08'.toNat
  · rw [if_pos hback, if_pos hback, if_pos hback]
    by_cases hpos : 0 < s.pos
    · have htext : e.text ≠ [] := List.length_pos_iff.mp (E.pos ▸ hpos)
      rw [if_pos hpos, if_neg htext]
      exact ⟨_, rfl, E.backspace hpos⟩
    · have hzero : e.text.length = 0 := E.pos ▸ Nat.eq_zero_of_not_pos hpos
      have hnil : e.text = [] := List.eq_nil_of_length_eq_zero hzero
      have hdrop : e.text.dropLast = e.text := by
        rw [hnil]
        rfl
      rw [if_neg hpos, if_pos hnil, hdrop]
      exact ⟨_, rfl, E⟩
  rw [if_neg hback, if_neg hback, if_neg hback, if_neg T.not_ctrl.2, if_neg T.not_ctrl.1]
  by_cases hup : k = KB_KEY_UP
  · rw [if_pos hup, if_pos hup, if_pos hup, E.place]
    by_cases hzero : e.place = 0
    · rw [if_neg fun h => Nat.ne_of_gt h.2 hzero, if_pos hzero, if_pos hzero]
      exact ⟨_, rfl, E⟩
    · obtain ⟨buf', s', hfetch, hshown, E'⟩ :=
        Edits.fetched (s := s) (i := e.place - 1) hmax he hnul (by omega)
      rw [if_pos (by omega), if_neg hzero, if_neg hzero, hfetch, Option.bind_eq_bind,
        Option.bind_some, hshown]
      exact ⟨s', rfl, E'⟩
  rw [if_neg hup, if_neg hup, if_neg hup]
  by_cases hdown : k = KB_KEY_DOWN
  · rw [if_pos hdown, if_pos hdown, if_pos hdown, E.place, hcount]
    by_cases hlast : e.place + 1 < h.count
    · obtain ⟨buf', s', hfetch, hshown, E'⟩ :=
        Edits.fetched (s := s) hmax he hnul hlast
      rw [if_pos hlast, if_pos hlast, if_pos hlast, hfetch, Option.bind_eq_bind,
        Option.bind_some, hshown]
      exact ⟨s', rfl, E'⟩
    · obtain ⟨s', hshown, E'⟩ := Edits.emptied (s := s) h.count hmax
      have hpoke : poke max 0 NUL s.buf = some (Function.update s.buf 0 NUL) := if_pos hmax
      rw [if_neg hlast, if_neg hlast, if_neg hlast, hpoke, Option.bind_eq_bind,
        Option.bind_some, hshown]
      exact ⟨s', rfl, E'⟩
  rw [if_neg hdown, if_neg hdown, if_neg hdown]
  by_cases hprint : 32 ≤ k ∧ k < 127
  · rw [if_pos hprint, if_pos hprint, if_pos hprint]
    by_cases hroom : s.pos < max - 1
    · have E' := E.append (E.pos ▸ hroom) (Session.char_ne_nul hprint)
      have hpoke : poke max s.pos (Char.ofNat k.toNat) s.buf =
          some (Function.update s.buf s.pos (Char.ofNat k.toNat)) := if_pos (E.pos ▸ E.room)
      rw [if_pos hroom, if_pos hroom, if_pos hroom]
      simp only
      rw [hpoke]
      exact ⟨_, rfl, E'⟩
    · rw [if_neg hroom, if_neg hroom, if_neg hroom]
      exact ⟨_, rfl, E⟩
  · rw [if_neg hprint, if_neg hprint, if_neg hprint]
    exact ⟨_, rfl, E⟩

/-- The place stays in the history. -/
theorem key_place (hplace : e.place ≤ entries.length) :
    (e.key max entries k).place ≤ entries.length := by
  rw [Editor.key]
  split_ifs
  · exact hplace
  · exact hplace
  · exact (Nat.sub_le _ 1).trans hplace
  · exact Nat.le_of_lt ‹_›
  · exact le_rfl
  · exact hplace
  · exact hplace
  · exact hplace

/-- Enter stores the terminator and returns the length. -/
theorem Edits.enter (E : Edits max s e) (henter : Session.isEnter k = true) (hk : 0 ≤ k) :
    ∃ buf, Reader.key max h k s = some (['\n'], .inr (s.pos, { s with buf })) ∧
      Holds max e.text buf := by
  refine ⟨Function.update s.buf s.pos NUL, ?_, ?_⟩
  · rw [Reader.key, if_neg (Int.not_lt.mpr hk), if_pos henter, leave, poke,
      if_pos (E.pos ▸ E.room)]
    rfl
  · have htext : chars e.text.length (Function.update s.buf s.pos NUL) = e.text := by
      rw [E.pos, chars_update, E.text_eq]
    refine ⟨htext, strlen_eq E.room ?_ (by rw [htext]; exact E.clean)⟩
    rw [E.pos, Function.update_self]

/-- The whole run. -/
theorem Edits.readline (hmax : 0 < max) (he : h.entries = entries.map some)
    (hnul : ∀ text ∈ entries, NUL ∉ text) {ks : List Int} (hks : ∀ k ∈ ks, Types k)
    (henter : Session.isEnter k = true) (hk : 0 ≤ k) (E : Edits max s e)
    (hplace : e.place ≤ entries.length) : ∃ echo s',
      shReadline max h (ks ++ [k]) s =
        some (echo, ((ks.foldl (Editor.key max entries) e).text.length : Int), s') ∧
      Holds max (ks.foldl (Editor.key max entries) e).text s'.buf := by
  induction ks generalizing s e with
  | nil =>
    obtain ⟨buf, hkey, H⟩ := E.enter henter hk
    refine ⟨['\n'], { s with buf }, ?_, H⟩
    rw [List.nil_append, shReadline, hkey, E.pos]
    rfl
  | cons c ks ih =>
    rw [List.forall_mem_cons] at hks
    have hcount : entries.length = h.count := by
      rw [← History.entries_length, he, List.length_map]
    obtain ⟨s₁, hkey, E₁⟩ := E.key hmax he hnul (hcount ▸ hplace) hks.1
    obtain ⟨rest, s', hrun, H⟩ := ih hks.2 E₁ (key_place hplace)
    refine ⟨e.echo max entries c ++ rest, s', ?_, H⟩
    rw [List.cons_append, shReadline, hkey, Option.bind_eq_bind, Option.bind_some]
    simp only
    rw [hrun]
    rfl

/-- At the entry `hist_pos` is `hist_count`, and the array is anything. -/
def entry (h : History) (buf : Nat → Char) (lastExit : Int) : Reader := ⟨buf, 0, h.count, lastExit⟩

/-- `sh_readline` returns the line of the editor with its length and its terminator, and every byte
it stores is below `max`. -/
theorem shReadline_editor (max : Nat) (h : History) (entries : List (List Char)) (ks : List Int)
    (k : Int) (buf : Nat → Char) (lastExit : Int) (hmax : 2 ≤ max)
    (he : h.entries = entries.map some) (hnul : ∀ text ∈ entries, NUL ∉ text)
    (hks : ∀ k ∈ ks, Types k) (hk : 0 ≤ k) (henter : Session.isEnter k = true) :
    ∃ echo s', shReadline max h (ks ++ [k]) (entry h buf lastExit) =
        some (echo, ((Editor.typed max entries ks).text.length : Int), s') ∧
      Holds max (Editor.typed max entries ks).text s'.buf := by
  have hcount : h.count = entries.length := by
    rw [← History.entries_length, he, List.length_map]
  have E : Edits max (entry h buf lastExit) ⟨[], entries.length⟩ :=
    ⟨rfl, rfl, Nat.lt_of_lt_of_le Nat.two_pos hmax, List.not_mem_nil, hcount⟩
  exact E.readline (Nat.lt_of_lt_of_le Nat.two_pos hmax) he hnul hks henter hk le_rfl

/-- `ls` is typed, and Up replaces it by the entry, of which a `max` of 5 leaves four bytes. -/
theorem shReadline_editor_up : ∃ echo s',
    shReadline 5 ⟨fun _ => some "echo hi".toList, 1⟩ ([108, 115, KB_KEY_UP] ++ [10])
        (entry ⟨fun _ => some "echo hi".toList, 1⟩ (fun _ => 'x') 0) =
      some (echo, ((Editor.typed 5 ["echo hi".toList] [108, 115, KB_KEY_UP]).text.length : Int),
        s') ∧
      Holds 5 (Editor.typed 5 ["echo hi".toList] [108, 115, KB_KEY_UP]).text s'.buf :=
  shReadline_editor 5 ⟨fun _ => some "echo hi".toList, 1⟩ ["echo hi".toList] [108, 115, KB_KEY_UP]
    10 (fun _ => 'x') 0 (by decide) rfl (by simp [NUL]) (by
      intro k hk
      simp only [List.mem_cons, List.not_mem_nil, or_false] at hk
      rcases hk with rfl | rfl | rfl <;> exact ⟨by decide, by decide, by decide⟩)
    (by decide) (by decide)

end Reader

/-! ## The line of a session -/

namespace Session

open Reader (Types eraseText)

variable {entries : List (List Char)} {s : Session} {i : Nat} {c : Int}

theorem set_line {line : List Char} (h : s.line = line) : s = { s with line } := by
  subst h
  rfl

/-- The text is taken from the screen, and then an entry is shown. -/
theorem erase_fetch (hs : s.history = entries.map some) (hi : i < entries.length) :
    (s.erase.bind fun s => s.fetch i) =
      (s.sh.shPuts (eraseText s.line.length ++ (Editor.entry LINE_MAX entries i).text)).map
        fun sh => { s with sh, line := (Editor.entry LINE_MAX entries i).text, histPos := i } := by
  have hget : s.history[i]? = some (some entries[i]) := by
    rw [hs, List.getElem?_map, List.getElem?_eq_getElem hi]
    rfl
  have hentry : (Editor.entry LINE_MAX entries i).text = entries[i].take (LINE_MAX - 1) := by
    rw [Editor.entry, List.getD_eq_getElem _ _ hi]
  have happ : ∀ t, s.sh.shPuts (eraseText s.line.length ++ t) =
      (s.sh.shPuts (eraseText s.line.length)).bind fun sh => sh.shPuts t := fun t =>
    List.foldlM_append ..
  rw [happ, erase, ← eraseText, hentry]
  cases s.sh.shPuts (eraseText s.line.length) with
  | none => rfl
  | some sh =>
    simp only [Option.map_some, Option.bind_some, fetch, hget]

/-- A key does to the line of a session what it does to the text of the editor, with its echo. -/
theorem readlineKey_editor (hs : s.history = entries.map some) (hplace : s.histPos ≤ entries.length)
    (T : Types c) : readlineKey c s =
      (s.sh.shPuts (Editor.echo LINE_MAX entries ⟨s.line, s.histPos⟩ c)).map fun sh =>
        .inl { s with
          sh
          line := (Editor.key LINE_MAX entries ⟨s.line, s.histPos⟩ c).text
          histPos := (Editor.key LINE_MAX entries ⟨s.line, s.histPos⟩ c).place } := by
  have hlen : s.history.length = entries.length := by rw [hs, List.length_map]
  rw [readlineKey, Editor.key, Editor.echo, if_neg (Int.not_lt.mpr T.nonneg), T.not_enter,
    if_neg Bool.false_ne_true]
  by_cases hback : c = '\x08'.toNat
  · rw [if_pos hback, if_pos hback, if_pos hback]
    by_cases hnil : s.line = []
    · have hself : s.line = s.line.dropLast := by rw [hnil]; rfl
      rw [if_pos hnil, if_pos hnil]
      exact congrArg (fun t => some (Sum.inl t)) (set_line hself)
    · rw [if_neg hnil, if_neg hnil]
  rw [if_neg hback, if_neg hback, if_neg hback, if_neg T.not_ctrl.2, if_neg T.not_ctrl.1]
  by_cases hup : c = KB_KEY_UP
  · rw [if_pos hup, if_pos hup, if_pos hup, recalled, if_pos hup]
    by_cases hzero : s.histPos = 0
    · rw [if_neg fun h => Nat.ne_of_gt h.2 hzero, if_pos hzero, if_pos hzero]
      rfl
    · have hne : s.history ≠ [] := by
        rintro hnil
        rw [hnil, List.length_nil] at hlen
        omega
      rw [if_pos ⟨hne, Nat.pos_of_ne_zero hzero⟩, if_neg hzero, if_neg hzero]
      simp only
      rw [erase_fetch hs (by omega), Option.map_map]
      rfl
  rw [if_neg hup, if_neg hup, if_neg hup]
  by_cases hdown : c = KB_KEY_DOWN
  · rw [if_pos hdown, if_pos hdown, if_pos hdown, recalled, if_neg hup, if_pos hdown, hlen]
    by_cases hlast : s.histPos + 1 < entries.length
    · rw [if_pos hlast, if_pos hlast, if_pos hlast]
      simp only
      rw [erase_fetch hs hlast, Option.map_map]
      rfl
    · rw [if_neg hlast, if_neg hlast, if_neg hlast, List.append_nil]
      simp only
      rw [erase, Option.map_map, ← hlen]
      rfl
  rw [if_neg hdown, if_neg hdown, if_neg hdown]
  by_cases hprint : 32 ≤ c ∧ c < 127
  · rw [if_pos hprint, if_pos hprint, if_pos hprint]
    by_cases hroom : s.line.length < LINE_MAX - 1
    · rw [if_pos hroom, if_pos hroom, if_pos hroom]
    · rw [if_neg hroom, if_neg hroom, if_neg hroom]
      rfl
  · rw [if_neg hprint, if_neg hprint, if_neg hprint]
    rfl

/-- A round that stays in the loop, with the answer of `sh_getc`. -/
def keyStep (_ : Unit) (s : Session) : Option (Int × Session) :=
  s.sh.shGetc.bind fun (c, sh) =>
    match readlineKey c { s with sh } with
    | some (.inl s) => some (c, s)
    | _ => none

theorem keyStep_cases {u : Unit} {t : Session} (h : keyStep u s = some (c, t)) :
    ∃ sh, readlineKey c { s with sh } = some (.inl t) := by
  obtain ⟨r, -, h⟩ := Option.bind_eq_some_iff.mp h
  simp only at h
  split at h
  · rename_i hkey
    obtain ⟨rfl, rfl⟩ := Prod.mk.inj (Option.some.inj h)
    exact ⟨r.2, hkey⟩
  · cases h

/-- While a line is typed, the session has the text and the place of the editor. -/
theorem run_editor {tr : List (Unit × Int)} {t : Session} (H : Trace.Run keyStep s tr t)
    (hs : s.history = entries.map some) (hline : s.line = []) (hplace : s.histPos = entries.length)
    (hkeys : ∀ e ∈ tr, Types e.2) : t.history = entries.map some ∧ t.histPos ≤ entries.length ∧
      Editor.typed LINE_MAX entries (tr.map Prod.snd) = ⟨t.line, t.histPos⟩ := by
  induction H with
  | nil => exact ⟨hs, Nat.le_of_eq hplace, by rw [hline, hplace]; rfl⟩
  | @snoc tr a c t u _ hstep ih =>
    obtain ⟨hhist, hle, htyped⟩ := ih fun e he => hkeys e (List.mem_append_left _ he)
    have htypes : Types c := hkeys (a, c) (List.mem_append_right _ (List.mem_singleton_self _))
    obtain ⟨sh, hkey⟩ := keyStep_cases hstep
    have hround := readlineKey_editor (s := { t with sh }) hhist hle htypes
    rw [hkey] at hround
    obtain ⟨sh', -, he⟩ := Option.map_eq_some_iff.mp hround.symm
    obtain rfl := Sum.inl.inj he
    refine ⟨hhist, Reader.key_place hle, ?_⟩
    rw [List.map_append, Editor.typed, List.foldl_append, ← Editor.typed, htyped]
    rfl

end Session

end BojanOS
