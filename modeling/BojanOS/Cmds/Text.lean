import BojanOS.Vfs.Basic

/-!
# Text on the heap (`split_lines`, `read_all_stdin`)

The two helpers of `cmds.c` that allocate for the commands that read text. A pointer that a refused
`kmalloc` left null is `none`, and a result is `none` where the source stores or reads through one.
-/

namespace BojanOS

/-! ## `split_lines` -/

/-- `count`: the newlines, and one more if the text does not end in one. -/
def lineCount (text : List Char) : Nat :=
  text.count '\n' + if text.getLast? = some '\n' then 0 else 1

/-- `l = kmalloc(llen + 1); memcpy(l, data + start, llen); l[llen] = 0; lines[li++] = l;` -/
def addLine (lines : Option Nat) (line : List Char) (out : List (List Char)) (r : Ram) :
    Option (List (List Char) × Ram) :=
  match r.kmalloc (line.length + 1) with
  | (none, _) => none
  | (some _, r) => if lines = none then none else some (out ++ [line], r)

/-- The loop over the text, with `line` the bytes from `start` to `i`. -/
def splitLoop (lines : Option Nat) :
    List Char → List Char → List (List Char) → Ram → Option (List (List Char) × Ram)
  | [], line, out, r => if line = [] then some (out, r) else addLine lines line out r
  | c :: text, line, out, r =>
    if c = '\n' then
      match addLine lines line out r with
      | none => none
      | some (out, r) => splitLoop lines text [] out r
    else splitLoop lines text (line ++ [c]) out r

/-- The lines that are stored in `lines[0 .. count)`; the text is null or `data[0 .. len)`. -/
def splitLines (data : Option (List Char)) (r : Ram) : Option (List (List Char) × Ram) :=
  match data with
  | none | some [] => some ([], (r.kmalloc SIZEOF_PTR).2)
  | some text =>
    let (lines, r) := r.kmalloc (SIZEOF_PTR * (lineCount text + 1))
    splitLoop lines text [] [] r

/-- The pieces between newlines, `line` being the front of the first one. -/
def lineTexts (line : List Char) : List Char → List (List Char)
  | [] => if line = [] then [] else [line]
  | c :: text => if c = '\n' then line :: lineTexts [] text else lineTexts (line ++ [c]) text

/-- What `split_lines` asks for: the array, and a block for each line. -/
def lineRequests (text : List Char) : List Nat :=
  SIZEOF_PTR * (lineCount text + 1) :: (lineTexts [] text).map fun line => line.length + 1

/-- With the array there, the loop goes through exactly when every line gets its block. -/
theorem splitLoop_isSome {p : Nat} {text line : List Char} {out : List (List Char)} {r : Ram} :
    (splitLoop (some p) text line out r).isSome =
      r.grantsAll ((lineTexts line text).map fun line => line.length + 1) := by
  induction text generalizing line out r with
  | nil =>
    rw [splitLoop, lineTexts]
    split
    · rfl
    · rw [addLine, List.map_singleton, Ram.grantsAll]
      rcases r.kmalloc (line.length + 1) with ⟨_ | q, r'⟩
      · rfl
      · rfl
  | cons c text ih =>
    rw [splitLoop, lineTexts]
    split
    · rw [addLine, List.map_cons, Ram.grantsAll]
      rcases r.kmalloc (line.length + 1) with ⟨_ | q, r'⟩
      · rfl
      · exact ih
    · exact ih

/-- Without the array, the first line is stored through the null pointer. -/
theorem splitLoop_null {text line : List Char} {out : List (List Char)} {r : Ram}
    (h : line ≠ [] ∨ text ≠ []) : splitLoop none text line out r = none := by
  have hadd : ∀ l, addLine none l out r = none := by
    intro l
    rw [addLine]
    rcases r.kmalloc (l.length + 1) with ⟨_ | q, r'⟩
    · rfl
    · rfl
  induction text generalizing line with
  | nil =>
    rw [splitLoop, if_neg (h.resolve_right fun h => h rfl)]
    exact hadd line
  | cons c text ih =>
    rw [splitLoop]
    split
    · rw [hadd]
    · exact ih (.inl (by simp))

/-- `split_lines` stays off the null pointer exactly when there is nothing to split or each of its
requests is granted. -/
theorem splitLines_isSome (data : Option (List Char)) (r : Ram) :
    (splitLines data r).isSome ↔
      ∀ text, data = some text → text ≠ [] → r.grantsAll (lineRequests text) := by
  rcases data with _ | _ | ⟨c, text⟩
  · exact iff_of_true rfl fun _ h => by cases h
  · refine iff_of_true rfl fun text h hne => ?_
    exact absurd (Option.some.inj h).symm hne
  · have hone : (splitLines (some (c :: text)) r).isSome =
        r.grantsAll (lineRequests (c :: text)) := by
      change (splitLoop (r.kmalloc (SIZEOF_PTR * (lineCount (c :: text) + 1))).1 (c :: text) [] []
        (r.kmalloc (SIZEOF_PTR * (lineCount (c :: text) + 1))).2).isSome = _
      rw [lineRequests, Ram.grantsAll]
      rcases r.kmalloc (SIZEOF_PTR * (lineCount (c :: text) + 1)) with ⟨_ | p, r'⟩
      · rw [splitLoop_null (.inr (List.cons_ne_nil _ _))]
        rfl
      · exact splitLoop_isSome
    rw [hone]
    constructor
    · intro h t ht _
      obtain rfl := Option.some.inj ht
      exact h
    · exact fun h => h _ rfl (List.cons_ne_nil _ _)

/-! ## `read_all_stdin` -/

/-- `buffer_t`, with `bytes` for `data[0 .. len)`. -/
structure Buffer where
  data : Option Nat
  bytes : List Char
  cap : Nat

/-- `buf_init` -/
def Buffer.init : Buffer := ⟨none, [], 0⟩

/-- `b->data[b->len++] = c; b->data[b->len] = 0;` -/
def Buffer.push (b : Buffer) (c : Char) : Option Buffer :=
  if b.data = none then none else some { b with bytes := b.bytes ++ [c] }

/-- A byte for which there is no memory is dropped. -/
def bufPutc (b : Buffer) (c : Char) (r : Ram) : Option (Buffer × Ram) :=
  if b.cap ≤ b.bytes.length + 1 then
    let nc := if b.cap ≠ 0 then b.cap * 2 % 2 ^ 64 else 256
    match r.kmalloc nc with
    | (none, r) => some (b, r)
    | (some nb, r) =>
      -- `if (b->len) memcpy(nb, b->data, b->len);`
      if b.bytes ≠ [] ∧ b.data = none then none
      else ({ b with data := some nb, cap := nc }.push c).map fun b => (b, r)
  else (b.push c).map fun b => (b, r)

/-- The loop of `read_all_stdin` over what `sh_getc` delivers in front of the end of the input. -/
def readAllLoop : List Char → Buffer → Ram → Option (Buffer × Ram)
  | [], b, r => some (b, r)
  | c :: input, b, r =>
    match bufPutc b c r with
    | none => none
    | some (b, r) => readAllLoop input b r

def readAllStdin (input : List Char) (r : Ram) : Option (Buffer × Ram) :=
  readAllLoop input .init r

/-- A buffer without memory is empty and has no capacity. -/
def Buffer.Backed (b : Buffer) : Prop := b.data = none → b.cap = 0 ∧ b.bytes = []

theorem bufPutc_backed {b : Buffer} (h : b.Backed) (c : Char) (r : Ram) :
    ∃ b' r', bufPutc b c r = some (b', r') ∧ b'.Backed := by
  have hpush : ∀ {b : Buffer}, b.data ≠ none → ∃ b', b.push c = some b' ∧ b'.Backed := by
    intro b hd
    refine ⟨{ b with bytes := b.bytes ++ [c] }, ?_, fun hn => absurd hn hd⟩
    rw [Buffer.push, if_neg hd]
  rw [bufPutc]
  by_cases hcap : b.cap ≤ b.bytes.length + 1
  · rw [if_pos hcap]
    generalize (if b.cap ≠ 0 then b.cap * 2 % 2 ^ 64 else 256) = nc
    dsimp only
    rcases r.kmalloc nc with ⟨_ | nb, r'⟩
    · exact ⟨b, r', rfl, h⟩
    · obtain ⟨b', hb', hB⟩ := hpush (b := { b with data := some nb, cap := nc }) (by simp)
      refine ⟨b', r', ?_, hB⟩
      dsimp only
      rw [if_neg fun hb => hb.1 (h hb.2).2, hb']
      rfl
  · rw [if_neg hcap]
    obtain ⟨b', hb', hB⟩ := hpush (b := b) fun hd => hcap (by rw [(h hd).1]; exact Nat.zero_le _)
    exact ⟨b', r, by rw [hb']; rfl, hB⟩

theorem readAllLoop_backed {b : Buffer} {r : Ram} (input : List Char) (h : b.Backed) :
    ∃ b' r', readAllLoop input b r = some (b', r') ∧ b'.Backed := by
  induction input generalizing b r with
  | nil => exact ⟨b, r, rfl, h⟩
  | cons c input ih =>
    obtain ⟨b', r', hr, hB⟩ := bufPutc_backed h c r
    rw [readAllLoop, hr]
    exact ih hB

/-- `read_all_stdin` never touches a null pointer, whatever is refused. -/
theorem readAllStdin_isSome (input : List Char) (r : Ram) : (readAllStdin input r).isSome := by
  have hinit : Buffer.init.Backed := fun _ => ⟨rfl, rfl⟩
  obtain ⟨b, r', h, -⟩ := readAllLoop_backed (r := r) input hinit
  rw [readAllStdin, h]
  rfl

end BojanOS
