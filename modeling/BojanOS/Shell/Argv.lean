import BojanOS.Shell.Lexemes
import BojanOS.Shell.TokenizeOk
import BojanOS.Shell.Pipeline

/-!
# The argument array (`args_t`)

`tokenize` stops at 63 items, `args_t` has room for 31 and the terminator. `argCount` counts the
items of a text as `tokenize` does, byte by byte.
-/

namespace BojanOS

/-- `args_t`; a slot that is null is `none`. -/
structure Args where
  argc : Nat
  argv : Fin ARGV_MAX → Option (List Char)

namespace Args

/-- `a->argv[i] = s` -/
def set (a : Args) (i : Nat) (s : Option (List Char)) : Option Args :=
  if h : i < ARGV_MAX then some { a with argv := Function.update a.argv ⟨i, h⟩ s } else none

/-- `a->argv[i]` -/
def get (a : Args) (i : Nat) : Option (List Char) :=
  if h : i < ARGV_MAX then a.argv ⟨i, h⟩ else none

/-- The loop of `run_segment` from `i` on, and the terminator. -/
def fill (a : Args) (i : Nat) : List (List Char) → Option Args
  | [] => a.set i none
  | s :: items => (a.set i (some s)).bind fun a => a.fill (i + 1) items

/-- `args_t a` of `run_segment`, from what is on the stack. -/
def ofItems (a : Args) (items : List (List Char)) : Option Args :=
  { a with argc := items.length }.fill 0 items

/-- The arguments that a command reads. -/
def args (a : Args) : List (List Char) := (List.range a.argc).filterMap a.get

end Args

/-- `args_t b` of `cmd_ll`, from what is on the stack. -/
def cmdLl (a b : Args) : Option Args := do
  let b := { b with argc := a.argc + 1 }
  let b ← b.set 0 (some "ls".toList)
  let b ← b.set 1 (some "-l".toList)
  let b ← (List.range' 1 (min a.argc 30 - 1)).foldlM (fun b i => b.set (i + 1) (a.get i)) b
  b.set b.argc none

/-! ## Counting the items of a text -/

namespace ArgCount

/-- Where in the line `tokenize` is. -/
inductive Mode where
  | gap
  | word (quote : Nat)
  | afterOut
  | beforeName
  | name
  deriving DecidableEq

def inWord (quote : Nat) (c : Char) : Mode :=
  if c = '\'' ∧ quote ≠ 2 then .word (Tokenize.toggle quote 1)
  else if c = '"' ∧ quote ≠ 1 then .word (Tokenize.toggle quote 2)
  else if quote = 0 ∧ isDelim c then .gap
  else .word quote

def inName (c : Char) : Mode := if isDelim c then .gap else .name

def Mode.next : Mode → Char → Mode
  | .gap, c =>
    if isBlank c then .gap else if c = '>' then .afterOut else if c = '<' then .beforeName
    else inWord 0 c
  | .word quote, c => inWord quote c
  | .afterOut, c => if c = '>' then .beforeName else if isBlank c then .beforeName else inName c
  | .beforeName, c => if isBlank c then .beforeName else inName c
  | .name, c => inName c

/-- The number of words that begin in the text. -/
def count : Mode → List Char → Nat
  | _, [] => 0
  | m, c :: s => (if m = .gap ∧ isDelim c = false then 1 else 0) + count (m.next c) s

end ArgCount

/-- The number of words of a text that are not names of redirections. -/
def argCount (text : List Char) : Nat := ArgCount.count .gap text

namespace ArgCount

theorem count_blanks (m : Mode) (hm : ∀ c, isBlank c = true → m.next c = m) (s : List Char) :
    count m s = count m (s.dropWhile isBlank) := by
  induction s with
  | nil => rfl
  | cons c s ih =>
    cases hb : isBlank c with
    | false => rw [List.dropWhile_cons_of_neg (by simp [hb])]
    | true =>
      have hd : isDelim c = true := by simp [isDelim, hb]
      rw [List.dropWhile_cons_of_pos hb, count, hm c hb, ← ih, hd]
      simp

/-- A name, and the byte behind it. -/
theorem count_name (s : List Char) :
    count .name s = count .gap (s.drop (s.takeWhile fun c => ¬ isDelim c).length).tail := by
  induction s with
  | nil => rfl
  | cons c s ih =>
    cases hd : isDelim c with
    | true =>
      rw [List.takeWhile_cons_of_neg (by simp [hd]), count, Mode.next, inName, if_pos hd]
      simp
    | false =>
      rw [List.takeWhile_cons_of_pos (by simp [hd]), count, Mode.next, inName, hd]
      simpa using ih

theorem count_beforeName (s : List Char) : count .beforeName s = count .gap
    ((s.dropWhile isBlank).drop ((s.dropWhile isBlank).takeWhile fun c => ¬ isDelim c).length).tail := by
  rw [count_blanks .beforeName (fun c hb => by rw [Mode.next, if_pos hb]) s]
  rcases hs : s.dropWhile isBlank with _ | ⟨c, t⟩
  · rfl
  · have hb : isBlank c = false := by
      have := List.head_dropWhile_not isBlank (l := s) (by simp [hs])
      simpa [hs] using this
    have hnext : Mode.next .beforeName c = Mode.next .name c := by
      rw [Mode.next, hb]
      rfl
    rw [← count_name, count, count, hnext]
    simp

/-- A word, and the byte behind it. -/
theorem count_word (quote : Nat) (s : List Char) :
    count (.word quote) s = count .gap (pieces quote s).2.tail := by
  induction hn : s.length using Nat.strongRecOn generalizing quote s with
  | _ n ih =>
    cases s with
    | nil => rfl
    | cons c s =>
      rw [List.length_cons] at hn
      have hcount : count (.word quote) (c :: s) = count (inWord quote c) s := by
        rw [count, Mode.next]
        simp
      rw [hcount, inWord]
      obtain ⟨o, ho⟩ : ∃ o, nextPiece quote (c :: s) = o := ⟨_, rfl⟩
      have hnext := ho
      rw [nextPiece] at hnext
      split_ifs at hnext ⊢ with h1 h2 h3 h4
      · rw [pieces_of_some (ho.trans hnext.symm)]
        exact ih _ (by omega) _ _ rfl
      · rw [pieces_of_some (ho.trans hnext.symm)]
        exact ih _ (by omega) _ _ rfl
      · rw [pieces_of_none (ho.trans hnext.symm)]
        rfl
      · obtain ⟨rfl, rfl, hs⟩ := h4
        obtain ⟨t, rfl⟩ := List.head?_eq_some_iff.mp hs
        rw [pieces_of_some (ho.trans hnext.symm)]
        rw [List.length_cons] at hn
        refine Eq.trans ?_ (ih t.length (by omega) 0 t rfl)
        rw [count, Mode.next, inWord]
        simp [isDelim, isBlank]
      · rw [pieces_of_some (ho.trans hnext.symm)]
        exact ih _ (by omega) _ _ rfl

theorem count_afterOut (s : List Char) : count .afterOut s =
    count .beforeName (if Tokenize.isAppend true (s.headD NUL) then s.tail else s) := by
  cases s with
  | nil => rfl
  | cons c s =>
    have happ : Tokenize.isAppend true ((c :: s).headD NUL) = decide (c = '>') := rfl
    rw [happ]
    by_cases hc : c = '>'
    · rw [if_pos (decide_eq_true hc), count, Mode.next, if_pos hc]
      simp
    · have hnext : Mode.next .afterOut c = Mode.next .beforeName c := by
        rw [Mode.next, if_neg hc]
        rfl
      rw [if_neg (by simpa using hc), count, count, hnext]
      simp

end ArgCount

open ArgCount in
/-- A redirection has no items. -/
theorem argCount_redir (isOut : Bool) (s : List Char) (cl : Cmdline (List Char)) (ram : Ram) :
    argCount (Parse.redir ⟨(if isOut then '>' else '<') :: s, cl, ram⟩ isOut).rest =
      argCount ((if isOut then '>' else '<') :: s) := by
  cases isOut with
  | false =>
    have hop : argCount ('<' :: s) = count .beforeName s := Nat.zero_add _
    exact (hop.trans (count_beforeName s)).symm
  | true =>
    have hop : argCount ('>' :: s) = count .afterOut s := Nat.zero_add _
    exact (hop.trans ((count_afterOut s).trans (count_beforeName _))).symm

open ArgCount in
/-- A word is one item. -/
theorem argCount_word {c : Char} (hc : isDelim c = false) (s : List Char) :
    argCount (c :: s) = argCount (pieces 0 (c :: s)).2.tail + 1 := by
  have hd := hc
  simp only [isDelim, decide_eq_false_iff_not, not_or] at hd
  have hnext : Mode.next .gap c = Mode.next (.word 0) c := by
    rw [Mode.next, if_neg hd.1, if_neg hd.2.1, if_neg hd.2.2]
    rfl
  have hword := count_word 0 (c :: s)
  rw [argCount, argCount, ← hword, count, count, hnext, hc]
  simp [Nat.add_comm]

namespace Parse

variable {code : Fin 256} {st st' : St}

/-- What `tokenize` takes from the text is what it adds to the items. -/
theorem step_argCount (h : step code st = some (.inl st')) :
    st'.cl.items.length ≤ 63 ∧
      st'.cl.items.length + argCount st'.rest = st.cl.items.length + argCount st.rest := by
  obtain ⟨hd, rest, hh⟩ : ∃ hd rest, head st = (hd, rest) := ⟨_, _, rfl⟩
  have hhead := hh
  rw [head] at hh
  split at hh
  · obtain ⟨rfl, rfl⟩ := Prod.mk.inj hh
    rw [step, hhead] at h
    cases h
  rename_i hne
  rw [not_or] at hne
  have hlt : st.cl.items.length < 63 := Nat.lt_of_not_le hne.2
  have hcount : argCount st.rest = argCount (st.rest.dropWhile isBlank) :=
    ArgCount.count_blanks .gap (fun c hb => by rw [ArgCount.Mode.next, if_pos hb]) st.rest
  rw [hcount]
  rcases hs : st.rest.dropWhile isBlank with _ | ⟨c, s⟩
  · rw [hs] at hh
    obtain ⟨rfl, rfl⟩ := Prod.mk.inj hh
    rw [step, hhead] at h
    cases h
  have hblank : isBlank c = false := by
    have := List.head_dropWhile_not isBlank (l := st.rest) (by simp [hs])
    simpa [hs] using this
  have hredir : ∀ isOut, (redir { st with rest := c :: s } isOut).cl.items = st.cl.items := by
    intro isOut
    rw [redir]
    cases isOut <;> rfl
  rw [hs] at hh
  simp only at hh
  split_ifs at hh with h1 h2
  · obtain ⟨rfl, rfl⟩ := Prod.mk.inj hh
    rw [step, hhead] at h
    obtain rfl := Sum.inl.inj (Option.some.inj h)
    rw [hredir, h1]
    refine ⟨hlt.le, ?_⟩
    exact congrArg _ (argCount_redir true s st.cl st.ram)
  · obtain ⟨rfl, rfl⟩ := Prod.mk.inj hh
    rw [step, hhead] at h
    obtain rfl := Sum.inl.inj (Option.some.inj h)
    rw [hredir, h2]
    refine ⟨hlt.le, ?_⟩
    exact congrArg _ (argCount_redir false s st.cl st.ram)
  · obtain ⟨rfl, rfl⟩ := Prod.mk.inj hh
    rw [step, hhead] at h
    obtain rfl := Sum.inl.inj (Option.some.inj h)
    have hdel : isDelim c = false := by simp [isDelim, hblank, h1, h2]
    rw [argCount_word hdel s]
    simp only [item, Cmdline.push, List.length_append, List.length_singleton]
    omega

/-- Where the loop ends, there is no room or nothing left. -/
theorem step_stop {st' : St} (h : step code st = some (.inr st')) :
    st'.cl = st.cl ∧ (63 ≤ st.cl.items.length ∨ argCount st.rest = 0) := by
  obtain ⟨hd, rest, hh⟩ : ∃ hd rest, head st = (hd, rest) := ⟨_, _, rfl⟩
  have hhead := hh
  rw [step, hhead] at h
  cases hd with
  | redir isOut => cases h
  | word => cases h
  | stop =>
    obtain rfl := Sum.inr.inj (Option.some.inj h)
    refine ⟨rfl, ?_⟩
    rw [head] at hh
    split at hh
    · rename_i hstop
      rcases hstop with he | hfull
      · rw [he]
        exact .inr rfl
      · exact .inl hfull
    · have hcount : argCount st.rest = argCount (st.rest.dropWhile isBlank) :=
        ArgCount.count_blanks .gap (fun c hb => by rw [ArgCount.Mode.next, if_pos hb]) st.rest
      rw [hcount]
      rcases hs : st.rest.dropWhile isBlank with _ | ⟨c, s⟩
      · exact .inr rfl
      · rw [hs] at hh
        simp only at hh
        split_ifs at hh
        · cases hh
        · cases hh
        · cases hh

end Parse

/-- `tokenize` stops at 63 items. -/
theorem parse_items {code : Fin 256} {text : List Char} {ram ram' : Ram}
    {cl : Cmdline (List Char)} (h : parse code text ram = some (cl, ram')) :
    cl.items.length = min 63 (argCount text) := by
  obtain ⟨st, hexec, he⟩ := Option.map_eq_some_iff.mp h
  obtain ⟨rfl, rfl⟩ := Prod.mk.inj he
  obtain ⟨t, hreach, hdone⟩ := Loop.exec_sound hexec
  obtain ⟨hle, hsum⟩ : t.cl.items.length ≤ 63 ∧
      t.cl.items.length + argCount t.rest = argCount text := by
    refine hreach.inv (I := fun st => st.cl.items.length ≤ 63 ∧
      st.cl.items.length + argCount st.rest = argCount text) ?_ ⟨Nat.zero_le _, Nat.zero_add _⟩
    rintro s s' ⟨-, hs⟩ hstep
    obtain ⟨hle, hs'⟩ := Parse.step_argCount hstep
    exact ⟨hle, hs'.trans hs⟩
  obtain ⟨hcl, hend⟩ := Parse.step_stop hdone
  rw [hcl]
  omega

/-! ## The stores -/

namespace Args

variable {a a' b : Args} {i : Nat} {s : Option (List Char)} {items : List (List Char)}

theorem set_eq_some (h : a.set i s = some a') : i < ARGV_MAX ∧ a'.argc = a.argc ∧ a'.get i = s ∧
    ∀ j, j ≠ i → a'.get j = a.get j := by
  rw [set] at h
  split at h
  · rename_i hi
    obtain rfl := Option.some.inj h
    refine ⟨hi, rfl, ?_, fun j hj => ?_⟩
    · rw [get, dif_pos hi]
      exact Function.update_self ..
    · rw [get, get]
      split
      · rename_i hlt
        exact Function.update_of_ne (fun he => hj (congrArg Fin.val he)) _ _
      · rfl
  · cases h

theorem set_isSome : (a.set i s).isSome = true ↔ i < ARGV_MAX := by
  rw [set]
  split
  · rename_i h
    exact iff_of_true rfl h
  · rename_i h
    exact iff_of_false (by simp) h

/-- The loop stays in the array exactly when the terminator does. -/
theorem fill_isSome : (a.fill i items).isSome = true ↔ i + items.length < ARGV_MAX := by
  induction items generalizing a i with
  | nil => exact set_isSome
  | cons s items ih =>
    rw [fill]
    cases h : a.set i (some s) with
    | none =>
      have hno : ¬ i < ARGV_MAX := fun hi => by
        have := (set_isSome (a := a) (s := some s)).mpr hi
        rw [h] at this
        cases this
      refine iff_of_false (by simp) ?_
      rw [List.length_cons]
      omega
    | some a' =>
      refine (ih (a := a') (i := i + 1)).trans ?_
      rw [List.length_cons]
      omega

theorem fill_spec (h : a.fill i items = some a') : a'.argc = a.argc ∧
    (∀ j, j < i → a'.get j = a.get j) ∧ ∀ j, j < items.length → a'.get (i + j) = items[j]? := by
  induction items generalizing a i with
  | nil =>
    obtain ⟨-, hargc, -, hother⟩ := set_eq_some h
    exact ⟨hargc, fun j hj => hother j (by omega), fun j hj => by cases hj⟩
  | cons s items ih =>
    obtain ⟨b, hb, h⟩ := Option.bind_eq_some_iff.mp h
    obtain ⟨-, hargc, hself, hother⟩ := set_eq_some hb
    obtain ⟨hargc', hlow, hhigh⟩ := ih h
    refine ⟨hargc'.trans hargc, fun j hj => ?_, fun j hj => ?_⟩
    · rw [hlow j (by omega), hother j (by omega)]
    · cases j with
      | zero => exact (hlow i (by omega)).trans hself
      | succ j =>
        have := hhigh j (Nat.lt_of_succ_lt_succ hj)
        rw [Nat.add_right_comm] at this
        exact this

theorem ofItems_isSome : (a.ofItems items).isSome = true ↔ items.length < ARGV_MAX := by
  rw [ofItems, fill_isSome, Nat.zero_add]

theorem filterMap_getElem? {α : Type} (l : List α) :
    (List.range l.length).filterMap (fun j => l[j]?) = l := by
  induction l using List.reverseRecOn with
  | nil => rfl
  | append_singleton l x ih =>
    have hcongr : ∀ j ∈ List.range l.length, (l ++ [x])[j]? = l[j]? :=
      fun j hj => List.getElem?_append_left (List.mem_range.mp hj)
    rw [List.length_append, List.length_singleton, List.range_succ, List.filterMap_append,
      List.filterMap_congr hcongr, ih]
    simp

/-- A command finds the items of its line. -/
theorem ofItems_args (h : a.ofItems items = some a') : a'.argc = items.length ∧ a'.args = items := by
  obtain ⟨hargc, -, hget⟩ := fill_spec h
  have hargc' : a'.argc = items.length := hargc
  have hmap : ∀ j ∈ List.range items.length, a'.get j = items[j]? := by
    intro j hj
    have := hget j (List.mem_range.mp hj)
    rwa [Nat.zero_add] at this
  refine ⟨hargc, ?_⟩
  rw [args, hargc', List.filterMap_congr hmap, filterMap_getElem?]

end Args

/-- The loop of `cmd_ll` stays in the array. -/
theorem llLoop_spec {a b : Args} {l : List Nat} (hl : ∀ i ∈ l, i + 1 < ARGV_MAX) :
    ∃ b', l.foldlM (fun b i => b.set (i + 1) (a.get i)) b = some b' ∧ b'.argc = b.argc := by
  induction l generalizing b with
  | nil => exact ⟨b, rfl, rfl⟩
  | cons i l ih =>
    have hset := (Args.set_isSome (a := b) (s := a.get i)).mpr (hl i List.mem_cons_self)
    obtain ⟨c, hc⟩ := Option.isSome_iff_exists.mp hset
    obtain ⟨b', hb', hargc⟩ := ih (b := c) fun j hj => hl j (List.mem_cons_of_mem _ hj)
    refine ⟨b', ?_, hargc.trans (Args.set_eq_some hc).2.1⟩
    rw [List.foldlM_cons, hc]
    exact hb'

theorem cmdLl_isSome {a b : Args} : (cmdLl a b).isSome = true ↔ a.argc + 1 < ARGV_MAX := by
  have hstore : ∀ (b : Args) i s, i < ARGV_MAX → ∃ b', b.set i s = some b' ∧ b'.argc = b.argc := by
    intro b i s hi
    obtain ⟨b', hb'⟩ := Option.isSome_iff_exists.mp ((Args.set_isSome (a := b) (s := s)).mpr hi)
    exact ⟨b', hb', (Args.set_eq_some hb').2.1⟩
  obtain ⟨b₁, h1, hargc1⟩ := hstore { b with argc := a.argc + 1 } 0 (some "ls".toList) (by decide)
  obtain ⟨b₂, h2, hargc2⟩ := hstore b₁ 1 (some "-l".toList) (by decide)
  obtain ⟨b₃, h3, hargc3⟩ := llLoop_spec (a := a) (b := b₂)
    (l := List.range' 1 (min a.argc 30 - 1)) (fun i hi => by
      rw [List.mem_range'_1] at hi
      rw [ARGV_MAX]
      omega)
  have hll : cmdLl a b = b₃.set b₃.argc none := by
    rw [cmdLl]
    simp only [Option.bind_eq_bind, h1, h2, h3, Option.bind_some]
  rw [hll, Args.set_isSome, hargc3, hargc2, hargc1]

/-- Whatever is on the stack, the stores of `run_segment`, and those of `cmd_ll` if it is called,
are stores to the arrays. -/
def StoresInBounds (items : List (List Char)) : Prop :=
  ∀ a b : Args, ∃ a', a.ofItems items = some a' ∧
    (items.head? = some "ll".toList → (cmdLl a' b).isSome = true)

namespace Shell

variable {σ σ' : Shell} {text T : List Char} {doPipe : Bool} {items : List (List Char)}
  {commands : Commands}

/-- The state in which `run_segment` calls `apply_redirs`. -/
def beforeRedirs (σ : Shell) (doPipe : Bool) : Shell :=
  let σ := { σ with pipeWriting := doPipe }
  if doPipe then σ.clearWriter else σ

/-- `apply_redirs` decides whether the command is called. -/
theorem runCmdline_redirs {cl : Cmdline (List Char)} (hne : cl.items ≠ []) :
    runCmdline commands cl doPipe σ = (applyRedirs cl (σ.beforeRedirs doPipe)).bind fun r =>
      if r.1 then
        if ARGV_MAX ≤ cl.items.length then none
        else ((shellRunBuiltin commands cl.items).run (r.2.record cl)).map fun s =>
          (s.1, s.2.restoreRedirs)
      else some (1, r.2.restoreRedirs) := by
  rw [runCmdline, if_neg hne, beforeRedirs]
  simp only
  rcases applyRedirs cl _ with _ | ⟨_ | _, τ⟩
  · rfl
  · rfl
  · rfl

/-- The items with which `run_segment` gets past `apply_redirs`. -/
def accepted (σ : Shell) (segment : Buf) (doPipe : Bool) : Option (List (List Char)) :=
  match tokenize σ.lastExit segment σ.vfs.ram with
  | none => none
  | some (buf, cl, ram) =>
    let cl := cl.map (Item.text buf)
    if cl.items = [] then none
    else
      match applyRedirs cl (beforeRedirs { σ with vfs := { σ.vfs with ram } } doPipe) with
      | some (true, _) => some cl.items
      | _ => none

/-- What a command is called with is the array. -/
theorem runCmdline_args {cl : Cmdline (List Char)} (a : Args) (hne : cl.items ≠ [])
    (h : applyRedirs cl (σ.beforeRedirs doPipe) = some (true, σ')) :
    runCmdline commands cl doPipe σ = (a.ofItems cl.items).bind fun a =>
      ((shellRunBuiltin commands a.args).run (σ'.record cl)).map fun (rc, σ) =>
        (rc, σ.restoreRedirs) := by
  rw [runCmdline_redirs hne, h, Option.bind_some, if_pos rfl]
  cases ha : a.ofItems cl.items with
  | none =>
    have hno : ¬ cl.items.length < ARGV_MAX := fun hlt => by
      have := (Args.ofItems_isSome (a := a)).mpr hlt
      rw [ha] at this
      cases this
    rw [if_pos (Nat.le_of_not_lt hno)]
    rfl
  | some a' =>
    have hlt : cl.items.length < ARGV_MAX := Args.ofItems_isSome.mp (by rw [ha]; rfl)
    rw [if_neg (Nat.not_le.mpr hlt), Option.bind_some, (Args.ofItems_args ha).2]

theorem accepted_items (hnul : NUL ∉ text)
    (h : σ.accepted (text ++ NUL :: T) doPipe = some items) :
    items.length = min 63 (argCount text) := by
  rw [accepted] at h
  split at h
  · cases h
  rename_i buf cl ram ht
  simp only at h
  split at h
  · cases h
  split at h
  · obtain rfl := Option.some.inj h
    cases hp : parseInPlace σ.lastExit text σ.vfs.ram with
    | none =>
      rw [tokenize_eq_none hnul hp] at ht
      cases ht
    | some r =>
      obtain ⟨A, cl', -, ht', hcl⟩ := tokenize_eq_some (T := T) hnul hp
      rw [ht] at ht'
      obtain ⟨rfl, hrest⟩ := Prod.mk.inj (Option.some.inj ht')
      obtain ⟨rfl, -⟩ := Prod.mk.inj hrest
      rw [hcl]
      exact parse_items (parseInPlace_eq_some.mp hp).1
  · cases h

end Shell

/-- Of a command that is reached, the stores stay in the arrays exactly when the segment has at most
31 arguments, and at most 30 for `ll`. -/
theorem storesInBounds_iff {σ : Shell} {text T : List Char} {doPipe : Bool}
    {items : List (List Char)} (hnul : NUL ∉ text)
    (h : σ.accepted (text ++ NUL :: T) doPipe = some items) :
    StoresInBounds items ↔
      argCount text ≤ 31 ∧ (items.head? = some "ll".toList → argCount text ≤ 30) := by
  have hitems := Shell.accepted_items hnul h
  constructor
  · intro H
    obtain ⟨a', ha, hll⟩ := H ⟨0, fun _ => none⟩ ⟨0, fun _ => none⟩
    have hlt := Args.ofItems_isSome.mp (Option.isSome_iff_exists.mpr ⟨a', ha⟩)
    rw [hitems, ARGV_MAX] at hlt
    refine ⟨by omega, fun hh => ?_⟩
    have hargc := cmdLl_isSome.mp (hll hh)
    rw [(Args.ofItems_args ha).1, hitems, ARGV_MAX] at hargc
    omega
  · rintro ⟨hle, hll⟩ a b
    have hlt : items.length < ARGV_MAX := by
      rw [hitems, ARGV_MAX]
      omega
    obtain ⟨a', ha⟩ := Option.isSome_iff_exists.mp ((Args.ofItems_isSome (a := a)).mpr hlt)
    refine ⟨a', ha, fun hh => cmdLl_isSome.mpr ?_⟩
    have := hll hh
    rw [(Args.ofItems_args ha).1, hitems, ARGV_MAX]
    omega

/-- `n` words of one letter. -/
def words (n : Nat) : List Char := (List.replicate n ['x', ' ']).flatten

/-- A command with 31 arguments behind its name. -/
theorem words_not_inBounds : ∃ items, bootShell.accepted (words 32 ++ NUL :: []) false = some items ∧
    ¬ StoresInBounds items := by
  have hitems : bootShell.accepted (words 32 ++ NUL :: []) false =
      some (List.replicate 32 ['x']) := by
    rw [bootShell_spelled]
    decide +kernel
  refine ⟨_, hitems, fun H => ?_⟩
  obtain ⟨a', ha, -⟩ := H ⟨0, fun _ => none⟩ ⟨0, fun _ => none⟩
  have hlt := Args.ofItems_isSome.mp (Option.isSome_iff_exists.mpr ⟨a', ha⟩)
  exact absurd hlt (by decide)

theorem words_inBounds : ∃ items, bootShell.accepted (words 31 ++ NUL :: []) false = some items ∧
    StoresInBounds items := by
  have hitems : bootShell.accepted (words 31 ++ NUL :: []) false =
      some (List.replicate 31 ['x']) := by
    rw [bootShell_spelled]
    decide +kernel
  refine ⟨_, hitems, (storesInBounds_iff (by decide) hitems).mpr ⟨by decide, fun h => ?_⟩⟩
  exact absurd h (by decide)

end BojanOS
