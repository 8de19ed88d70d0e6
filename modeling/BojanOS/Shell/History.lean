import BojanOS.Lib.Loop
import BojanOS.Shell.Session

/-!
# The history of the shell (`shell_run`, `shell_add_history`)

Two functions add lines to `history[HIST_MAX]`. That of the main loop moves the entries down when the
array is full, `shell_add_history` drops the line then. `Recent` is what both are there for, and
`recent_iff` says in which runs it holds all the way.
-/

namespace BojanOS

/-- `history` and `hist_count`; a refused `strdup` leaves a null pointer. -/
structure History where
  slots : Nat → Option (List Char)
  count : Nat

namespace History

/-- `shell_init` -/
def shellInit (h : History) : History := { h with count := 0 }

/-- `history[hist_count++] = copy` -/
def push (copy : Option (List Char)) (h : History) : History :=
  { slots := Function.update h.slots h.count copy, count := h.count + 1 }

/-- `for (int i = 1; i < HIST_MAX; i++) history[i - 1] = history[i];` -/
def shift (slots : Nat → Option (List Char)) : Nat → Option (List Char) :=
  Loop.countUp (fun i slots => Function.update slots i (slots (i + 1))) (HIST_MAX - 1) slots

/-- What `shell_run` does with the copy of a line. -/
def shellRunAdd (copy : Option (List Char)) (h : History) : History :=
  if h.count < HIST_MAX then h.push copy
  else { h with slots := Function.update (shift h.slots) (HIST_MAX - 1) copy }

def shellAddHistory (s : List Char) (h : History) (r : Ram) : History × Ram :=
  if h.count < HIST_MAX then
    let (copy, r) := strdup s r
    (h.push copy, r)
  else (h, r)

def shellGetHistory (h : History) (i : Int) : Option (List Char) :=
  if i < 0 ∨ h.count ≤ i then none else h.slots i.toNat

def shellHistoryCount (h : History) : Nat := h.count

/-- What Up does to `hist_pos`. -/
def keyUp (h : History) (histPos : Nat) : Nat :=
  if h.count ≠ 0 ∧ 0 < histPos then histPos - 1 else histPos

/-- `history[0 .. hist_count)` -/
def entries (h : History) : List (Option (List Char)) := (List.range h.count).map h.slots

variable {h : History} {slots : Nat → Option (List Char)} {copy : Option (List Char)}

theorem entries_length : h.entries.length = h.count := by
  rw [entries, List.length_map, List.length_range]

theorem entries_getElem? {i : Nat} (hi : i < h.count) : h.entries[i]? = some (h.slots i) := by
  rw [entries, List.getElem?_map, List.getElem?_range hi]
  rfl

theorem entries_push : (h.push copy).entries = h.entries ++ [copy] := by
  have hold : (List.range h.count).map (Function.update h.slots h.count copy) =
      (List.range h.count).map h.slots := by
    apply List.map_congr_left
    intro i hi
    exact Function.update_of_ne (List.mem_range.mp hi).ne _ _
  rw [push, entries, entries, List.range_succ, List.map_append, hold]
  simp

/-- Every entry but the last one is the one behind it. -/
theorem shift_eq {i : Nat} (hi : i < HIST_MAX - 1) : shift slots i = slots (i + 1) := by
  have hinv := Loop.countUp_inv (s := slots) (n := HIST_MAX - 1)
    (f := fun i slots => Function.update slots i (slots (i + 1)))
    (I := fun k now => (∀ i < k, now i = slots (i + 1)) ∧ ∀ i, k ≤ i → now i = slots i)
    (by
      rintro k now - ⟨hlow, hhigh⟩
      constructor
      · intro i hik
        rcases Nat.lt_succ_iff_lt_or_eq.mp hik with hlt | rfl
        · exact (Function.update_of_ne hlt.ne _ _).trans (hlow i hlt)
        · exact (Function.update_self ..).trans (hhigh _ (Nat.le_succ i))
      · intro i hik
        exact (Function.update_of_ne (Nat.ne_of_gt hik) _ _).trans (hhigh i (Nat.le_of_succ_le hik)))
    ⟨fun i hi => absurd hi (Nat.not_lt_zero i), fun i _ => rfl⟩
  exact hinv.1 i hi

/-- Seen as a list, it is the history of a session. -/
theorem entries_shellRunAdd (hle : h.count ≤ HIST_MAX) :
    (h.shellRunAdd copy).entries = Session.addHistory h.entries copy := by
  rw [shellRunAdd, Session.addHistory, entries_length]
  split
  · exact entries_push
  · rename_i hfull
    have hcount : h.count = (HIST_MAX - 1) + 1 := by
      rw [HIST_MAX] at hle hfull ⊢
      omega
    have hmoved : (List.range (HIST_MAX - 1)).map
        (Function.update (shift h.slots) (HIST_MAX - 1) copy) =
          (List.range (HIST_MAX - 1)).map fun i => h.slots (i + 1) := by
      apply List.map_congr_left
      intro i hi
      have hlt := List.mem_range.mp hi
      exact (Function.update_of_ne hlt.ne _ _).trans (shift_eq hlt)
    have hdrop : h.entries.drop 1 = (List.range (HIST_MAX - 1)).map fun i => h.slots (i + 1) := by
      rw [entries, hcount, List.range_succ_eq_map, List.map_cons, List.drop_one, List.tail_cons,
        List.map_map]
      rfl
    rw [hdrop, ← hmoved, entries]
    simp only
    rw [hcount, List.range_succ, List.map_append, List.map_singleton, Function.update_self]

/-! ## The window -/

/-- The most recent of the lines, as many as there is room for. -/
def lastLines (lines : List (List Char)) : List (List Char) :=
  lines.drop (lines.length - HIST_MAX)

/-- After the additions of `lines` the history holds the most recent ones, which is also what
`shell_get_history` returns and what the key Up goes through from the prompt. -/
structure Recent (lines : List (List Char)) (h : History) : Prop where
  count : h.shellHistoryCount = min lines.length HIST_MAX
  entries : h.entries = (lastLines lines).map some
  get : ∀ i < h.count, h.shellGetHistory i = lines[lines.length - h.count + i]?
  up : ∀ k < h.count, h.slots (h.keyUp^[k + 1] h.count) = lines[lines.length - (k + 1)]?

variable {lines : List (List Char)} {line : List Char}

theorem length_lastLines : (lastLines lines).length = min lines.length HIST_MAX := by
  rw [lastLines, List.length_drop]
  omega

theorem keyUp_iterate {k : Nat} (hk : k ≤ h.count) : h.keyUp^[k] h.count = h.count - k := by
  induction k with
  | zero => rfl
  | succ k ih =>
    rw [Function.iterate_succ_apply', ih (Nat.le_of_succ_le hk), keyUp, if_pos (by omega)]
    exact Nat.sub_sub ..

/-- The rest follows from the entries. -/
theorem Recent.of_entries (he : h.entries = (lastLines lines).map some) : Recent lines h := by
  have hcount : h.count = min lines.length HIST_MAX := by
    rw [← entries_length, he, List.length_map, length_lastLines]
  have hslot : ∀ i < h.count, h.slots i = lines[lines.length - h.count + i]? := by
    intro i hi
    have hget := entries_getElem? hi
    rw [he, List.getElem?_map, lastLines, List.getElem?_drop] at hget
    have hstart : lines.length - HIST_MAX = lines.length - h.count := by omega
    rw [hstart] at hget
    have hlt : lines.length - h.count + i < lines.length := by omega
    rw [List.getElem?_eq_getElem hlt] at hget ⊢
    exact (Option.some.inj hget).symm
  refine ⟨hcount, he, fun i hi => ?_, fun k hk => ?_⟩
  · rw [shellGetHistory, if_neg (by omega)]
    exact hslot i hi
  · rw [keyUp_iterate hk, hslot _ (by omega)]
    congr 1
    omega

theorem recent_iff_entries : Recent lines h ↔ h.entries = (lastLines lines).map some :=
  ⟨Recent.entries, Recent.of_entries⟩

theorem lastLines_append :
    lastLines (lines ++ [line]) = if lines.length < HIST_MAX then lastLines lines ++ [line]
      else (lastLines lines).drop 1 ++ [line] := by
  rw [lastLines, lastLines, List.length_append, List.length_singleton]
  split
  · rename_i h
    have hzero : lines.length - HIST_MAX = 0 := by omega
    have hzero' : lines.length + 1 - HIST_MAX = 0 := by omega
    rw [hzero, hzero', List.drop_zero, List.drop_zero]
  · rename_i h
    rw [List.drop_drop, List.drop_append_of_le_length (by rw [HIST_MAX]; omega)]
    congr 2
    omega

theorem Recent.length_lt (R : Recent lines h) : lines.length < HIST_MAX ↔ h.count < HIST_MAX := by
  have hcount : h.count = min lines.length HIST_MAX := R.count
  omega

/-- The main loop keeps the window. -/
theorem Recent.run (R : Recent lines h) : Recent (lines ++ [line]) (h.shellRunAdd (some line)) := by
  have hcount : h.count = min lines.length HIST_MAX := R.count
  apply Recent.of_entries
  rw [entries_shellRunAdd (by omega), Session.addHistory, R.entries, lastLines_append,
    List.length_map, length_lastLines]
  split
  · rw [if_pos (by omega), List.map_append]
    rfl
  · rw [if_neg (by omega), List.map_append, List.map_drop]
    rfl

theorem Recent.push (R : Recent lines h) (hroom : h.count < HIST_MAX) :
    Recent (lines ++ [line]) (h.push (some line)) := by
  apply Recent.of_entries
  rw [entries_push, R.entries, lastLines_append, if_pos (R.length_lt.mpr hroom), List.map_append]
  rfl

/-- A list that is the same when its elements move down and one comes in. -/
theorem eq_drop_append_iff {α : Type} {l : List α} {x : α} (hl : l ≠ []) :
    l = l.drop 1 ++ [x] ↔ ∀ y ∈ l, y = x := by
  induction l with
  | nil => exact absurd rfl hl
  | cons a l ih =>
    rw [List.drop_one, List.tail_cons, List.forall_mem_cons]
    cases l with
    | nil => simp
    | cons b l =>
      have hne : b :: l ≠ [] := List.cons_ne_nil b l
      rw [← ih hne, List.drop_one, List.tail_cons, List.cons_append, List.cons.injEq]
      constructor
      · rintro ⟨rfl, h⟩
        have hall := (ih hne).mp h
        exact ⟨hall a List.mem_cons_self, h⟩
      · rintro ⟨rfl, h⟩
        have hall := (ih hne).mp h
        exact ⟨(hall b List.mem_cons_self).symm, h⟩

/-- A line that is dropped is not missed only if all entries are that line. -/
theorem Recent.full_iff (R : Recent lines h) (hfull : ¬ h.count < HIST_MAX) :
    Recent (lines ++ [line]) h ↔ ∀ i < h.count, h.slots i = some line := by
  have hne : lastLines lines ≠ [] := by
    intro hnil
    have hlen : (lastLines lines).length = min lines.length HIST_MAX := length_lastLines
    have hroom := (not_congr R.length_lt).mpr hfull
    rw [hnil, HIST_MAX] at hlen
    rw [HIST_MAX] at hroom
    rw [List.length_nil] at hlen
    omega
  rw [recent_iff_entries, R.entries, lastLines_append,
    if_neg ((not_congr R.length_lt).mpr hfull)]
  have hinj : Function.Injective (List.map (some : List Char → _)) :=
    List.map_injective_iff.mpr (Option.some_injective _)
  rw [hinj.eq_iff, eq_drop_append_iff hne]
  have hall : (∀ y ∈ lastLines lines, y = line) ↔ ∀ o ∈ h.entries, o = some line := by
    rw [R.entries]
    simp
  rw [hall, History.entries]
  simp

/-! ## Runs -/

/-- Who adds a line: the main loop, or a caller of `shell_add_history`. -/
inductive Addition where
  | run (line : List Char)
  | call (line : List Char)

def Addition.text : Addition → List Char
  | run line => line
  | call line => line

def add (a : Addition) (s : History × Ram) : History × Ram :=
  match a with
  | .run line =>
    let (copy, r) := strdup line s.2
    (s.1.shellRunAdd copy, r)
  | .call line => shellAddHistory line s.1 s.2

def adds (as : List Addition) (s : History × Ram) : History × Ram :=
  as.foldl (fun s a => add a s) s

/-- The allocation for the line succeeds, if one is made. -/
def copied (a : Addition) (s : History × Ram) : Bool :=
  match a with
  | .run line => (strdup line s.2).1 = some line
  | .call line => HIST_MAX ≤ s.1.count || (strdup line s.2).1 = some line

def granted : List Addition → History × Ram → Bool
  | [], _ => true
  | a :: as, s => copied a s && granted as (add a s)

/-- The line is not dropped, or it does not matter. -/
def Fits (a : Addition) (s : History × Ram) : Prop :=
  match a with
  | .run _ => True
  | .call line => s.1.count < HIST_MAX ∨ ∀ i < s.1.count, s.1.slots i = some line

variable {a : Addition} {s : History × Ram} {as : List Addition}

/-- One addition. -/
theorem Recent.add_iff (R : Recent lines s.1) (hcopy : copied a s = true) :
    Recent (lines ++ [a.text]) (add a s).1 ↔ Fits a s := by
  cases a with
  | run line =>
    have hsome : (strdup line s.2).1 = some line := of_decide_eq_true hcopy
    rw [add]
    simp only [hsome]
    exact iff_of_true R.run trivial
  | call line =>
    rw [add, shellAddHistory, Fits]
    split
    · rename_i hroom
      rw [copied, decide_eq_false (Nat.not_le.mpr hroom), Bool.false_or, decide_eq_true_iff] at hcopy
      simp only [hcopy]
      exact iff_of_true (R.push hroom) (Or.inl hroom)
    · rename_i hfull
      rw [or_iff_right hfull]
      exact R.full_iff hfull

theorem adds_append (as bs : List Addition) (s : History × Ram) :
    adds (as ++ bs) s = adds bs (adds as s) := List.foldl_append

theorem granted_append (as bs : List Addition) (s : History × Ram) :
    granted (as ++ bs) s = (granted as s && granted bs (adds as s)) := by
  induction as generalizing s with
  | nil => rfl
  | cons a as ih =>
    rw [List.cons_append, granted, granted, ih, Bool.and_assoc]
    rfl

/-- All the way through the additions `as` the history holds the most recent lines. -/
def RecentThroughout (as : List Addition) (s : History × Ram) : Prop :=
  ∀ bs, bs <+: as → Recent (bs.map Addition.text) (adds bs s).1

theorem recent_init (h : History) : Recent [] h.shellInit := Recent.of_entries rfl

theorem forall_prefix_snoc {α : Type} {P : List α → Prop} {l : List α} {x : α} :
    (∀ p, p <+: l ++ [x] → P p) ↔ (∀ p, p <+: l → P p) ∧ P (l ++ [x]) := by
  constructor
  · intro h
    exact ⟨fun p hp => h p (hp.trans (List.prefix_append l [x])), h _ (List.prefix_refl _)⟩
  · rintro ⟨h, hx⟩ p hp
    rcases List.prefix_concat_iff.mp hp with rfl | hp
    · exact hx
    · exact h p hp

/-- The history holds the most recent lines all the way if and only if `shell_add_history` is never
called with another line than the entries while 32 are held. -/
theorem recentThroughout_iff (as : List Addition) (h : History) (r : Ram)
    (hgranted : granted as (h.shellInit, r) = true) :
    RecentThroughout as (h.shellInit, r) ↔
      ∀ bs a, bs ++ [a] <+: as → Fits a (adds bs (h.shellInit, r)) := by
  induction as using List.reverseRecOn with
  | nil =>
    refine iff_of_true (fun bs hbs => ?_) fun bs a hbs => ?_
    · obtain rfl := List.prefix_nil.mp hbs
      exact recent_init h
    · exact absurd (List.prefix_nil.mp hbs) (by simp)
  | append_singleton as a ih =>
    rw [granted_append, Bool.and_eq_true] at hgranted
    obtain ⟨hprev, hlast⟩ := hgranted
    rw [granted, granted, Bool.and_true] at hlast
    have hsnoc : RecentThroughout (as ++ [a]) (h.shellInit, r) ↔
        RecentThroughout as (h.shellInit, r) ∧
          Recent ((as ++ [a]).map Addition.text) (adds (as ++ [a]) (h.shellInit, r)).1 :=
      forall_prefix_snoc
    have hfits : (∀ bs b, bs ++ [b] <+: as ++ [a] → Fits b (adds bs (h.shellInit, r))) ↔
        (∀ bs b, bs ++ [b] <+: as → Fits b (adds bs (h.shellInit, r))) ∧
          Fits a (adds as (h.shellInit, r)) := by
      constructor
      · intro hall
        exact ⟨fun bs b hbs => hall bs b (hbs.trans (List.prefix_append as [a])),
          hall as a (List.prefix_refl _)⟩
      · rintro ⟨hall, hlast⟩ bs b hbs
        rcases List.prefix_concat_iff.mp hbs with heq | hbs
        · obtain ⟨rfl, rfl⟩ := List.append_inj' heq rfl |>.imp id List.singleton_inj.mp
          exact hlast
        · exact hall bs b hbs
    rw [hsnoc, hfits, ih hprev]
    refine and_congr_right fun hall => ?_
    have R := (ih hprev).mpr hall as (List.prefix_refl as)
    rw [List.map_append, adds_append]
    exact R.add_iff hlast

/-- Two lines, one by each of the two. -/
theorem recentThroughout_two : RecentThroughout [.run "ls".toList, .call "pwd".toList]
    (shellInit ⟨fun _ => none, 0⟩, bootRam) := by
  apply (recentThroughout_iff _ ⟨fun _ => none, 0⟩ bootRam (by decide)).mpr
  intro bs a (hbs : bs ++ [a] <+: [] ++ [Addition.run "ls".toList] ++ [.call "pwd".toList])
  rcases List.prefix_concat_iff.mp hbs with he | hbs
  · obtain ⟨rfl, ha⟩ := List.append_inj' he rfl
    obtain rfl := (List.cons.inj ha).1
    exact .inl (by decide)
  · rcases List.prefix_concat_iff.mp hbs with he | hbs
    · obtain ⟨rfl, ha⟩ := List.append_inj' he rfl
      obtain rfl := (List.cons.inj ha).1
      trivial
    · simp at hbs

/-- The 33rd line that is added by `shell_add_history` is lost. -/
theorem not_recentThroughout : ¬ ∀ (as : List Addition) (h : History) (r : Ram),
    granted as (h.shellInit, r) = true → RecentThroughout as (h.shellInit, r) := by
  intro hall
  have hrun := hall (List.replicate 32 (.call ['a']) ++ [.call ['b']]) ⟨fun _ => none, 0⟩ bootRam
    (by decide) _ (List.prefix_refl _)
  have hentries := hrun.entries
  revert hentries
  decide +kernel

end History

end BojanOS
