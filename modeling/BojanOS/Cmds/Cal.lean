import BojanOS.Cmds.Factor
import BojanOS.Dev.Rtc
import BojanOS.Shell.Printf

/-!
# The calendar (`cmd_cal`)

`zeller` is the day of the week of the Gregorian calendar, and `days_in_month` the length of its
months. What `cal` prints below its headings is a table with a column for each day of the week.
-/

namespace BojanOS

open Calendar

/-- `table[i]`; `none` outside. -/
def tableAt {α : Type} (table : List α) (i : Int) : Option α :=
  if i < 0 then none else table[i.toNat]?

/-- For any year but the least `int` no value leaves the range of `int`. -/
def zeller (y m d : Int) : Int :=
  let (y, m) := if m < 3 then (y - 1, m + 12) else (y, m)
  let k := y.tmod 100
  let j := y.tdiv 100
  let h := (d + (13 * (m + 1)).tdiv 5 + k + k.tdiv 4 + j.tdiv 4 + 5 * j).tmod 7
  (h + 6).tmod 7

/-- `dm[]` -/
def monthDays : List Int := [31, 28, 31, 30, 31, 30, 31, 31, 30, 31, 30, 31]

def daysInMonth (y m : Int) : Option Int :=
  if m = 2 ∧ ((y.tmod 4 = 0 ∧ y.tmod 100 ≠ 0) ∨ y.tmod 400 = 0) then some 29
  else tableAt monthDays (m - 1)

/-- `mn[]` -/
def monthNames : List (List Char) :=
  ["January", "February", "March", "April", "May", "June", "July", "August", "September", "October",
    "November", "December"].map String.toList

/-! ## `cal` -/

/-- `month` and `year`; `none` when a number leaves the range of `int`. -/
def calDate (now : RtcTime) (argv : List (List Char)) : Option (Int × Int) := do
  let (month, year) ←
    if 3 ≤ argv.length then do some (← atoi (argv.getD 1 []), ← atoi (argv.getD 2 []))
    else if 2 ≤ argv.length then do some (← atoi (argv.getD 1 []), (now.year.toNat : Int))
    else some ((now.month.toNat : Int), (now.year.toNat : Int))
  some (if month < 1 ∨ 12 < month then (now.month.toNat : Int) else month, year)

/-- `for (int i = 0; i < first; i++)` -/
def calBlanks : Nat → Prog Unit
  | 0 => pure ()
  | k + 1 => do
    Prog.puts "   ".toList
    calBlanks k

/-- `k` rounds of the loop over the days, from `d` on. -/
def calDays (first : Int) : Nat → Int → Prog Unit
  | 0, _ => pure ()
  | k + 1, d => do
    Prog.putf "%2d ".toList [.num (.int (BitVec.ofInt 32 d))]
    if (first + d).tmod 7 = 0 then Prog.shPutc '\n' else pure ()
    calDays first k (d + 1)

/-- The table of the days. -/
def calGrid (first dim : Int) : Prog Unit := do
  calBlanks first.toNat
  calDays first dim.toNat 1
  if (first + dim).tmod 7 ≠ 0 then Prog.shPutc '\n' else pure ()

/-- `now` is what `rtc_read` returns. -/
def cmdCal (now : RtcTime) (argv : List (List Char)) : Prog Int :=
  match calDate now argv with
  | none => .fault
  | some (month, year) =>
    match tableAt monthNames (month - 1), daysInMonth year month with
    | some name, some dim => do
      Prog.putf "    %s %u\n".toList [.str (some name), .num (.int (BitVec.ofInt 32 year))]
      Prog.puts "Su Mo Tu We Th Fr Sa\n".toList
      calGrid (zeller year month 1) dim
      pure 0
    | _, _ => .fault

/-! ## The days of the week -/

variable {y m d : Nat}

/-- The congruence in natural numbers, for a year that begins in March. -/
def zellerMarch (y m d : Nat) : Nat :=
  ((d + 13 * (m + 1) / 5 + y % 100 + y % 100 / 4 + y / 100 / 4 + 5 * (y / 100)) % 7 + 6) % 7

theorem zellerMarch_eq (y m d : Nat) : ((d + (13 * (m + 1) : Int).tdiv 5 + (y : Int).tmod 100 +
      ((y : Int).tmod 100).tdiv 4 + ((y : Int).tdiv 100).tdiv 4 + 5 * (y : Int).tdiv 100).tmod 7 +
        6).tmod 7 = zellerMarch y m d := by
  rw [zellerMarch]
  push_cast [Int.ofNat_tdiv, Int.ofNat_tmod]
  rfl

/-- January and February belong to the year before. -/
theorem zeller_winter (y d : Nat) (hm : m < 3) :
    zeller (y + 1 : Nat) m d = zellerMarch y (m + 12) d := by
  have hint : (m : Int) < 3 := by omega
  have hyear : ((y + 1 : Nat) : Int) - 1 = y := by omega
  have hmonth : (m : Int) + 12 = (m + 12 : Nat) := by omega
  rw [zeller, if_pos hint]
  simp only
  rw [hyear, hmonth, zellerMarch_eq]

theorem zeller_summer (y d : Nat) (hm : 3 ≤ m) : zeller y m d = zellerMarch y m d := by
  have hint : ¬ (m : Int) < 3 := by omega
  rw [zeller, if_neg hint]
  simp only
  rw [zellerMarch_eq]

/-- `zeller` is the day of the week. -/
theorem zeller_eq (d : Nat) (hy : 1 ≤ y) (hm : 1 ≤ m) (hm' : m ≤ 12) :
    zeller y m d = weekday y m d := by
  obtain ⟨p, rfl⟩ := Nat.exists_eq_add_of_le' hy
  by_cases h3 : m < 3
  · rw [zeller_winter p d h3, zellerMarch, weekday, number, yearStart_century]
    generalize p / 100 = j
    generalize p % 100 = k
    interval_cases m
    · simp only [monthStart, monthLength]
      omega
    · simp only [monthStart, monthLength]
      omega
  · have hmarch := monthStart_march (p + 1) (Nat.not_lt.mp h3) hm'
    have hyear := yearStart_century (p + 1)
    rw [yearStart] at hyear
    rw [zeller_summer (p + 1) d (Nat.not_lt.mp h3), zellerMarch, weekday, number]
    generalize (p + 1) / 100 = j at *
    generalize (p + 1) % 100 = k at *
    interval_cases m
    all_goals omega

theorem daysInMonth_eq (y : Nat) (hm : 1 ≤ m) (hm' : m ≤ 12) :
    daysInMonth y m = some (monthLength y m : Int) := by
  have hleap : (((y : Int).tmod 4 = 0 ∧ (y : Int).tmod 100 ≠ 0) ∨ (y : Int).tmod 400 = 0) ↔
      IsLeap y := by
    rw [isLeap_iff]
    have h4 : (y : Int).tmod 4 = (y % 4 : Nat) := rfl
    have h100 : (y : Int).tmod 100 = (y % 100 : Nat) := rfl
    have h400 : (y : Int).tmod 400 = (y % 400 : Nat) := rfl
    rw [h4, h100, h400]
    omega
  rw [daysInMonth]
  simp only [hleap]
  interval_cases m
  case «2» =>
    by_cases h : IsLeap y
    · simp [h, monthLength]
    · simp [h, monthLength, tableAt, monthDays]
  all_goals rfl

/-- The day of the week of the first of the month that follows. -/
def nextFirst (y m : Nat) : Nat := if m = 12 then weekday (y + 1) 1 1 else weekday y (m + 1) 1

theorem nextFirst_eq (y m : Nat) : nextFirst y m = (weekday y m 1 + monthLength y m) % 7 := by
  rw [nextFirst]
  split
  · rename_i h
    subst h
    rw [weekday, weekday, number_new_year]
    omega
  · rw [weekday, weekday, number_first]
    omega

/-! ## The table -/

/-- The three columns of a day. -/
def dayText (d : Nat) : List Char :=
  List.replicate (2 - (decimal d).length) ' ' ++ decimal d ++ [' ']

/-- The cells of the table, week by week. -/
def calCells (first dim : Nat) : List (List Char) :=
  List.replicate first "   ".toList ++ (List.range dim).map fun i => dayText (i + 1)

/-- The rows of the table, with seven cells and a last one with those that are left. -/
def calRows (first dim : Nat) : List (List Char) :=
  (List.range ((first + dim + 6) / 7)).map fun r =>
    (((calCells first dim).drop (7 * r)).take 7).flatten

/-- The cell in the row `r` and the column `w` of a text. -/
def cellAt (text : List Char) (r w : Nat) : List Char :=
  (((lineTexts [] text)[r]?.getD []).drop (3 * w)).take 3

theorem calCells_length (first dim : Nat) : (calCells first dim).length = first + dim := by
  rw [calCells, List.length_append, List.length_replicate, List.length_map, List.length_range]

/-- The cells as they are printed from the number `i` on: a newline is behind each seventh one. -/
def wrapped : Nat → List (List Char) → List Char
  | _, [] => []
  | i, c :: cells => c ++ ((if (i + 1) % 7 = 0 then ['\n'] else []) ++ wrapped (i + 1) cells)

section wrapped

variable {cells rest : List (List Char)} {i : Nat}

/-- The week goes round. -/
theorem wrapped_add_seven (i : Nat) (cells : List (List Char)) :
    wrapped (i + 7) cells = wrapped i cells := by
  induction cells generalizing i with
  | nil => rfl
  | cons c cells ih =>
    have hmod : (i + 7 + 1) % 7 = (i + 1) % 7 := by omega
    rw [wrapped, wrapped, hmod, Nat.add_right_comm, ih]

/-- In front of the last cell of a week there is no newline. -/
theorem wrapped_append (h : i + cells.length < 7) :
    wrapped i (cells ++ rest) = cells.flatten ++ wrapped (i + cells.length) rest := by
  induction cells generalizing i with
  | nil => rfl
  | cons c cells ih =>
    rw [List.length_cons] at h ⊢
    have hnone : ¬ (i + 1) % 7 = 0 := by omega
    rw [List.cons_append, wrapped, if_neg hnone, List.nil_append, ih (by omega),
      List.flatten_cons, List.append_assoc, Nat.add_right_comm, Nat.add_assoc]

/-- A week is a line. -/
theorem wrapped_week (h : cells.length = 7) :
    wrapped 0 (cells ++ rest) = cells.flatten ++ '\n' :: wrapped 0 rest := by
  have hne : cells ≠ [] := List.ne_nil_of_length_pos (by rw [h]; decide)
  obtain ⟨front, c, rfl⟩ := (List.eq_nil_or_concat' cells).resolve_left hne
  rw [List.length_append, List.length_singleton] at h
  have hfront : front.length = 6 := by omega
  rw [List.append_assoc, wrapped_append (by omega), List.singleton_append, wrapped, hfront,
    if_pos rfl, List.flatten_append, List.flatten_singleton, List.append_assoc]
  exact congrArg (fun text => front.flatten ++ (c ++ '\n' :: text)) (wrapped_add_seven 0 rest)

end wrapped

theorem unlines_rows (cells : List (List Char)) :
    unlines ((List.range ((cells.length + 6) / 7)).map fun r =>
      ((cells.drop (7 * r)).take 7).flatten) =
        wrapped 0 cells ++ if cells.length % 7 = 0 then [] else ['\n'] := by
  induction hn : cells.length using Nat.strong_induction_on generalizing cells with
  | h n ih =>
  subst hn
  rcases eq_or_ne cells [] with rfl | hne
  · rfl
  have hpos := List.length_pos_iff.mpr hne
  have hrows : (cells.length + 6) / 7 = ((cells.drop 7).length + 6) / 7 + 1 := by
    rw [List.length_drop]
    omega
  have htail := ih (cells.drop 7).length (by rw [List.length_drop]; omega) (cells.drop 7) rfl
  rw [hrows, List.range_succ_eq_map, List.map_cons, List.map_map, unlines, List.flatMap_cons,
    ← unlines]
  have hrest : (List.range (((cells.drop 7).length + 6) / 7)).map
        ((fun r => ((cells.drop (7 * r)).take 7).flatten) ∘ Nat.succ) =
      (List.range (((cells.drop 7).length + 6) / 7)).map fun r =>
        (((cells.drop 7).drop (7 * r)).take 7).flatten := by
    refine List.map_congr_left fun r _ => ?_
    rw [Function.comp_apply, List.drop_drop, Nat.mul_succ, Nat.add_comm]
  rw [hrest, htail, Nat.mul_zero, List.drop_zero]
  rcases Nat.lt_or_ge cells.length 7 with hlt | hge
  · -- the last line is not full
    have hshort : wrapped 0 cells = cells.flatten := by
      have h : wrapped 0 (cells ++ []) = cells.flatten ++ wrapped (0 + cells.length) [] :=
        wrapped_append (by omega)
      rwa [List.append_nil, wrapped, List.append_nil] at h
    have hmod : ¬ cells.length % 7 = 0 := by omega
    rw [List.drop_eq_nil_of_le hlt.le, List.take_of_length_le hlt.le, hshort, if_neg hmod]
    simp [wrapped]
  · have hweek : wrapped 0 (cells.take 7 ++ cells.drop 7) = _ :=
      wrapped_week (List.length_take_of_le hge)
    have hmod : (cells.drop 7).length % 7 = cells.length % 7 := by
      rw [List.length_drop]
      omega
    rw [List.take_append_drop] at hweek
    rw [hweek, hmod]
    simp only [List.append_assoc, List.cons_append, List.nil_append]

theorem calBlanks_emits (n : Nat) :
    (calBlanks n).emits = some ((List.replicate n "   ".toList).flatten, ()) := by
  induction n with
  | zero => rfl
  | succ n ih => exact Prog.emits_append (Prog.emits_puts _) ih

theorem shPrintf_day {d : Nat} (hd : (d : Int) ≤ INT_MAX) :
    shPrintf "%2d ".toList [.num (.int (BitVec.ofInt 32 d))] = some (dayText d) := by
  have hfmt : "%2d ".toList = '%' :: ("2".toList ++ 'd' :: (" ".toList ++ [])) := by decide
  have htwo : ∀ c ∈ "2".toList, isdigit c = true := List.all_eq_true.mp (by decide)
  have hwidth : natValue "2".toList = 2 := rfl
  have hint : (BitVec.ofInt 32 (d : Int)).toInt = d := by
    rw [INT_MAX] at hd
    rw [BitVec.toInt_ofInt]
    exact Int.bmod_eq_of_le (by omega) (by omega)
  rw [hfmt, shPrintf_d htwo (by rw [hwidth]; decide), hwidth, hint, shPrintf_text (by decide),
    shPrintf_nil]
  rfl

/-- The loop prints the cells of the days. -/
theorem calDays_emits (first : Nat) {k d : Nat} (h : ((d + k : Nat) : Int) ≤ INT_MAX) :
    (calDays first k (d + 1 : Nat)).emits =
      some (wrapped (first + d) ((List.range' d k).map fun i => dayText (i + 1)), ()) := by
  induction k generalizing d with
  | zero => rfl
  | succ k ih =>
    have hnext := ih (d := d + 1) (by rwa [Nat.add_right_comm])
    have hmod : ((first : Int) + (d + 1 : Nat)).tmod 7 = ((first + d + 1) % 7 : Nat) := rfl
    rw [calDays, List.range'_succ, List.map_cons, wrapped]
    apply Prog.emits_append (Prog.emits_putf (shPrintf_day (by omega)))
    simp only [hmod, Int.natCast_eq_zero]
    by_cases hend : (first + d + 1) % 7 = 0
    · rw [if_pos hend, if_pos hend]
      exact Prog.emits_append (Prog.emits_shPutc '\n') hnext
    · rw [if_neg hend, if_neg hend]
      exact hnext

/-- The table is printed row by row. -/
theorem calGrid_emits {first dim : Nat} (hfirst : first < 7) (hdim : dim ≤ 31) :
    (calGrid first dim).emits = some (unlines (calRows first dim), ()) := by
  have hblanks : (List.replicate first "   ".toList).length = first := List.length_replicate
  have hdays := calDays_emits first (k := dim) (d := 0) (by rw [INT_MAX]; omega)
  have hmod : ((first : Int) + dim).tmod 7 = ((first + dim) % 7 : Nat) := rfl
  have hcells : wrapped 0 (calCells first dim) = (List.replicate first "   ".toList).flatten ++
      wrapped first ((List.range' 0 dim).map fun i => dayText (i + 1)) := by
    rw [calCells, wrapped_append (by rw [hblanks]; omega), hblanks, Nat.zero_add,
      List.range_eq_range']
  have hlength := calCells_length first dim
  rw [calRows, ← hlength, unlines_rows, hcells, List.append_assoc, hlength]
  apply Prog.emits_append (calBlanks_emits first)
  apply Prog.emits_append hdays
  simp only [hmod, Int.natCast_ne_zero]
  by_cases hend : (first + dim) % 7 = 0
  · rw [if_pos hend, if_neg (not_not.mpr hend)]
    rfl
  · rw [if_neg hend, if_pos hend]
    rfl

/-- The cells are three bytes wide. -/
theorem flatten_cell {cells : List (List Char)} (h : ∀ c ∈ cells, c.length = 3) (w : Nat) :
    (cells.flatten.drop (3 * w)).take 3 = cells[w]?.getD [] := by
  induction cells generalizing w with
  | nil => simp
  | cons c cells ih =>
    rw [List.forall_mem_cons] at h
    rw [List.flatten_cons]
    cases w with
    | zero => rw [Nat.mul_zero, List.drop_zero, ← h.1, List.take_left]; rfl
    | succ w =>
      have hdrop : 3 * (w + 1) = c.length + 3 * w := by rw [h.1]; omega
      rw [hdrop, List.drop_append, List.drop_eq_nil_of_le (Nat.le_add_right _ _),
        Nat.add_sub_cancel_left, List.nil_append, ih h.2]
      rfl

theorem calCells_mem {first dim : Nat} (hdim : dim ≤ 31) :
    ∀ c ∈ calCells first dim, c.length = 3 ∧ '\n' ∉ c := by
  have hday : ∀ d < 32, (dayText d).length = 3 ∧ '\n' ∉ dayText d := by decide +kernel
  intro c hc
  rcases List.mem_append.mp hc with hc | hc
  · rw [List.eq_of_mem_replicate hc]
    decide
  · obtain ⟨i, hi, rfl⟩ := List.mem_map.mp hc
    have hlt := List.mem_range.mp hi
    exact hday (i + 1) (by omega)

/-- The cells are found again in the rows and columns of the text. -/
theorem cellAt_rows {first dim : Nat} (hdim : dim ≤ 31) (r w : Nat) :
    cellAt (unlines (calRows first dim)) r w =
      if w < 7 then (calCells first dim)[7 * r + w]?.getD [] else [] := by
  have hcells : ∀ c ∈ calCells first dim, c.length = 3 ∧ '\n' ∉ c := calCells_mem hdim
  have hrow : ∀ l ∈ calRows first dim, '\n' ∉ l := by
    intro l hl hn
    obtain ⟨r, -, rfl⟩ := List.mem_map.mp hl
    obtain ⟨c, hc, hn⟩ := List.mem_flatten.mp hn
    exact (hcells c (List.mem_of_mem_drop (List.mem_of_mem_take hc))).2 hn
  have hget : (calRows first dim)[r]?.getD [] =
      (((calCells first dim).drop (7 * r)).take 7).flatten := by
    rw [calRows, List.getElem?_map]
    rcases Nat.lt_or_ge r ((first + dim + 6) / 7) with hr | hr
    · rw [List.getElem?_range hr]
      rfl
    · rw [List.getElem?_eq_none (by rw [List.length_range]; exact hr), List.drop_eq_nil_of_le]
      · rfl
      · rw [calCells_length]
        omega
  rw [cellAt, lineTexts_unlines hrow, hget, flatten_cell]
  · split_ifs with hw
    · rw [List.getElem?_take_of_lt hw, List.getElem?_drop]
    · rw [List.getElem?_eq_none]
      · rfl
      · exact (List.length_take_le _ _).trans (Nat.not_lt.mp hw)
  · intro c hc
    exact (hcells c (List.mem_of_mem_drop (List.mem_of_mem_take hc))).1

/-- The digits of a day. -/
theorem dayText_digits (d : Nat) : (dayText d).filter isdigit = decimal d := by
  have hblank : (List.replicate (2 - (decimal (d : Nat)).length) ' ').filter isdigit = [] := by
    apply List.filter_eq_nil_iff.mpr
    intro c hc
    rw [List.eq_of_mem_replicate hc]
    decide
  have hdigits : (decimal (d : Nat)).filter isdigit = decimal d :=
    List.filter_eq_self.mpr isdigit_decimal
  have hlast : [' '].filter isdigit = [] := by decide
  rw [dayText, List.filter_append, List.filter_append, hblank, hdigits, hlast, List.nil_append,
    List.append_nil]

theorem dayText_inj {a b : Nat} (h : dayText a = dayText b) : a = b := by
  have hdigits := congrArg (List.filter isdigit) h
  rw [dayText_digits, dayText_digits] at hdigits
  rw [← natValue_decimal a, hdigits, natValue_decimal]

theorem dayText_ne {c : List Char} (hc : c.filter isdigit = []) (d : Nat) : c ≠ dayText d := by
  rintro rfl
  have hpos := decimal_length_pos (d : Nat)
  rw [dayText_digits] at hc
  rw [hc] at hpos
  exact Nat.lt_irrefl 0 hpos

/-- Each day is in one cell. -/
theorem calCells_day {first dim i d : Nat} (hd : 1 ≤ d) :
    (calCells first dim)[i]?.getD [] = dayText d ↔ d ≤ dim ∧ i + 1 = first + d := by
  rcases Nat.lt_or_ge i first with hi | hi
  · have hget : (calCells first dim)[i]? = some "   ".toList := by
      rw [calCells, List.getElem?_append_left (by rwa [List.length_replicate]),
        List.getElem?_replicate_of_lt hi]
    rw [hget]
    exact iff_of_false (dayText_ne (by decide) d) (by omega)
  · have hget : (calCells first dim)[i]? =
        ((List.range dim).map fun i => dayText (i + 1))[i - first]? := by
      rw [calCells, List.getElem?_append_right (by rwa [List.length_replicate]),
        List.length_replicate]
    rw [hget, List.getElem?_map]
    rcases Nat.lt_or_ge (i - first) dim with hlt | hge
    · rw [List.getElem?_range hlt]
      constructor
      · intro h
        have := dayText_inj h
        omega
      · intro h
        have : i - first + 1 = d := by omega
        exact congrArg dayText this
    · rw [List.getElem?_eq_none (by rwa [List.length_range])]
      exact iff_of_false (dayText_ne rfl d) (by omega)

/-! ## What is printed -/

/-- The two headings. -/
def calHead (y m : Nat) : List Char :=
  "    ".toList ++ ((monthNames.getD (m - 1) []) ++ (" ".toList ++ (decimal y ++ "\n".toList))) ++
    "Su Mo Tu We Th Fr Sa\n".toList

theorem shPrintf_head (name : List Char) (hy : (y : Int) ≤ INT_MAX) :
    shPrintf "    %s %u\n".toList [.str (some name), .num (.int (BitVec.ofInt 32 y))] =
      some ("    ".toList ++ (name ++ (" ".toList ++ (decimal y ++ "\n".toList)))) := by
  have hnat : (BitVec.ofInt 32 y).toNat = y := by
    rw [INT_MAX] at hy
    rw [BitVec.toNat_ofInt]
    omega
  have hfmt : "    %s %u\n".toList =
      "    ".toList ++ '%' :: 's' :: (" ".toList ++ '%' :: 'u' :: ("\n".toList ++ [])) := by decide
  rw [hfmt, shPrintf_text (by decide), shPrintf_s, shPrintf_text (by decide), shPrintf_number, hnat,
    shPrintf_text (by decide), shPrintf_nil]
  simp only [Option.map_some, List.append_nil]

theorem cmdCal_emits {now : RtcTime} {argv : List (List Char)}
    (hdate : calDate now argv = some ((m : Int), (y : Int))) (hy : 1 ≤ y)
    (hy' : (y : Int) ≤ INT_MAX) (hm : 1 ≤ m) (hm' : m ≤ 12) :
    (cmdCal now argv).emits =
      some (calHead y m ++ unlines (calRows (weekday y m 1) (monthLength y m)), 0) := by
  have hname : tableAt monthNames ((m : Int) - 1) = some (monthNames.getD (m - 1) []) := by
    interval_cases m
    all_goals rfl
  have hzeller := zeller_eq 1 hy hm hm'
  have hgrid := calGrid_emits (weekday_lt y m 1) (monthLength_mem y hm hm').2
  rw [cmdCal, hdate]
  simp only [hname, daysInMonth_eq y hm hm']
  rw [Nat.cast_one] at hzeller
  rw [hzeller, calHead, List.append_assoc]
  apply Prog.emits_append (Prog.emits_putf (shPrintf_head _ hy'))
  apply Prog.emits_append (Prog.emits_puts _)
  rw [← List.append_nil (unlines _)]
  exact Prog.emits_append hgrid (Prog.emits_pure _)

/-- Each day is printed once, in the column of its day of the week. -/
theorem cal_weekdays (hy : 1 ≤ y) (hy' : (y : Int) ≤ INT_MAX) (hm : 1 ≤ m) (hm' : m ≤ 12) :
    zeller y m 1 = weekday y m 1 ∧
    (∃ n, daysInMonth y m = some n ∧ (zeller y m 1 + n) % 7 = nextFirst y m) ∧
    ∀ now argv, calDate now argv = some ((m : Int), (y : Int)) →
      ∃ grid, (cmdCal now argv).emits = some (calHead y m ++ grid, 0) ∧
        ∀ d r w, 1 ≤ d → (cellAt grid r w = dayText d ↔
          d ≤ monthLength y m ∧ r = (weekday y m 1 + d - 1) / 7 ∧ w = weekday y m d) := by
  have hzeller := zeller_eq 1 hy hm hm'
  rw [Nat.cast_one] at hzeller
  refine ⟨hzeller, ⟨_, daysInMonth_eq y hm hm', ?_⟩, ?_⟩
  · rw [hzeller, nextFirst_eq]
    push_cast
    rfl
  · intro now argv hdate
    refine ⟨_, cmdCal_emits hdate hy hy' hm hm', ?_⟩
    intro d r w hd
    have hlt := weekday_lt y m d
    have hday : weekday y m d = (weekday y m 1 + (d - 1)) % 7 := by
      rw [← weekday_add, Nat.sub_add_cancel hd]
    rw [cellAt_rows (monthLength_mem y hm hm').2]
    split_ifs with hw
    · rw [calCells_day hd]
      omega
    · exact iff_of_false (dayText_ne rfl d) (by omega)

theorem cal_weekdays_september :
    ∃ grid, (cmdCal ⟨2026, 1, 1, 0, 0, 0⟩ ["cal".toList, "9".toList, "2026".toList]).emits =
        some (calHead 2026 9 ++ grid, 0) ∧
      cellAt grid 4 3 = dayText 30 ∧ ∀ r w, cellAt grid r w ≠ dayText 31 := by
  obtain ⟨-, -, h⟩ :=
    cal_weekdays (y := 2026) (m := 9) (by decide) (by decide) (by decide) (by decide)
  have hdate : calDate ⟨2026, 1, 1, 0, 0, 0⟩ ["cal".toList, "9".toList, "2026".toList] =
      some (((9 : Nat) : Int), ((2026 : Nat) : Int)) := by decide +kernel
  have hfirst : weekday 2026 9 1 = 2 := by
    have hzeller := zeller_eq (y := 2026) (m := 9) 1 (by decide) (by decide) (by decide)
    exact Int.natCast_inj.mp (hzeller.symm.trans (by decide))
  have hlast : weekday 2026 9 30 = 3 := by rw [weekday_add 2026 9 29, hfirst]
  obtain ⟨grid, hgrid, hcells⟩ := h _ _ hdate
  refine ⟨grid, hgrid, (hcells 30 4 3 (by decide)).mpr ⟨by decide, ?_, hlast.symm⟩, ?_⟩
  · rw [hfirst]
  · intro r w h
    exact absurd ((hcells 31 r w (by decide)).mp h).1 (by decide)

end BojanOS
