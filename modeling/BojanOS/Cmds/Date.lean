import BojanOS.Cmds.Cal

/-!
# The date (`cmd_date`)

`date` has a formula of its own for the day of the week. Its months all have the same weight, and
the century years are leap years, so it agrees with `zeller` in one or two months of a century.
-/

namespace BojanOS

open Calendar

/-- `months[]` -/
def dateMonths : List (List Char) :=
  ["Jan", "Feb", "Mar", "Apr", "May", "Jun", "Jul", "Aug", "Sep", "Oct", "Nov", "Dec"].map
    String.toList

/-- `days[]` -/
def dateDays : List (List Char) :=
  ["Sun", "Mon", "Tue", "Wed", "Thu", "Fri", "Sat"].map String.toList

/-- `dow` -/
def dateDow (t : RtcTime) : Int :=
  ((t.day.toNat : Int) + t.month.toNat + t.year.toNat + (t.year.toNat : Int).tdiv 4).tmod 7

/-- `months[t.month - 1]`, or the question marks. -/
def dateMonth (t : RtcTime) : Option (List Char) :=
  if 1 ≤ t.month.toNat ∧ t.month.toNat ≤ 12 then tableAt dateMonths ((t.month.toNat : Int) - 1)
  else some "???".toList

/-- `t` is what `rtc_read` returns; its fields are arguments of type `int`. -/
def cmdDate (t : RtcTime) : Prog Int :=
  match tableAt dateDays (BitVec.ofInt 32 (dateDow t) &&& 7#32).toInt, dateMonth t with
  | some day, some month => do
    Prog.putf "%s %s %2u %02u:%02u:%02u UTC %u\n".toList
      [.str (some day), .str (some month), .num (.int (t.day.setWidth 32)),
        .num (.int (t.hour.setWidth 32)), .num (.int (t.minute.setWidth 32)),
        .num (.int (t.second.setWidth 32)), .num (.int (t.year.setWidth 32))]
    pure 0
  | _, _ => .fault

/-- The date that is in a result of `rtc_read`. -/
structure RtcTime.OnDate (t : RtcTime) (date : Date) : Prop where
  year : t.year.toNat = date.year
  month : t.month.toNat = date.month
  day : t.day.toNat = date.day

/-- `date` and `cal` agree: `dow` is the day of the week that `zeller` finds, and its name is
printed. -/
def DateAgrees (t : RtcTime) : Prop :=
  dateDow t = zeller t.year.toNat t.month.toNat t.day.toNat ∧
  ∃ day rest, tableAt dateDays (dateDow t) = some day ∧
    (cmdDate t).emits = some (day ++ rest, 0)

theorem dateDow_eq (t : RtcTime) : dateDow t =
    ((t.day.toNat + t.month.toNat + t.year.toNat + t.year.toNat / 4) % 7 : Nat) := rfl

/-- `dow` is less than seven, so the mask keeps it. -/
theorem dateDow_index (t : RtcTime) : ∃ n < 7, dateDow t = (n : Nat) ∧
    (BitVec.ofInt 32 (dateDow t) &&& 7#32).toInt = dateDow t := by
  refine ⟨_, Nat.mod_lt _ (by decide), dateDow_eq t, ?_⟩
  have hlt := Nat.mod_lt (t.day.toNat + t.month.toNat + t.year.toNat + t.year.toNat / 4)
    (by decide : 7 > 0)
  rw [dateDow_eq]
  generalize (t.day.toNat + t.month.toNat + t.year.toNat + t.year.toNat / 4) % 7 = n at *
  interval_cases n
  all_goals rfl

/-- Two columns. -/
def twoColumns (n : Nat) : List Char :=
  List.replicate (2 - (decimal n).length) ' ' ++ decimal n

theorem shPrintf_two {ds fmt : List Char} {args : List PrintfArg}
    (hds : ∀ c ∈ ds, isdigit c = true) (hw : natValue ds = 2) (v : BitVec 8) :
    shPrintf ('%' :: (ds ++ 'u' :: fmt)) (.num (.int (v.setWidth 32)) :: args) =
      (shPrintf fmt args).map (twoColumns v.toNat ++ ·) := by
  have hv : (v.setWidth 32).toNat = v.toNat := BitVec.toNat_setWidth_of_le (by decide)
  rw [shPrintf_u hds (by rw [hw]; decide), hw, hv, twoColumns]

/-- What is behind the name of the day. -/
def dateRest (t : RtcTime) (month : List Char) : List Char :=
  " ".toList ++ (month ++ (" ".toList ++ (twoColumns t.day.toNat ++ (" ".toList ++
    (twoColumns t.hour.toNat ++ (":".toList ++ (twoColumns t.minute.toNat ++ (":".toList ++
      (twoColumns t.second.toNat ++ (" UTC ".toList ++ (decimal t.year.toNat ++
        "\n".toList)))))))))))

theorem shPrintf_date (t : RtcTime) (day month : List Char) :
    shPrintf "%s %s %2u %02u:%02u:%02u UTC %u\n".toList
      [.str (some day), .str (some month), .num (.int (t.day.setWidth 32)),
        .num (.int (t.hour.setWidth 32)), .num (.int (t.minute.setWidth 32)),
        .num (.int (t.second.setWidth 32)), .num (.int (t.year.setWidth 32))] =
      some (day ++ dateRest t month) := by
  have hfmt : "%s %s %2u %02u:%02u:%02u UTC %u\n".toList =
      '%' :: 's' :: (" ".toList ++ '%' :: 's' :: (" ".toList ++ '%' :: ("2".toList ++ 'u' ::
        (" ".toList ++ '%' :: ("02".toList ++ 'u' :: (":".toList ++ '%' :: ("02".toList ++ 'u' ::
          (":".toList ++ '%' :: ("02".toList ++ 'u' :: (" UTC ".toList ++ '%' :: 'u' ::
            ("\n".toList ++ []))))))))))) := by decide
  have hyear : (t.year.setWidth 32).toNat = t.year.toNat := BitVec.toNat_setWidth_of_le (by decide)
  have htwo : ∀ c ∈ "2".toList, isdigit c = true := List.all_eq_true.mp (by decide)
  have hzero : ∀ c ∈ "02".toList, isdigit c = true := List.all_eq_true.mp (by decide)
  rw [hfmt, shPrintf_s, shPrintf_text (by decide), shPrintf_s, shPrintf_text (by decide),
    shPrintf_two htwo rfl, shPrintf_text (by decide), shPrintf_two hzero rfl,
    shPrintf_text (by decide), shPrintf_two hzero rfl, shPrintf_text (by decide),
    shPrintf_two hzero rfl, shPrintf_text (by decide), shPrintf_number, hyear,
    shPrintf_text (by decide), shPrintf_nil, dateRest]
  simp only [Option.map_some, List.append_nil]

/-- The two tables are read within their bounds, whatever the clock says. -/
theorem cmdDate_emits (t : RtcTime) : ∃ day month, tableAt dateDays (dateDow t) = some day ∧
    dateMonth t = some month ∧ (cmdDate t).emits = some (day ++ dateRest t month, 0) := by
  obtain ⟨n, hn, hdow, hindex⟩ := dateDow_index t
  have hday : ∃ day, tableAt dateDays (dateDow t) = some day := by
    rw [hdow]
    interval_cases n
    all_goals exact ⟨_, rfl⟩
  have hmonth : ∃ month, dateMonth t = some month := by
    rw [dateMonth]
    split_ifs with h
    · obtain ⟨hm, hm'⟩ := h
      generalize t.month.toNat = m at *
      interval_cases m
      all_goals exact ⟨_, rfl⟩
    · exact ⟨_, rfl⟩
  obtain ⟨day, hday⟩ := hday
  obtain ⟨month, hmonth⟩ := hmonth
  refine ⟨day, month, hday, hmonth, ?_⟩
  rw [cmdDate, hindex, hday, hmonth, ← List.append_nil (day ++ _)]
  exact Prog.emits_append (Prog.emits_putf (shPrintf_date t day month)) (Prog.emits_pure _)

theorem dateAgrees_iff_dow (t : RtcTime) :
    DateAgrees t ↔ dateDow t = zeller t.year.toNat t.month.toNat t.day.toNat := by
  obtain ⟨day, month, hday, -, hrun⟩ := cmdDate_emits t
  exact ⟨fun h => h.1, fun h => ⟨h, day, _, hday, hrun⟩⟩

/-- A year by its century. -/
theorem century (y : Nat) : ∃ j k, k < 100 ∧ y = 100 * j + k ∧ y / 100 = j ∧ y % 100 = k :=
  ⟨y / 100, y % 100, Nat.mod_lt _ (by decide), (Nat.div_add_mod y 100).symm, rfl, rfl⟩

/-- From 2000 to 2099 `dow` is right in April only, and in each of the next centuries in other
months. -/
theorem dateAgrees_iff {t : RtcTime} {date : Date} (h : t.OnDate date) (hlo : 2000 ≤ date.year)
    (hhi : date.year ≤ 2255) :
    DateAgrees t ↔
      (date.year < 2100 ∧ date.month = 4) ∨
      (2100 ≤ date.year ∧ date.year < 2200 ∧ (date.month = 5 ∨ date.month = 9)) ∨
      (2200 ≤ date.year ∧ date.month = 10) := by
  have hm := date.month_pos
  have hm' := date.month_le
  rw [dateAgrees_iff_dow, dateDow_eq, h.year, h.month, h.day]
  generalize date.year = y at *
  generalize date.month = m at *
  generalize date.day = d at *
  by_cases h3 : m < 3
  · obtain ⟨p, rfl⟩ := Nat.exists_eq_add_of_le' ((by decide : 1 ≤ 2000).trans hlo)
    obtain ⟨j, k, hk, hp, hdiv, hmod⟩ := century p
    have hquarter : (p + 1) / 4 = 25 * j + (k + 1) / 4 := by omega
    have hj : 19 ≤ j ∧ j ≤ 22 := by omega
    rw [zeller_winter p d h3, zellerMarch, Int.natCast_inj, hdiv, hmod, hquarter, hp]
    obtain ⟨hj, hj'⟩ := hj
    clear hdiv hmod hquarter
    interval_cases m
    all_goals
      interval_cases j
      all_goals omega
  · obtain ⟨j, k, hk, hp, hdiv, hmod⟩ := century y
    have hquarter : y / 4 = 25 * j + k / 4 := by omega
    have hj : 20 ≤ j ∧ j ≤ 22 := by omega
    rw [zeller_summer y d (Nat.not_lt.mp h3), zellerMarch, Int.natCast_inj, hdiv, hmod, hquarter]
    obtain ⟨hj, hj'⟩ := hj
    clear hdiv hmod hquarter
    generalize k / 4 = q
    interval_cases m
    all_goals
      interval_cases j
      all_goals omega

/-- The tenth of April 2026. -/
theorem dateAgrees_iff_spring : DateAgrees ⟨2026, 4, 10, 12, 0, 0⟩ := by
  let date : Date := ⟨2026, 4, 10, by decide, by decide, by decide, by decide⟩
  exact (@dateAgrees_iff _ date ⟨rfl, rfl, rfl⟩ (by decide) (by decide)).mpr (by decide)

/-- The 25th of December 2026 is a Friday, and printed as a Sunday. -/
theorem not_dateAgrees_winter : ∃ (t : RtcTime) (date : Date), t.OnDate date ∧ 2000 ≤ date.year ∧
    date.year ≤ 2255 ∧ ¬ DateAgrees t := by
  refine ⟨⟨2026, 12, 25, 12, 0, 0⟩, ⟨2026, 12, 25, by decide, by decide, by decide, by decide⟩,
    ⟨rfl, rfl, rfl⟩, by decide, by decide, ?_⟩
  rw [dateAgrees_iff_dow]
  decide

end BojanOS
