import BojanOS.Lib.Calendar
import BojanOS.Lib.Loop

/-!
# The clock (`rtc.c`)

`rtc_read` reads the registers of the clock one by one, and the clock goes on in between. A
`RtcClock` is such a run: the time at which it starts, the seconds that have passed at each read,
and the two status registers. The bytes that the reads find follow from it.
-/

namespace BojanOS

open Calendar

/-- `rtc_time_t` -/
structure RtcTime where
  year : BitVec 16
  month : BitVec 8
  day : BitVec 8
  hour : BitVec 8
  minute : BitVec 8
  second : BitVec 8
  deriving DecidableEq

/-- What `cmos_read` finds: `cmos k reg` is the byte of the register at the `k`-th read. -/
abbrev Cmos := Nat → BitVec 8 → BitVec 8

/-- The local variables of `rtc_read`. -/
structure RtcRegs where
  sec : BitVec 8
  min : BitVec 8
  hour : BitVec 8
  day : BitVec 8
  mon : BitVec 8
  year : BitVec 8
  statusB : BitVec 8

/-- The two loops have the same head: the inner one goes back to it while an update is in progress,
and the outer one when the second is another one at the end of the round. -/
def rtcStep (cmos : Cmos) (k : Nat) : Option (Nat ⊕ (RtcRegs × Nat)) :=
  if cmos k 0x0A &&& 0x80#8 ≠ 0#8 then some (.inl (k + 1))
  else
    let t : RtcRegs := {
      sec := cmos (k + 1) 0x00
      min := cmos (k + 2) 0x02
      hour := cmos (k + 3) 0x04
      day := cmos (k + 4) 0x07
      mon := cmos (k + 5) 0x08
      year := cmos (k + 6) 0x09
      statusB := cmos (k + 7) 0x0B }
    if t.sec ≠ cmos (k + 8) 0x00 then some (.inl (k + 9)) else some (.inr (t, k + 9))

/-- What is made of the bytes. The sums stay below 256, so `uint8_t` loses nothing of them. -/
def RtcRegs.decode (t : RtcRegs) : RtcTime :=
  let t :=
    if t.statusB &&& 0x04#8 = 0#8 then
      { t with
        sec := (t.sec &&& 0x0F#8) + ((t.sec >>> 4) &&& 0x07#8) * 10#8
        min := (t.min &&& 0x0F#8) + ((t.min >>> 4) &&& 0x07#8) * 10#8
        day := (t.day &&& 0x0F#8) + ((t.day >>> 4) &&& 0x03#8) * 10#8
        mon := (t.mon &&& 0x0F#8) + ((t.mon >>> 4) &&& 0x01#8) * 10#8
        year := (t.year &&& 0x0F#8) + (t.year >>> 4) * 10#8
        hour :=
          if t.statusB &&& 0x02#8 = 0#8 then
            ((t.hour &&& 0x0F#8) + ((t.hour &&& 0x70#8) >>> 4) * 10#8) ||| (t.hour &&& 0x80#8)
          else t.hour }
    else t
  { second := t.sec, minute := t.min, hour := t.hour, day := t.day, month := t.mon
    year := 2000#16 + t.year.setWidth 16 }

/-- `rtc_read`, with the number of reads. -/
def rtcRead (cmos : Cmos) (fuel : Nat) : Option (RtcTime × Nat) :=
  (Loop.run (rtcStep cmos) fuel 0).map fun (t, k) => (t.decode, k)

/-! ## The clock -/

/-- A run of the clock in the years from 2000 to 2099. -/
structure RtcClock where
  start : DateTime
  /-- The seconds that have passed at a read. -/
  elapsed : Nat → Nat
  mono : Monotone elapsed
  century : ∀ k, 2000 ≤ (start.after (elapsed k)).year ∧ (start.after (elapsed k)).year < 2100
  statusA : Nat → BitVec 8
  statusB : BitVec 8

namespace RtcClock

/-- Bit 2 of Status B is set for binary numbers. -/
def binary (statusB : BitVec 8) : Bool := statusB &&& 0x04#8 ≠ 0#8

/-- Bit 1 of Status B is set for hours up to 23. -/
def full (statusB : BitVec 8) : Bool := statusB &&& 0x02#8 ≠ 0#8

/-- A number below 100 in a register. -/
def byte (statusB : BitVec 8) (n : Nat) : BitVec 8 :=
  if binary statusB then .ofNat 8 n else .ofNat 8 (n / 10 * 16 + n % 10)

/-- The hours from 12 to 11, and bit 7 in the afternoon. -/
def hourByte (statusB : BitVec 8) (h : Nat) : BitVec 8 :=
  if full statusB then byte statusB h
  else byte statusB (if h % 12 = 0 then 12 else h % 12) ||| if 12 ≤ h then 0x80#8 else 0#8

/-- The time at a read. -/
def time (c : RtcClock) (k : Nat) : DateTime := c.start.after (c.elapsed k)

/-- The alarm registers are never read, and are 0 here. -/
def cmos (c : RtcClock) : Cmos := fun k reg =>
  let t := c.time k
  if reg = 0x0A then c.statusA k
  else if reg = 0x0B then c.statusB
  else if reg = 0x00 then byte c.statusB t.second
  else if reg = 0x02 then byte c.statusB t.minute
  else if reg = 0x04 then hourByte c.statusB t.hour
  else if reg = 0x07 then byte c.statusB t.day
  else if reg = 0x08 then byte c.statusB t.month
  else if reg = 0x09 then byte c.statusB (t.year - 2000)
  else 0

end RtcClock

/-- The fields as numbers. -/
structure RtcTime.Is (t : RtcTime) (year month day hour minute second : Nat) : Prop where
  year : t.year.toNat = year
  month : t.month.toNat = month
  day : t.day.toNat = day
  hour : t.hour.toNat = hour
  minute : t.minute.toNat = minute
  second : t.second.toNat = second

/-- The two are the same time. -/
def RtcTime.Shows (t : RtcTime) (d : DateTime) : Prop :=
  t.Is d.year d.month d.day d.hour d.minute d.second

/-- The hours that come out right: all of them in the binary format up to 23, those of one digit in
the BCD format up to 23, and those from 1 to 11 in the two formats with an afternoon. -/
def HourRight (statusB : BitVec 8) (h : Nat) : Prop :=
  (RtcClock.full statusB = true ∧ (RtcClock.binary statusB = true ∨ h < 10)) ∨
    (RtcClock.full statusB = false ∧ 1 ≤ h ∧ h < 12)

instance (statusB : BitVec 8) (h : Nat) : Decidable (HourRight statusB h) :=
  inferInstanceAs (Decidable (_ ∨ _))

/-! ## What is read -/

/-- The hour that `rtc_read` makes of the byte. -/
def hourRead (statusB : BitVec 8) (h : Nat) : Nat :=
  if RtcClock.full statusB then if RtcClock.binary statusB then h else h / 10 * 16 + h % 10
  else (if h % 12 = 0 then 12 else h % 12) + if 12 ≤ h then 128 else 0

theorem hourRead_le (statusB : BitVec 8) {h : Nat} (hh : h < 24) :
    h ≤ hourRead statusB h ∧ (hourRead statusB h = h ↔ HourRight statusB h) := by
  rw [hourRead, HourRight]
  cases RtcClock.full statusB with
  | true =>
    cases RtcClock.binary statusB with
    | true => simp
    | false =>
      simp only [if_true, Bool.false_eq_true, if_false, Bool.true_eq_false, false_or, true_and,
        false_and, or_false]
      omega
  | false =>
    simp only [Bool.false_eq_true, if_false, false_and, false_or, true_and]
    split_ifs <;> omega

namespace RtcClock

/-- The bytes of a time. -/
def regs (statusB : BitVec 8) (t : DateTime) : RtcRegs where
  sec := byte statusB t.second
  min := byte statusB t.minute
  hour := hourByte statusB t.hour
  day := byte statusB t.day
  mon := byte statusB t.month
  year := byte statusB (t.year - 2000)
  statusB := statusB

/-- The byte of the second tells the seconds apart. -/
theorem byte_inj (statusB : BitVec 8) {n k : Nat} (hn : n < 60) (hk : k < 60)
    (h : byte statusB n = byte statusB k) : n = k := by
  have h' := congrArg BitVec.toNat h
  rw [byte, byte] at h'
  split at h'
  · rw [BitVec.toNat_ofNat, BitVec.toNat_ofNat] at h'
    omega
  · rw [BitVec.toNat_ofNat, BitVec.toNat_ofNat] at h'
    omega

end RtcClock

variable {statusB : BitVec 8} {n h : Nat}

/-- A number in BCD. The digit in front has the bits that its register needs. -/
theorem bcd_decode (x : BitVec 8) (hx : x = BitVec.ofNat 8 (n / 10 * 16 + n % 10)) :
    (n < 60 → ((x &&& 0x0F#8) + ((x >>> 4) &&& 0x07#8) * 10#8).toNat = n) ∧
    (n < 32 → ((x &&& 0x0F#8) + ((x >>> 4) &&& 0x03#8) * 10#8).toNat = n) ∧
    (n < 13 → ((x &&& 0x0F#8) + ((x >>> 4) &&& 0x01#8) * 10#8).toNat = n) ∧
    (n < 100 → ((x &&& 0x0F#8) + (x >>> 4) * 10#8).toNat = n) := by
  subst hx
  refine ⟨?_, ?_, ?_, ?_⟩
  · revert n
    decide +kernel
  · revert n
    decide +kernel
  · revert n
    decide +kernel
  · revert n
    decide +kernel

theorem hour_decode (statusB : BitVec 8) (hh : h < 24) :
    let x := RtcClock.hourByte statusB h
    (if RtcClock.binary statusB ∨ RtcClock.full statusB then x
      else ((x &&& 0x0F#8) + ((x &&& 0x70#8) >>> 4) * 10#8) ||| (x &&& 0x80#8)).toNat =
        hourRead statusB h := by
  simp only [RtcClock.hourByte, RtcClock.byte, hourRead]
  generalize RtcClock.binary statusB = b
  generalize RtcClock.full statusB = f
  revert h b f
  decide +kernel

/-- The registers of one time are read as this time, up to the hour. -/
theorem RtcRegs.decode_regs (statusB : BitVec 8) (t : DateTime) (hlo : 2000 ≤ t.year)
    (hhi : t.year < 2100) :
    (RtcClock.regs statusB t).decode.Is t.year t.month t.day (hourRead statusB t.hour) t.minute
      t.second := by
  have hday : t.day < 32 := Nat.lt_succ_of_le (t.day_le.trans (monthLength_mem _ t.month_pos
    t.month_le).2)
  have hmonth : t.month < 13 := Nat.lt_succ_of_le t.month_le
  have hyear : t.year - 2000 < 100 := by omega
  have hhour := hour_decode statusB t.hour_lt
  have hbinary : RtcClock.binary statusB = decide (statusB &&& 0x04#8 ≠ 0#8) := rfl
  have hfull : RtcClock.full statusB = decide (statusB &&& 0x02#8 ≠ 0#8) := rfl
  have hcentury : ∀ y : BitVec 8, y.toNat = t.year - 2000 →
      (2000#16 + y.setWidth 16).toNat = t.year := by
    intro y hy
    rw [BitVec.toNat_add, BitVec.toNat_setWidth, hy]
    have h2000 : (2000#16).toNat = 2000 := rfl
    omega
  have hsmall : ∀ {n}, n < 256 → (BitVec.ofNat 8 n).toNat = n := fun hn => by
    rw [BitVec.toNat_ofNat, Nat.mod_eq_of_lt hn]
  by_cases hb : statusB &&& 0x04#8 = 0#8
  · have hnot : RtcClock.binary statusB = false := by
      rw [hbinary, decide_eq_false (by simpa using hb)]
    have hbyte : ∀ n, RtcClock.byte statusB n = BitVec.ofNat 8 (n / 10 * 16 + n % 10) := fun n => by
      rw [RtcClock.byte, hnot, if_neg Bool.false_ne_true]
    rw [decode]
    simp only [RtcClock.regs, hb, if_true]
    refine ⟨hcentury _ ?_, ?_, ?_, ?_, ?_, ?_⟩
    · exact (bcd_decode _ (hbyte _)).2.2.2 hyear
    · exact (bcd_decode _ (hbyte _)).2.2.1 hmonth
    · exact (bcd_decode _ (hbyte _)).2.1 hday
    · rw [← hhour, hnot, hfull]
      by_cases hf : statusB &&& 0x02#8 = 0#8
      · simp [hf]
      · simp [hf]
    · exact (bcd_decode _ (hbyte _)).1 t.minute_lt
    · exact (bcd_decode _ (hbyte _)).1 t.second_lt
  · have hset : RtcClock.binary statusB = true := by rw [hbinary, decide_eq_true hb]
    have hbyte : ∀ n, RtcClock.byte statusB n = BitVec.ofNat 8 n := fun n => by
      rw [RtcClock.byte, hset, if_pos rfl]
    rw [decode]
    simp only [RtcClock.regs, hb, if_false, hbyte]
    refine ⟨hcentury _ (hsmall (by omega)), hsmall (by omega), hsmall (by omega), ?_,
      hsmall (t.minute_lt.trans (by decide)), hsmall (t.second_lt.trans (by decide))⟩
    rw [← hhour, hset, if_pos (.inl rfl)]

/-! ## The call -/

/-- A time with a later hour is a later time. -/
theorem RtcTime.Shows.seconds_lt {t : RtcTime} {d e : DateTime} (T : t.Shows e)
    (I : t.Is d.year d.month d.day h d.minute d.second) (hd : d.hour < h) :
    d.seconds < e.seconds := by
  have hnumber : e.number = d.number := by
    rw [Date.number, Date.number, ← T.year, ← T.month, ← T.day, I.year, I.month, I.day]
  have hhour : e.hour = h := T.hour.symm.trans I.hour
  rw [DateTime.seconds, DateTime.seconds, hnumber, hhour, secondsOf, secondsOf]
  have := d.minute_lt
  have := d.second_lt
  omega

/-- A round that returns ends with the second that it has read. -/
theorem rtcStep_cases {cmos : Cmos} {k e : Nat} {t : RtcRegs}
    (h : rtcStep cmos k = some (.inr (t, e))) : e = k + 9 ∧ t.sec = cmos (k + 8) 0x00 ∧
      t = ⟨cmos (k + 1) 0x00, cmos (k + 2) 0x02, cmos (k + 3) 0x04, cmos (k + 4) 0x07,
        cmos (k + 5) 0x08, cmos (k + 6) 0x09, cmos (k + 7) 0x0B⟩ := by
  rw [rtcStep] at h
  split at h
  · cases h
  · simp only at h
    split at h
    · cases h
    · rename_i hsec
      obtain ⟨rfl, rfl⟩ := Prod.mk.inj (Sum.inr.inj (Option.some.inj h))
      exact ⟨rfl, not_not.mp hsec, rfl⟩

namespace RtcClock

variable {c : RtcClock} {k e : Nat} {t : RtcRegs}

/-- The round that returns has no tick in it, and its bytes are those of one time. -/
theorem accepted (h : rtcStep c.cmos k = some (.inr (t, e)))
    (hspan : c.elapsed (e - 1) < c.elapsed (e - 8) + 60) :
    t = regs c.statusB (c.time (e - 1)) := by
  obtain ⟨rfl, hsec, rfl⟩ := rtcStep_cases h
  have hlast : k + 9 - 1 = k + 8 := rfl
  have hfirst : k + 9 - 8 = k + 1 := by omega
  rw [hlast, hfirst] at hspan
  rw [hlast]
  have hsecond : (c.time (k + 1)).second = (c.time (k + 8)).second :=
    byte_inj c.statusB (c.time (k + 1)).second_lt (c.time (k + 8)).second_lt hsec
  have helapsed : c.elapsed (k + 1) = c.elapsed (k + 8) :=
    c.start.after_eq (c.mono (by omega)) hspan hsecond
  -- between the two reads of the second the clock stands still
  have htime : ∀ j, k + 1 ≤ j → j ≤ k + 8 → c.time j = c.time (k + 8) := by
    intro j h1 h8
    have hle : c.elapsed j ≤ c.elapsed (k + 8) := c.mono h8
    have hge : c.elapsed (k + 1) ≤ c.elapsed j := c.mono h1
    rw [time, time, Nat.le_antisymm hle (helapsed ▸ hge)]
  simp only [cmos, regs]
  rw [htime (k + 1) (by omega) (by omega), htime (k + 2) (by omega) (by omega),
    htime (k + 3) (by omega) (by omega), htime (k + 4) (by omega) (by omega),
    htime (k + 5) (by omega) (by omega), htime (k + 6) (by omega) (by omega)]
  rfl

end RtcClock

/-- `rtc_read` returns the time that the clock shows at its last read, or at any other one of the
call, exactly when the hour is one that comes out right. -/
theorem rtcRead_iff (c : RtcClock) (fuel k : Nat) (t : RtcTime)
    (h : rtcRead c.cmos fuel = some (t, k))
    (hspan : c.elapsed (k - 1) < c.elapsed (k - 8) + 60) :
    ((∃ n, c.elapsed 0 ≤ n ∧ n ≤ c.elapsed (k - 1) ∧ t.Shows (c.start.after n)) ∧
        t.hour.toNat < 24) ↔ HourRight c.statusB (c.time (k - 1)).hour := by
  obtain ⟨r, hrun, hr⟩ := Option.map_eq_some_iff.mp h
  obtain ⟨rfl, rfl⟩ := Prod.mk.inj hr
  obtain ⟨k', -, hstep⟩ := Loop.run_sound hrun
  have hregs := RtcClock.accepted hstep hspan
  have hcentury := c.century (r.2 - 1)
  have I := RtcRegs.decode_regs c.statusB (c.time (r.2 - 1)) hcentury.1 hcentury.2
  rw [← hregs] at I
  obtain ⟨hle, hright⟩ := hourRead_le c.statusB (c.time (r.2 - 1)).hour_lt
  rw [← hright]
  constructor
  · rintro ⟨⟨n, -, hn, T⟩, -⟩
    by_contra hne
    have hlater := T.seconds_lt I (lt_of_le_of_ne hle (Ne.symm hne))
    rw [RtcClock.time, DateTime.seconds_after, DateTime.seconds_after] at hlater
    omega
  · intro heq
    rw [heq] at I
    refine ⟨⟨c.elapsed (r.2 - 1), c.mono (Nat.zero_le _), le_rfl, I⟩, ?_⟩
    rw [I.hour]
    exact (c.time (r.2 - 1)).hour_lt

def beforeOne : DateTime where
  year := 2026
  month := 9
  day := 28
  month_pos := by decide
  month_le := by decide
  day_pos := by decide
  day_le := by decide
  hour := 12
  minute := 59
  second := 59
  hour_lt := by decide
  minute_lt := by decide
  second_lt := by decide

/-- A clock that goes from 12:59:59 to 13:00:00 between the fourth and the fifth read. -/
def noonClock (statusB : BitVec 8) : RtcClock where
  start := beforeOne
  elapsed k := if k < 5 then 0 else 1
  mono i j h := by
    dsimp only
    split_ifs <;> omega
  century k := by
    split_ifs
    · decide
    · decide
  statusA _ := 0
  statusB := statusB

/-- The first round of reads sees the tick, and the second one is right. -/
theorem rtcRead_noon :
    rtcRead (noonClock 0x06).cmos 2 = some (⟨2026, 9, 28, 13, 0, 0⟩, 18) ∧
      ∃ n ≤ 1, (RtcTime.mk 2026 9 28 13 0 0).Shows ((noonClock 0x06).start.after n) := by
  have hread : rtcRead (noonClock 0x06).cmos 2 = some (⟨2026, 9, 28, 13, 0, 0⟩, 18) := by
    decide +kernel
  have hright : HourRight (noonClock 0x06).statusB ((noonClock 0x06).time (18 - 1)).hour := by
    decide
  obtain ⟨⟨n, -, hn, T⟩, -⟩ := (rtcRead_iff (noonClock 0x06) 2 18 _ hread (by decide)).mpr hright
  exact ⟨hread, n, hn, T⟩

/-- In the BCD format up to 23, the hour 13 is read as 19. -/
theorem not_rtcRead_noon : ¬ ∀ (c : RtcClock) (fuel k : Nat) (t : RtcTime),
    rtcRead c.cmos fuel = some (t, k) → c.elapsed (k - 1) < c.elapsed (k - 8) + 60 →
    (∃ n, c.elapsed 0 ≤ n ∧ n ≤ c.elapsed (k - 1) ∧ t.Shows (c.start.after n)) ∧
      t.hour.toNat < 24 := by
  intro h
  obtain ⟨⟨n, -, hn, T⟩, -⟩ := h (noonClock 0x02) 2 18 ⟨2026, 9, 28, 19, 0, 0⟩ (by decide +kernel)
    (by decide)
  have hle : n ≤ 1 := hn
  have hhour := T.hour
  interval_cases n
  · exact absurd hhour (by decide)
  · exact absurd hhour (by decide)

/-- When a second is longer than two rounds of reads and no update is shown, one of the first two
rounds returns. -/
theorem rtcRead_returns (c : RtcClock) (hidle : ∀ k, c.statusA k &&& 0x80#8 = 0#8)
    (hslow : c.elapsed 17 ≤ c.elapsed 0 + 1) : (rtcRead c.cmos 2).isSome := by
  have hclear : ∀ k, ¬ c.cmos k 0x0A &&& 0x80#8 ≠ 0#8 := fun k => not_not.mpr (hidle k)
  have hstill : ∀ k, c.elapsed (k + 1) = c.elapsed (k + 8) →
      c.cmos (k + 1) 0x00 = c.cmos (k + 8) 0x00 := by
    intro k hk
    show RtcClock.byte c.statusB (c.time (k + 1)).second =
      RtcClock.byte c.statusB (c.time (k + 8)).second
    rw [RtcClock.time, RtcClock.time, hk]
  have hreturns : ∀ k, c.cmos (k + 1) 0x00 = c.cmos (k + 8) 0x00 →
      ∃ r, rtcStep c.cmos k = some (.inr r) := fun k hk => by
    rw [rtcStep, if_neg (hclear k), if_neg (not_not.mpr hk)]
    exact ⟨_, rfl⟩
  have h01 : c.elapsed 0 ≤ c.elapsed 1 := c.mono (by decide)
  have h18 : c.elapsed 1 ≤ c.elapsed 8 := c.mono (by decide)
  have h810 : c.elapsed 8 ≤ c.elapsed (9 + 1) := c.mono (by decide)
  have hround : c.elapsed (9 + 1) ≤ c.elapsed (9 + 8) := c.mono (by decide)
  rw [rtcRead, Option.isSome_map]
  by_cases hfirst : c.cmos (0 + 1) 0x00 = c.cmos (0 + 8) 0x00
  · obtain ⟨r, hr⟩ := hreturns 0 hfirst
    rw [Loop.run, hr]
    rfl
  · -- the tick was in the first round
    have hne : c.elapsed 1 ≠ c.elapsed 8 := fun he => hfirst (hstill 0 he)
    have hstep : rtcStep c.cmos 0 = some (.inl 9) := by
      rw [rtcStep, if_neg (hclear 0), if_pos hfirst]
    have hslow : c.elapsed (9 + 8) ≤ c.elapsed 0 + 1 := hslow
    obtain ⟨r, hr⟩ := hreturns 9 (hstill 9 (by omega))
    rw [Loop.run, hstep]
    simp only
    rw [Loop.run, hr]
    rfl

end BojanOS
