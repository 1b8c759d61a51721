import Mathlib.Tactic

/-!
# The real-time clock and the system clock

A model of `rtc_read` of `drivers/rtc/rtc.c` and of `SYS_CLOCK_GETTIME` of `syscall.c`.
The chip answers each read of a register on its own, so an update can fall between two
reads.  `rtc_read_delivers` says that a chip that holds a date in BCD delivers it.

`SYS_CLOCK_GETTIME` counts 30 days for a month and 365 for a year.  `tv_sec_lt_iff` says
where that order is not the order of the calendar.
-/

namespace Lumin.Drivers.Rtc

/-- `struct rtc_time`. -/
structure RtcTime where
  second : UInt8
  minute : UInt8
  hour : UInt8
  day : UInt8
  month : UInt8
  year : UInt16
deriving DecidableEq

/-! ## Reading the chip -/

/-- What the chip answers: the number of reads before this one, and the register. -/
abbrev Cmos := Nat → UInt8 → UInt8

/-- The variables that one turn of the retry loop reads. -/
structure Registers where
  second : Nat
  minute : Nat
  hour : Nat
  day : Nat
  month : Nat
  year : Nat
  century : Nat

/-- `bcd_to_bin`. -/
def bcd_to_bin (bcd : Nat) : Nat := (bcd &&& 0x0F) + (bcd >>> 4) * 10

/-- `while (cmos_read(0x0A) & 0x80);` from read `t` on: the number of the read behind it. -/
def waitUpdate (cmos : Cmos) : Nat → Nat → Option Nat
  | 0, _ => none
  | fuel + 1, t => if cmos t 0x0A &&& 0x80 ≠ 0 then waitUpdate cmos fuel (t + 1) else some (t + 1)

/-- The seven reads of a turn. -/
def readRegisters (cmos : Cmos) (t : Nat) : Registers where
  second := (cmos t 0x00).toNat
  minute := (cmos (t + 1) 0x02).toNat
  hour := (cmos (t + 2) 0x04).toNat
  day := (cmos (t + 3) 0x07).toNat
  month := (cmos (t + 4) 0x08).toNat
  year := (cmos (t + 5) 0x09).toNat
  century := (cmos (t + 6) 0x32).toNat

/-- The retry loop with `retries` turns left behind this one. -/
def retryLoop (cmos : Cmos) (fuel : Nat) : Nat → Nat → Option Registers
  | retries, t =>
    match waitUpdate cmos fuel t with
    | none => none
    | some t =>
      let r := readRegisters cmos t
      let updating := cmos (t + 7) 0x0A &&& 0x80 ≠ 0
      if ¬ updating ∧ (cmos (t + 8) 0x00).toNat = r.second ∧ (cmos (t + 9) 0x02).toNat = r.minute
        then some r
      else
        match retries with
        | 0 => some r
        | retries + 1 => retryLoop cmos fuel retries (if updating then t + 8 else t + 10)

/-- The conversion of the registers, and the fields that are filled in from it. -/
def fillTime (binary : Bool) (r : Registers) : RtcTime :=
  let conv := if binary then id else bcd_to_bin
  let century := conv r.century
  let full_year := if century ≠ 0 then century * 100 + conv r.year else 2000 + conv r.year
  { second := UInt8.ofNat (conv r.second)
    minute := UInt8.ofNat (conv r.minute)
    hour := UInt8.ofNat (conv r.hour)
    day := UInt8.ofNat (conv r.day)
    month := UInt8.ofNat (conv r.month)
    year := UInt16.ofNat full_year }

/-- `rtc_read`, with a bound on the turns of each wait. -/
def rtc_read (cmos : Cmos) (fuel : Nat) : Option RtcTime :=
  let statusB := cmos 0 0x0B
  (retryLoop cmos fuel 2 1).map (fillTime (statusB &&& 0x04 ≠ 0))

/-! ## The system call -/

/-- `struct clk_time`. -/
structure ClkTime where
  tv_sec : Nat
  tv_nsec : Nat
deriving DecidableEq

/-- The sum of `SYS_CLOCK_GETTIME`. -/
def tv_sec (tm : RtcTime) : Nat :=
  tm.year.toNat * 31536000 + tm.month.toNat * 2592000 + tm.day.toNat * 86400 + tm.hour.toNat *
    3600 +
    tm.minute.toNat * 60 + tm.second.toNat

/-- `SYS_CLOCK_GETTIME`: the result and what is stored at `tp`. -/
def clock_gettime (tp : Nat) (tm : RtcTime) : Int × Option ClkTime :=
  if tp = 0 then (-1, none) else (0, some ⟨tv_sec tm, 0⟩)

/-! ## The calendar -/

/-- A Gregorian leap year. -/
def Leap (year : Nat) : Prop := year % 4 = 0 ∧ year % 100 ≠ 0 ∨ year % 400 = 0

instance (year : Nat) : Decidable (Leap year) := inferInstanceAs (Decidable (_ ∨ _))

/-- The days of a month. -/
def daysIn (year month : Nat) : Nat :=
  if month = 2 then if Leap year then 29 else 28
  else if month = 4 ∨ month = 6 ∨ month = 9 ∨ month = 11 then 30
  else 31

/-- A date and a time of day of the Gregorian calendar. -/
structure Valid (t : RtcTime) : Prop where
  month_pos : 1 ≤ t.month.toNat
  month_le : t.month.toNat ≤ 12
  day_pos : 1 ≤ t.day.toNat
  day_le : t.day.toNat ≤ daysIn t.year.toNat t.month.toNat
  hour_lt : t.hour.toNat < 24
  minute_lt : t.minute.toNat < 60
  second_lt : t.second.toNat < 60

/-- The second of the day. -/
def secondOfDay (t : RtcTime) : Nat := t.hour.toNat * 3600 + t.minute.toNat * 60 + t.second.toNat

/-- The order of the calendar. -/
def Before (t u : RtcTime) : Prop :=
  t.year < u.year ∨ t.year = u.year ∧
    (t.month < u.month ∨ t.month = u.month ∧
      (t.day < u.day ∨ t.day = u.day ∧
        (t.hour < u.hour ∨ t.hour = u.hour ∧
          (t.minute < u.minute ∨ t.minute = u.minute ∧ t.second < u.second))))

/-- From the 31st of a month to the first of the next one, no later in the day. -/
def OverLongMonth (t u : RtcTime) : Prop :=
  t.year = u.year ∧ u.month.toNat = t.month.toNat + 1 ∧ t.day = 31 ∧ u.day = 1 ∧
    secondOfDay u ≤ secondOfDay t

variable {t u : RtcTime} {cmos : Cmos} {reg : UInt8 → UInt8} {n : Nat}

theorem daysIn_le (year month : Nat) : daysIn year month ≤ 31 := by
  unfold daysIn
  split_ifs <;> omega

theorem Valid.secondOfDay_lt (h : Valid t) : secondOfDay t < 86400 := by
  have hhour := h.hour_lt
  have hminute := h.minute_lt
  have hsecond := h.second_lt
  unfold secondOfDay
  omega

theorem tv_sec_eq (t : RtcTime) :
    tv_sec t =
      (t.year.toNat * 365 + t.month.toNat * 30 + t.day.toNat) * 86400 + secondOfDay t := by
  unfold tv_sec secondOfDay
  omega

/-- The sum fits in `unsigned long`. -/
theorem tv_sec_fits (t : RtcTime) : tv_sec t < 2 ^ 64 := by
  unfold tv_sec
  have hyear := t.year.toNat_lt
  have hmonth := t.month.toNat_lt
  have hday := t.day.toNat_lt
  have hhour := t.hour.toNat_lt
  have hminute := t.minute.toNat_lt
  have hsecond := t.second.toNat_lt
  omega

/-- The order of the calendar by years, months, days and the second of the day. -/
theorem before_iff (ht : Valid t) (hu : Valid u) :
    Before t u ↔ t.year.toNat < u.year.toNat ∨ t.year.toNat = u.year.toNat ∧
      (t.month.toNat < u.month.toNat ∨ t.month.toNat = u.month.toNat ∧
        (t.day.toNat < u.day.toNat ∨ t.day.toNat = u.day.toNat ∧
          secondOfDay t < secondOfDay u)) := by
  have hminute := ht.minute_lt
  have hminute' := hu.minute_lt
  have hsecond := ht.second_lt
  have hsecond' := hu.second_lt
  simp only [Before, secondOfDay, UInt8.lt_iff_toNat_lt, UInt16.lt_iff_toNat_lt,
    ← UInt8.toNat_inj,
    ← UInt16.toNat_inj]
  omega

/-- The system clock goes forward between two dates, except over the end of a long month. -/
theorem tv_sec_lt_iff (ht : Valid t) (hu : Valid u) (h : Before t u) :
    tv_sec t < tv_sec u ↔ ¬ OverLongMonth t u := by
  have hmonths := And.intro ht.month_le hu.month_pos
  have hdays :=
    And.intro (le_trans ht.day_le (daysIn_le _ _)) (le_trans hu.day_le (daysIn_le _ _))
  have hday := And.intro ht.day_pos hu.day_pos
  have hsec := And.intro ht.secondOfDay_lt hu.secondOfDay_lt
  rw [before_iff ht hu] at h
  have hover :
      OverLongMonth t u ↔ t.year.toNat = u.year.toNat ∧ u.month.toNat = t.month.toNat + 1 ∧
      t.day.toNat = 31 ∧ u.day.toNat = 1 ∧ secondOfDay u ≤ secondOfDay t := by
    simp only [OverLongMonth, ← UInt8.toNat_inj, ← UInt16.toNat_inj]
    rfl
  rw [hover, tv_sec_eq, tv_sec_eq]
  rcases h with hyear | ⟨hyear, hmonth | ⟨hmonth, hrest⟩⟩
  · -- A year is longer than what twelve months and 31 days count for.
    omega
  · omega
  · omega

/-- A new year follows the long month December. -/
theorem tv_sec_lt_new_year :
    (Valid ⟨0, 0, 0, 31, 12, 2022⟩ ∧ Valid ⟨0, 0, 0, 1, 1, 2023⟩ ∧
      Before ⟨0, 0, 0, 31, 12, 2022⟩ ⟨0, 0, 0, 1, 1, 2023⟩) ∧
      tv_sec ⟨0, 0, 0, 31, 12, 2022⟩ < tv_sec ⟨0, 0, 0, 1, 1, 2023⟩ := by
  have ht : Valid ⟨0, 0, 0, 31, 12, 2022⟩ := by constructor <;> decide
  have hu : Valid ⟨0, 0, 0, 1, 1, 2023⟩ := by constructor <;> decide
  have h : Before ⟨0, 0, 0, 31, 12, 2022⟩ ⟨0, 0, 0, 1, 1, 2023⟩ := Or.inl (by decide)
  refine ⟨⟨ht, hu, h⟩, (tv_sec_lt_iff ht hu h).mpr ?_⟩
  rintro ⟨hyear, -⟩
  exact absurd hyear (by decide)

/-! ## What the chip delivers -/

/-- The two digits of a number below 100, four bits each. -/
def bcd (n : Nat) : UInt8 := UInt8.ofNat (16 * (n / 10) + n % 10)

/-- A chip between two updates that holds a date in BCD. -/
structure Holds (reg : UInt8 → UInt8) (t : RtcTime) : Prop where
  still : reg 0x0A &&& 0x80 = 0
  mode : reg 0x0B &&& 0x04 = 0
  second : reg 0x00 = bcd t.second.toNat
  minute : reg 0x02 = bcd t.minute.toNat
  hour : reg 0x04 = bcd t.hour.toNat
  day : reg 0x07 = bcd t.day.toNat
  month : reg 0x08 = bcd t.month.toNat
  year : reg 0x09 = bcd (t.year.toNat % 100)
  century : reg 0x32 = bcd (t.year.toNat / 100)

theorem bcd_to_bin_bcd (h : n < 100) : bcd_to_bin (bcd n).toNat = n := by
  have hall : ∀ n < 100, bcd_to_bin (bcd n).toNat = n := by decide
  exact hall n h

/-- The registers read at one moment. -/
theorem retryLoop_still (h : reg 0x0A &&& 0x80 = 0) (fuel retries t : Nat) :
    retryLoop (fun _ => reg) (fuel + 1) retries t = some (readRegisters (fun _ => reg) t) := by
  unfold retryLoop waitUpdate
  simp [h, readRegisters]

/-- A valid date of the years 100 to 9999 is delivered as it is. -/
theorem rtc_read_delivers (ht : Valid t) (hlo : 100 ≤ t.year.toNat) (hhi : t.year.toNat < 10000)
    (h : Holds reg t) (fuel : Nat) : rtc_read (fun _ => reg) (fuel + 1) = some t := by
  have hday := le_trans ht.day_le (daysIn_le _ _)
  have hmonth := ht.month_le
  have hhour := ht.hour_lt
  have hminute := ht.minute_lt
  have hsecond := ht.second_lt
  have hyear : t.year.toNat / 100 * 100 + t.year.toNat % 100 = t.year.toNat := by omega
  have hcentury : t.year.toNat / 100 ≠ 0 := by omega
  unfold rtc_read
  rw [retryLoop_still h.still, Option.map_some]
  congr 1
  simp only [fillTime, readRegisters, h.mode, ne_eq, not_true_eq_false, decide_false,
    Bool.false_eq_true,
    if_false, h.second, h.minute, h.hour, h.day, h.month, h.year, h.century]
  rw [bcd_to_bin_bcd (by omega), bcd_to_bin_bcd (by omega), bcd_to_bin_bcd (by omega),
    bcd_to_bin_bcd (by omega),
    bcd_to_bin_bcd (by omega), bcd_to_bin_bcd (by omega), bcd_to_bin_bcd (by omega),
      if_pos hcentury, hyear]
  simp

/-- The registers at midnight, with the day and the month of 2023 in BCD. -/
def midnight (day month : UInt8) : UInt8 → UInt8 := fun reg =>
  if reg = 0x07 then day else if reg = 0x08 then month else if reg = 0x09 then 0x23
  else if reg = 0x32 then 0x20 else 0

/-- The clock stands still from midnight of 31 January to midnight of 1 February. -/
theorem tv_sec_not_monotone :
    ¬ ∀ (reg reg' : UInt8 → UInt8) (fuel : Nat) (t u : RtcTime), Valid t → Valid u → Before t u →
      rtc_read (fun _ => reg) fuel = some t → rtc_read (fun _ => reg') fuel = some u →
        tv_sec t < tv_sec u := by
  intro hall
  have h := hall (midnight 0x31 0x01) (midnight 0x01 0x02) 1 ⟨0, 0, 0, 31, 1, 2023⟩
      ⟨0, 0, 0, 1, 2, 2023⟩
    (by constructor <;> decide) (by constructor <;> decide) (Or.inr ⟨rfl, Or.inl (by decide)⟩)
    (by decide) (by decide)
  exact absurd h (by decide)

end Lumin.Drivers.Rtc
