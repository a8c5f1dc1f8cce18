import Mathlib.Tactic.Linarith

/-!
The real-time clock (`kernel/src/arch/x86_64/device/rtc.rs`).

The registers hold a date and a time of day, in BCD or in binary and with 12 or 24 hours, as register
B says. `Rtc::time` reads them once and makes the number of seconds since 1970 of them. Beside it
stands the calendar, counted year by year and month by month.

In 12-hour mode the code adds twelve hours whether the bit for the afternoon is set or not.

* `unixTime_eq`: the closed form of the code counts the days of the calendar.
* `time_eq_iff`: the result is right exactly in 24-hour mode, from midnight to one and in the
  afternoon from one o'clock on.
-/

namespace Faastr.Rtc

/-! ### The code -/

def cvtBcd (value : Nat) : Nat := (value &&& 0xF) + value / 16 * 10

/-- `usize` and `u64`. -/
def sub64 (a b : Nat) : Nat := (a + 2 ^ 64 - b) % 2 ^ 64

/-- The seconds before a month, in a year without a leap day. -/
def monthSeconds : Nat → Nat
  | 2 => 2678400
  | 3 => 5097600
  | 4 => 7776000
  | 5 => 10368000
  | 6 => 13046400
  | 7 => 15638400
  | 8 => 18316800
  | 9 => 20995200
  | 10 => 23587200
  | 11 => 26265600
  | 12 => 28857600
  | _ => 0

/-- The hour, from its register. -/
def decodeHour (registerB : Nat) (hour : Nat) : Nat :=
  let hour := if registerB &&& 4 ≠ 4 then cvtBcd (hour &&& 0x7F) ||| (hour &&& 0x80) else hour
  if registerB &&& 2 ≠ 2 ∨ hour &&& 0x80 = 0x80 then ((hour &&& 0x7F) + 12) % 24 else hour

/-- Another register. -/
def decode (registerB : Nat) (value : Nat) : Nat :=
  if registerB &&& 4 ≠ 4 then cvtBcd value else value

/-- The part of `Rtc::time` behind the registers. -/
def unixTime (year month day hour minute second : Nat) : Nat :=
  let secs := sub64 year 1970 * 31536000
  let leapDays := sub64 year 1972 / 4 + 1
  let leapDays := if year % 4 = 0 ∧ month ≤ 2 then sub64 leapDays 1 else leapDays
  let secs := secs + leapDays * 86400
  let secs := secs + monthSeconds month
  let secs := secs + sub64 day 1 * 86400
  let secs := secs + hour * 3600
  let secs := secs + minute * 60
  (secs + second) % 2 ^ 64

/-- `Rtc::time`, on the registers as they are when it reads them. -/
def time (read : UInt8 → UInt8) : Nat :=
  let registerB := (read 0xB).toNat
  let second := decode registerB (read 0).toNat
  let minute := decode registerB (read 2).toNat
  let hour := decodeHour registerB (read 4).toNat
  let day := decode registerB (read 7).toNat
  let month := decode registerB (read 8).toNat
  let year := decode registerB (read 9).toNat
  let century := 20
  unixTime (year + century * 100) month day hour minute second

/-! ### The calendar -/

def isLeap (year : Nat) : Bool := year % 4 = 0 && (year % 100 ≠ 0 || year % 400 = 0)

def daysOfYear (year : Nat) : Nat := if isLeap year then 366 else 365

def daysOfMonth (leap : Bool) : Nat → Nat
  | 2 => if leap then 29 else 28
  | 4 | 6 | 9 | 11 => 30
  | _ => 31

/-- A date and a time of day in this century. -/
structure Moment where
  year : Nat
  month : Nat
  day : Nat
  hour : Nat
  minute : Nat
  second : Nat
  year_le : 2000 ≤ year ∧ year ≤ 2099
  month_le : 1 ≤ month ∧ month ≤ 12
  day_le : 1 ≤ day ∧ day ≤ daysOfMonth (isLeap year) month
  hour_lt : hour < 24
  minute_lt : minute < 60
  second_lt : second < 60

namespace Moment

/-- The days from the beginning of 1970 to the day. -/
def dayNumber (t : Moment) : Nat :=
  ((List.range' 1970 (t.year - 1970)).map daysOfYear).sum +
    ((List.range' 1 (t.month - 1)).map (daysOfMonth (isLeap t.year))).sum + (t.day - 1)

/-- The seconds from the beginning of 1970. -/
def seconds (t : Moment) : Nat := t.dayNumber * 86400 + t.hour * 3600 + t.minute * 60 + t.second

end Moment

/-- Register B says that numbers are binary. -/
abbrev Binary (registerB : Nat) : Prop := registerB &&& 4 = 4

/-- Register B says that the day has 24 hours. -/
abbrev Hours24 (registerB : Nat) : Prop := registerB &&& 2 = 2

/-- A number below a hundred, as a register has it. -/
def encode (registerB n : Nat) : Nat := if Binary registerB then n else n / 10 * 16 + n % 10

/-- The hour on the face of a clock. -/
def clockHour (hour : Nat) : Nat := if hour % 12 = 0 then 12 else hour % 12

def encodeHour (registerB hour : Nat) : Nat :=
  if Hours24 registerB then encode registerB hour
  else encode registerB (clockHour hour) + if 12 ≤ hour then 0x80 else 0

/-- The registers are those of a moment. -/
structure Encodes (read : UInt8 → UInt8) (t : Moment) : Prop where
  second : (read 0).toNat = encode (read 0xB).toNat t.second
  minute : (read 2).toNat = encode (read 0xB).toNat t.minute
  hour : (read 4).toNat = encodeHour (read 0xB).toNat t.hour
  day : (read 7).toNat = encode (read 0xB).toNat t.day
  month : (read 8).toNat = encode (read 0xB).toNat t.month
  year : (read 9).toNat = encode (read 0xB).toNat (t.year % 100)

/-! ### Numbers in registers -/

section Registers

variable {b n : Nat}

theorem cvtBcd_bcd : ∀ n < 100, cvtBcd (n / 10 * 16 + n % 10) = n := by decide

theorem decode_encode (h : n < 100) : decode b (encode b n) = n := by
  unfold decode encode
  by_cases hb : b &&& 4 = 4
  · rw [if_pos hb, if_neg (not_not.mpr hb)]
  · rw [if_neg hb, if_pos hb, cvtBcd_bcd n h]

/-- What the code makes of the register: in 12-hour mode twelve hours are always added. -/
theorem decodeHour_encodeHour : ∀ b < 256, ∀ hour < 24, decodeHour b (encodeHour b hour) =
    if Hours24 b then hour else (clockHour hour + 12) % 24 := by
  decide +kernel

/-- That is right at midnight and in the afternoon. -/
theorem clockHour_add_eq_iff : ∀ hour < 24, (clockHour hour + 12) % 24 = hour ↔ hour = 0 ∨ 13 ≤ hour := by
  decide

theorem clockHour_add_lt (hour : Nat) : (clockHour hour + 12) % 24 < 24 := Nat.mod_lt _ (by decide)

end Registers

/-! ### The days -/

theorem sub64_of_le {a b : Nat} (h : b ≤ a) (ha : a < 2 ^ 64) : sub64 a b = a - b := by
  unfold sub64
  omega

/-- The days of the years from 1970 on. -/
theorem sum_daysOfYear : ∀ k < 100, ((List.range' 1970 (2000 + k - 1970)).map daysOfYear).sum =
    (30 + k) * 365 + 7 + (k + 3) / 4 := by
  decide +kernel

/-- The days of the months, with the leap day. -/
theorem sum_daysOfMonth : ∀ leap : Bool, ∀ month < 13, 1 ≤ month →
    ((List.range' 1 (month - 1)).map (daysOfMonth leap)).sum * 86400 =
      monthSeconds month + (if leap ∧ 3 ≤ month then 1 else 0) * 86400 := by
  decide

/-- In this century every fourth year is a leap year. -/
theorem isLeap_iff {year : Nat} (h : 2000 ≤ year ∧ year ≤ 2099) : isLeap year = true ↔ year % 4 = 0 := by
  rw [isLeap, Bool.and_eq_true, Bool.or_eq_true, decide_eq_true_iff, decide_eq_true_iff,
    decide_eq_true_iff]
  omega

theorem monthSeconds_le : ∀ month < 13, monthSeconds month ≤ 28857600 := by decide

theorem daysOfMonth_le : ∀ leap : Bool, ∀ month, daysOfMonth leap month ≤ 31 := by
  intro leap month
  unfold daysOfMonth
  split
  · split <;> omega
  all_goals omega

/-- The leap days of the code are those of the years before, and that of the year once it is over. -/
theorem leapDays_eq {year month : Nat} (hyear : 2000 ≤ year ∧ year ≤ 2099) :
    (if year % 4 = 0 ∧ month ≤ 2 then sub64 (sub64 year 1972 / 4 + 1) 1 else sub64 year 1972 / 4 + 1) =
      7 + (year - 1997) / 4 + if year % 4 = 0 ∧ 3 ≤ month then 1 else 0 := by
  rw [sub64_of_le (a := year) (by omega) (by omega), sub64_of_le (by omega) (by omega)]
  split
  · rw [if_neg (by omega)]
    omega
  · split
    · omega
    · omega

/-- The days of the years, of the leap years and of the months are days. -/
theorem total_eq {k leapYears extra months seconds day hour minute second : Nat} (hk : k < 100)
    (hleap : leapYears ≤ 25) (hextra : extra ≤ 1) (hmonths : months * 86400 = seconds + extra * 86400)
    (hseconds : seconds ≤ 28857600) (hday : day ≤ 31) (hhour : hour < 24) (hminute : minute < 60)
    (hsecond : second < 60) :
    ((30 + k) * 31536000 + (7 + leapYears + extra) * 86400 + seconds + day * 86400 + hour * 3600 +
      minute * 60 + second) % 2 ^ 64 =
    ((30 + k) * 365 + 7 + leapYears + months + day) * 86400 + hour * 3600 + minute * 60 + second := by
  rw [Nat.mod_eq_of_lt (by omega)]
  linarith

/-- **The closed form of the code counts the days of the calendar.** -/
theorem unixTime_eq (t : Moment) {hour : Nat} (hhour : hour < 24) :
    unixTime t.year t.month t.day hour t.minute t.second =
      t.dayNumber * 86400 + hour * 3600 + t.minute * 60 + t.second := by
  obtain ⟨k, hk⟩ := Nat.exists_eq_add_of_le t.year_le.1
  have hyear := t.year_le
  have hmonth := t.month_le
  have hday := t.day_le
  have hday31 := daysOfMonth_le (isLeap t.year) t.month
  have hyears := sum_daysOfYear k (by omega)
  have hmonths := sum_daysOfMonth (isLeap t.year) t.month (by omega) hmonth.1
  simp only [isLeap_iff hyear] at hmonths
  have hextra : (if t.year % 4 = 0 ∧ 3 ≤ t.month then 1 else 0) ≤ 1 := by
    split
    · exact Nat.le_refl 1
    · exact Nat.zero_le 1
  have hleapYears : (t.year - 1997) / 4 = (k + 3) / 4 := congrArg (· / 4) (by omega)
  have hsince : t.year - 1970 = 30 + k := by omega
  rw [← hk] at hyears
  rw [unixTime, leapDays_eq hyear, sub64_of_le (by omega) (by omega), sub64_of_le (by omega) (by omega),
    Moment.dayNumber, hyears, hleapYears, hsince]
  exact total_eq (by omega) (by omega) hextra hmonths (monthSeconds_le t.month (by omega)) (by omega)
    hhour t.minute_lt t.second_lt

section Time

variable {read : UInt8 → UInt8} {t : Moment}

/-- `time` gets all fields back, but for the hour. -/
theorem time_of_encodes (h : Encodes read t) : time read = unixTime t.year t.month t.day
    (if Hours24 (read 0xB).toNat then t.hour else (clockHour t.hour + 12) % 24) t.minute t.second := by
  have hyear := t.year_le
  have hmonth := t.month_le
  have hday := t.day_le
  have hday31 := daysOfMonth_le (isLeap t.year) t.month
  have hminute := t.minute_lt
  have hsecond := t.second_lt
  have hcentury : t.year % 100 + 20 * 100 = t.year := by omega
  rw [time, h.second, h.minute, h.hour, h.day, h.month, h.year, decode_encode (by omega),
    decode_encode (by omega), decode_encode (by omega), decode_encode (by omega),
    decode_encode (by omega), decodeHour_encodeHour _ (UInt8.toNat_lt _) _ t.hour_lt, hcentury]

/-- **When the clock is right.** -/
theorem time_eq_iff (h : Encodes read t) :
    time read = t.seconds ↔ Hours24 (read 0xB).toNat ∨ t.hour = 0 ∨ 13 ≤ t.hour := by
  rw [time_of_encodes h, ← clockHour_add_eq_iff t.hour t.hour_lt]
  have hlt := t.hour_lt
  have hclock := clockHour_add_lt t.hour
  by_cases hmode : Hours24 (read 0xB).toNat
  · rw [if_pos hmode, unixTime_eq t hlt]
    exact iff_of_true rfl (.inl hmode)
  · rw [if_neg hmode, unixTime_eq t hclock, or_iff_right hmode, Moment.seconds]
    omega

end Time

/-- The first of January 2024, at some full hour. -/
def newYear (hour : Nat) (h : hour < 24) : Moment :=
  ⟨2024, 1, 1, hour, 0, 0, by decide, by decide, by decide, h, by decide, by decide⟩

/-- Its registers in BCD and with 12 hours. -/
def newYearRegisters (hour : UInt8) : UInt8 → UInt8
  | 4 => hour
  | 7 => 1
  | 8 => 1
  | 9 => 0x24
  | _ => 0

/-- Nine in the morning is taken for nine in the evening. -/
theorem morning_wrong : Encodes (newYearRegisters 9) (newYear 9 (by decide)) ∧
    time (newYearRegisters 9) ≠ (newYear 9 (by decide)).seconds := by
  refine ⟨⟨by decide, by decide, by decide, by decide, by decide, by decide⟩, ?_⟩
  decide +kernel

theorem evening_right : Encodes (newYearRegisters 0x89) (newYear 21 (by decide)) ∧
    time (newYearRegisters 0x89) = (newYear 21 (by decide)).seconds := by
  have h : Encodes (newYearRegisters 0x89) (newYear 21 (by decide)) :=
    ⟨by decide, by decide, by decide, by decide, by decide, by decide⟩
  exact ⟨h, (time_eq_iff h).mpr (.inr (.inr (by decide)))⟩

end Faastr.Rtc
