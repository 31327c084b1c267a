import KernelC.Time.Basic

/-!
# The wall clock and the time of day

The RTC stores the time in one of four formats. What `read_rtc_time` makes of
its registers is the time in the kernel's time zone, except in 12-hour mode in
the hours after midnight and after noon: the register then shows 12, which is
taken for noon without the PM bit and becomes `(12 + 12) % 24`, midnight, with it.

Results:
1. `readRtcTime_shows`: the time that is read, for every format and time of day.
2. `clockTick_clockOf`, `timerTick_iterate`: the carries of the clock and the
   thousandth tick, over any number of ticks.
3. `wallClock_right_iff`: when the clock is right; `noon_reads_midnight`.
-/

namespace KernelC.Time

/-! ## What the registers show -/

/-- The two format bits of register B. -/
structure Format where
  binary : Bool
  h24 : Bool

def Format.byte (f : Format) (v : Nat) : UInt8 :=
  if f.binary then UInt8.ofNat v else UInt8.ofNat (v / 10 * 16 + v % 10)

/-- In 12-hour mode the hours are 1 to 12, and bit 7 is PM. -/
def Format.hourByte (f : Format) (h : Nat) : UInt8 :=
  if f.h24 then f.byte h
  else f.byte (if h % 12 = 0 then 12 else h % 12) ||| if 12 ≤ h then 0x80 else 0

/-- The registers show the time of day `T`, in seconds, in the format `f`. -/
structure Cmos.Shows (c : Cmos) (f : Format) (T : Nat) : Prop where
  day : T < 86400
  second : c.regs 0x00 = f.byte (T % 60)
  minute : c.regs 0x02 = f.byte (T / 60 % 60)
  hour : c.regs 0x04 = f.hourByte (T / 3600)
  binary : c.regs 0x0B &&& 0x04 = 0 ↔ f.binary = false
  h24 : c.regs 0x0B &&& 0x02 = 0 ↔ f.h24 = false

/-- The clock that shows `t` seconds after midnight, of any day. -/
def clockOf (t : Nat) : ClockTime :=
  { hh := UInt8.ofNat (t / 3600 % 24), mm := UInt8.ofNat (t / 60 % 60), ss := UInt8.ofNat (t % 60) }

theorem clockOf_eq {t h m s : Nat} (hh : h = t / 3600 % 24) (hm : m = t / 60 % 60)
    (hs : s = t % 60) :
    { hh := UInt8.ofNat h, mm := UInt8.ofNat m, ss := UInt8.ofNat s : ClockTime } = clockOf t := by
  rw [hh, hm, hs, clockOf]

/-! ## Reading the registers -/

theorem rtcWaitReady_regs (c : Cmos) : (rtcWaitReady c).regs = c.regs := by
  fun_induction rtcWaitReady c with
  | case1 c _ => rfl
  | case2 c _ ih => exact ih

theorem bcdToBin_byte :
    ∀ v < 60, bcdToBin (UInt8.ofNat (v / 10 * 16 + v % 10)) = UInt8.ofNat v := by
  decide +kernel

/-- Whether `read_rtc_time` takes the wrong half of the day. -/
def Format.slips (f : Format) (h : Nat) : Prop := f.h24 = false ∧ h % 12 = 0

instance (f : Format) (h : Nat) : Decidable (f.slips h) := inferInstanceAs (Decidable (_ ∧ _))

/-- The hour before the time zone is added, from the register's byte and the two bits. -/
def rtcHour (f : Format) (reg : UInt8) : UInt8 :=
  let hh := if f.binary = false then bcdToBin (reg &&& 0x7F) else reg &&& 0x7F
  if f.h24 = false ∧ reg &&& 0x80 ≠ 0 then UInt8.ofNat ((hh.toNat + 12) % 24) else hh

theorem rtcHour_hourByte : ∀ b s : Bool, ∀ h < 24,
    let f : Format := ⟨b, s⟩
    rtcHour f (f.hourByte h) = UInt8.ofNat (if f.slips h then (h + 12) % 24 else h) := by
  decide +kernel

theorem readRtcTime_eq {c : Cmos} {f : Format} {T : Nat} (h : c.Shows f T) :
    readRtcTime c =
      { hh := UInt8.ofNat (((rtcHour f (c.regs 0x04)).toNat + timezoneOffset + 24) % 24),
        mm := UInt8.ofNat (T / 60 % 60), ss := UInt8.ofNat (T % 60) } := by
  have hs := bcdToBin_byte (T % 60) (by omega)
  have hm := bcdToBin_byte (T / 60 % 60) (by omega)
  unfold readRtcTime rtcHour
  simp only [cmosRead, rtcWaitReady_regs, h.binary, h.h24, h.second, h.minute, Format.byte]
  cases f.binary with
  | true => rfl
  | false => simp only [Bool.false_eq_true, if_false, if_true, hs, hm]

/-- In the slipping hours the time read is twelve hours off. -/
theorem readRtcTime_shows {c : Cmos} {f : Format} {T : Nat} (h : c.Shows f T) :
    readRtcTime c = clockOf (T + timezoneOffset * 3600 +
      if f.slips (T / 3600) then 12 * 3600 else 0) := by
  have hday := h.day
  have hour := rtcHour_hourByte f.binary f.h24 (T / 3600) (by omega)
  rw [readRtcTime_eq h, h.hour, hour]
  unfold timezoneOffset
  split
  · rw [UInt8.toNat_ofNat']
    exact clockOf_eq (by omega) (by omega) (by omega)
  · rw [UInt8.toNat_ofNat']
    exact clockOf_eq (by omega) (by omega) (by omega)

/-! ## Ticks -/

/-- The carry of one digit: a byte below its limit that is counted up. -/
theorem ofNat_add_one {v m : Nat} (hm : m < 256) (hv : v < m) :
    UInt8.ofNat v + 1 = UInt8.ofNat (v + 1) ∧
      (UInt8.ofNat m ≤ UInt8.ofNat (v + 1) ↔ v + 1 = m) := by
  refine ⟨by simp [UInt8.ofNat_add], ?_⟩
  rw [UInt8.le_iff_toNat_le, UInt8.toNat_ofNat', UInt8.toNat_ofNat']
  omega

theorem clockTick_clockOf (t : Nat) : clockTick (clockOf t) = clockOf (t + 1) := by
  obtain ⟨hs', hs⟩ := ofNat_add_one (v := t % 60) (m := 60) (by omega) (by omega)
  obtain ⟨hm', hm⟩ := ofNat_add_one (v := t / 60 % 60) (m := 60) (by omega) (by omega)
  obtain ⟨hh', hh⟩ := ofNat_add_one (v := t / 3600 % 24) (m := 24) (by omega) (by omega)
  simp only [UInt8.reduceOfNat] at hs hm hh
  simp only [clockTick, clockOf, hs', hm', hh', hs, hm, hh]
  -- a carry out of the hours, the minutes, the seconds, or none
  split
  · split
    · split
      · exact clockOf_eq (h := 0) (m := 0) (s := 0) (by omega) (by omega) (by omega)
      · exact clockOf_eq (m := 0) (s := 0) (by omega) (by omega) (by omega)
    · exact clockOf_eq (s := 0) (by omega) (by omega) (by omega)
  · exact clockOf_eq (by omega) (by omega) (by omega)

theorem clockTick_iterate (t n : Nat) : clockTick^[n] (clockOf t) = clockOf (t + n) := by
  induction n with
  | zero => rfl
  | succ n ih => rw [Function.iterate_succ_apply', ih, clockTick_clockOf, Nat.add_assoc]

/-- Every thousandth tick is a second, and the tick counter is back at 0. -/
theorem timerTick_iterate (t : Timer) (ht : t.tickTime.toNat < 1000) (n : Nat) :
    timerTick^[n] t =
      { tickTime := UInt16.ofNat ((t.tickTime.toNat + n) % 1000)
        seconds := t.seconds + UInt32.ofNat ((t.tickTime.toNat + n) / 1000)
        systemClock := clockTick^[(t.tickTime.toNat + n) / 1000] t.systemClock } := by
  induction n with
  | zero =>
    rw [Nat.add_zero, Nat.mod_eq_of_lt ht, Nat.div_eq_of_lt ht, UInt16.ofNat_toNat]
    simp
  | succ n ih =>
    rw [Function.iterate_succ_apply', ih, ← Nat.add_assoc]
    generalize t.tickTime.toNat + n = k
    have hadd : UInt16.ofNat (k % 1000) + 1 = UInt16.ofNat (k % 1000 + 1) := by
      simp [UInt16.ofNat_add]
    have hcarry : 1000 ≤ UInt16.ofNat (k % 1000) + 1 ↔ k % 1000 + 1 = 1000 := by
      rw [hadd, UInt16.le_iff_toNat_le, UInt16.toNat_ofNat']
      simp only [UInt16.reduceToNat]
      omega
    unfold timerTick
    by_cases hc : k % 1000 + 1 = 1000
    · have hsec : (k + 1) / 1000 = k / 1000 + 1 := by omega
      have hzero : (k + 1) % 1000 = 0 := by omega
      rw [if_pos (hcarry.mpr hc), hsec, hzero, Function.iterate_succ_apply', UInt32.ofNat_add,
        UInt32.add_assoc]
      rfl
    · have hsec : (k + 1) / 1000 = k / 1000 := by omega
      have hnext : (k + 1) % 1000 = k % 1000 + 1 := by omega
      rw [if_neg fun hle => hc (hcarry.mp hle), hsec, hnext, hadd]

/-! ## The clock after any number of ticks -/

theorem clock_after {c : Cmos} {f : Format} {T : Nat} (h : c.Shows f T) {t : Timer}
    (h0 : t.tickTime = 0) (n : Nat) :
    (timerTick^[n] (initSystemClock c t)).systemClock =
      clockOf (T + timezoneOffset * 3600 + (if f.slips (T / 3600) then 12 * 3600 else 0) +
        n / 1000) := by
  have hzero : (initSystemClock c t).tickTime.toNat = 0 := by
    rw [initSystemClock, h0]
    rfl
  rw [timerTick_iterate (initSystemClock c t) (by omega) n, hzero, Nat.zero_add, initSystemClock,
    readRtcTime_shows h, clockTick_iterate]

/-- Twelve hours later the clock shows something else. -/
theorem clockOf_half_day (t : Nat) : clockOf (t + 12 * 3600) ≠ clockOf t := by
  intro h
  have hh := congrArg (fun k => k.hh.toNat) h
  simp only [clockOf, UInt8.toNat_ofNat'] at hh
  omega

/-- The clock is right after any number of ticks exactly when the RTC is in
24-hour mode or the hour is neither the one after midnight nor the one after noon. -/
theorem wallClock_right_iff {c : Cmos} {f : Format} {T : Nat} (h : c.Shows f T) {t : Timer}
    (h0 : t.tickTime = 0) (n : Nat) :
    (timerTick^[n] (initSystemClock c t)).systemClock =
        clockOf (T + timezoneOffset * 3600 + n / 1000) ↔
      f.h24 = true ∨ T / 3600 % 12 ≠ 0 := by
  rw [clock_after h h0]
  by_cases hs : f.slips (T / 3600)
  · rw [if_pos hs, Nat.add_right_comm]
    refine iff_of_false (clockOf_half_day _) ?_
    simp [hs.1, hs.2]
  · rw [if_neg hs, Nat.add_zero]
    refine iff_of_true rfl ?_
    cases hf : f.h24 with
    | true => exact .inl rfl
    | false => exact .inr fun hz => hs ⟨hf, hz⟩

/-- Noon as an RTC in 12-hour BCD mode shows it. -/
def noonCmos : Cmos :=
  { regs := fun r => if r = 0x04 then 0x92 else 0, updating := 2 }

theorem noonCmos_shows : noonCmos.Shows ⟨false, false⟩ (12 * 3600) where
  day := by decide
  second := rfl
  minute := rfl
  hour := rfl
  binary := by decide
  h24 := by decide

def bootTimer : Timer := { tickTime := 0, seconds := 0, systemClock := ⟨0, 0, 0⟩ }

/-- At half past one in the morning, the clock is right after 5000 ticks. -/
theorem wallClock_right_half_past_one :
    (timerTick^[5000] (initSystemClock
        { regs := fun r => if r = 0x04 then 0x01 else if r = 0x02 then 0x30 else 0, updating := 0 }
        bootTimer)).systemClock = clockOf (5400 + timezoneOffset * 3600 + 5) :=
  (wallClock_right_iff (f := ⟨false, false⟩) (T := 5400)
    ⟨by decide, rfl, rfl, rfl, by decide, by decide⟩ rfl 5000).mpr (.inr (by decide))

/-- Noon is read as midnight: the clock shows seven in the morning, not in the evening. -/
theorem noon_reads_midnight :
    noonCmos.Shows ⟨false, false⟩ (12 * 3600) ∧ bootTimer.tickTime = 0 ∧
      (timerTick^[0] (initSystemClock noonCmos bootTimer)).systemClock = ⟨7, 0, 0⟩ ∧
      (timerTick^[0] (initSystemClock noonCmos bootTimer)).systemClock ≠
        clockOf (12 * 3600 + timezoneOffset * 3600 + 0 / 1000) := by
  have h := clock_after noonCmos_shows (t := bootTimer) rfl 0
  refine ⟨noonCmos_shows, rfl, ?_, ?_⟩
  · rw [h]
    decide
  · rw [h]
    decide

end KernelC.Time
