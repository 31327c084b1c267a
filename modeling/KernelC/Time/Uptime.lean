import KernelC.Lib.Decimal
import KernelC.Time.WallClock

/-!
# The clock and the uptime

The clock and the uptime are counted up by the same tick, each with its own carries. A
valid clock is `clockOf` of its seconds, so that the carries of the clock are those of
`clockTick_iterate`; both texts are `timeText`, which `decodeTime` reads back.

Result: `clock_and_uptime`.
-/

namespace KernelC.Time

/-! ## Valid clocks -/

structure ClockTime.Valid (k : ClockTime) : Prop where
  hh : k.hh.toNat < 24
  mm : k.mm.toNat < 60
  ss : k.ss.toNat < 60

/-- The time of day in seconds. -/
def ClockTime.seconds (k : ClockTime) : Nat := k.hh.toNat * 3600 + k.mm.toNat * 60 + k.ss.toNat

theorem clockOf_valid (t : Nat) : (clockOf t).Valid := by
  constructor
  · simp only [clockOf, UInt8.toNat_ofNat']
    omega
  · simp only [clockOf, UInt8.toNat_ofNat']
    omega
  · simp only [clockOf, UInt8.toNat_ofNat']
    omega

theorem seconds_clockOf (t : Nat) : (clockOf t).seconds = t % 86400 := by
  simp only [ClockTime.seconds, clockOf, UInt8.toNat_ofNat']
  omega

theorem clockOf_seconds {k : ClockTime} (h : k.Valid) : clockOf k.seconds = k := by
  have hhh := h.hh
  have hmm := h.mm
  have hss := h.ss
  have hclock := clockOf_eq (t := k.seconds) (h := k.hh.toNat) (m := k.mm.toNat) (s := k.ss.toNat)
    (by unfold ClockTime.seconds; omega) (by unfold ClockTime.seconds; omega)
    (by unfold ClockTime.seconds; omega)
  rw [← hclock, UInt8.ofNat_toNat, UInt8.ofNat_toNat, UInt8.ofNat_toNat]

/-! ## The texts -/

/-- What a text `"hh:mm:ss"` with its terminator says. -/
def decodeTime : List UInt8 → Option (Nat × Nat × Nat)
  | [h1, h0, c, m1, m0, c', s1, s0, z] =>
    if c = 0x3A ∧ c' = 0x3A ∧ z = 0 then do
      let h ← decimalValue [h1, h0]
      let m ← decimalValue [m1, m0]
      let s ← decimalValue [s1, s0]
      pure (h, m, s)
    else none
  | _ => none

def timeText (h m s : Nat) : List UInt8 :=
  [digitChar (h / 10), digitChar (h % 10), 0x3A, digitChar (m / 10), digitChar (m % 10), 0x3A,
    digitChar (s / 10), digitChar (s % 10), 0]

theorem decodeTime_timeText {h m s : Nat} (hh : h < 100) (hm : m < 100) (hs : s < 100) :
    decodeTime (timeText h m s) = some (h, m, s) := by
  have hfield : ∀ v < 100, decimalValue [digitChar (v / 10), digitChar (v % 10)] = some v := by
    intro v hv
    rw [decimalValue_pair (by omega) (by omega)]
    congr 1
    omega
  unfold decodeTime timeText
  dsimp only
  rw [if_pos ⟨rfl, rfl, rfl⟩, hfield h hh, hfield m hm, hfield s hs]
  rfl

/-- A digit computed in bytes. -/
theorem add_eq_digitChar (d : UInt8) : 0x30 + d = digitChar d.toNat := by
  apply UInt8.toNat_inj.mp
  unfold digitChar
  rw [UInt8.toNat_add, UInt8.toNat_ofNat']
  rfl

theorem formatClock_eq (k : ClockTime) :
    formatClock k = timeText k.hh.toNat k.mm.toNat k.ss.toNat := by
  unfold formatClock timeText
  simp only [add_eq_digitChar, UInt8.toNat_div, UInt8.toNat_mod]
  rfl

/-- A digit computed in words. -/
theorem toUInt8_eq_digitChar (d : UInt32) : (0x30 + d).toUInt8 = digitChar d.toNat := by
  apply UInt8.toNat_inj.mp
  unfold digitChar
  rw [UInt32.toNat_toUInt8, UInt32.toNat_add, UInt8.toNat_ofNat', Nat.mod_mod_of_dvd _ (by decide)]
  rfl

theorem formatUp_eq (u : UInt32) :
    formatUp u = timeText (u.toNat / 3600 % 100) (u.toNat % 3600 / 60) (u.toNat % 60) := by
  have hhigh : u.toNat / 3600 / 10 % 10 = u.toNat / 3600 % 100 / 10 := by omega
  have hlow : u.toNat / 3600 % 10 = u.toNat / 3600 % 100 % 10 := by omega
  unfold formatUp timeText
  simp only [toUInt8_eq_digitChar, UInt32.toNat_div, UInt32.toNat_mod, ← hhigh, ← hlow]
  rfl

/-! ## Together -/

/-- From a valid clock, any uptime and any tick count below 1000, after `n` ticks: the
clock is valid and has gone on by the whole seconds, so has the uptime, and what is left
is in the tick count. The two texts say so. -/
theorem clock_and_uptime (t : Timer) (hclock : t.systemClock.Valid)
    (htick : t.tickTime.toNat < 1000) (n : Nat) :
    let q := (t.tickTime.toNat + n) / 1000
    let t' := timerTick^[n] t
    let k := t'.systemClock
    let u := t'.seconds.toNat
    k.Valid ∧ k.seconds = (t.systemClock.seconds + q) % 86400 ∧
      u = (t.seconds.toNat + q) % 2 ^ 32 ∧
      t'.tickTime.toNat = (t.tickTime.toNat + n) % 1000 ∧
      decodeTime (formatClock k) = some (k.hh.toNat, k.mm.toNat, k.ss.toNat) ∧
      decodeTime (formatUp t'.seconds) = some (u / 3600 % 100, u % 3600 / 60, u % 60) := by
  intro q t' k u
  have hrun := timerTick_iterate t htick n
  have hk : k = clockOf (t.systemClock.seconds + q) := by
    show (timerTick^[n] t).systemClock = _
    rw [hrun, ← clockTick_iterate, clockOf_seconds hclock]
  have hvalid : k.Valid := hk ▸ clockOf_valid _
  have hhh := hvalid.hh
  have hmm := hvalid.mm
  have hss := hvalid.ss
  refine ⟨hvalid, ?_, ?_, ?_, ?_, ?_⟩
  · rw [hk, seconds_clockOf]
  · show (timerTick^[n] t).seconds.toNat = _
    rw [hrun, UInt32.toNat_add, UInt32.toNat_ofNat', Nat.add_mod_mod]
  · show (timerTick^[n] t).tickTime.toNat = _
    rw [hrun, UInt16.toNat_ofNat']
    omega
  · rw [formatClock_eq]
    exact decodeTime_timeText (by omega) (by omega) (by omega)
  · rw [formatUp_eq]
    exact decodeTime_timeText (by omega) (by omega) (by omega)

/-- The last millisecond of a day, and of the uptime. -/
theorem clock_and_uptime_midnight :
    let t : Timer := { tickTime := 999, seconds := 0xFFFFFFFF, systemClock := ⟨23, 59, 59⟩ }
    (timerTick^[1] t).systemClock.seconds = 0 ∧ (timerTick^[1] t).seconds.toNat = 0 ∧
      (timerTick^[1] t).tickTime.toNat = 0 := by
  intro t
  obtain ⟨-, hclock, hup, htick, -⟩ := clock_and_uptime t ⟨by decide, by decide, by decide⟩
    (by decide) 1
  exact ⟨hclock.trans (by decide), hup.trans (by decide), htick.trans (by decide)⟩

end KernelC.Time
