import DocWalk.Date.Instant
import DocWalk.Proofs.Date.Calendar

/-!
# Instants on the calendar and the clock

The range of the calendar in days, and what it means for an instant that is counted in milliseconds
from the epoch. A date-time can hold more instants than a clock can tell apart: behind the last second
of a minute a clock shows second 60 in a leap second, which no other instant has, but nanoseconds that
go on beyond any other second are shown as the second behind it (`settled`).

**The laws**: an instant is made again of what calendar and clock show of it, and if a part of its
nanoseconds is not shown, it is made again without that part (`toInstant_truncated`); and what is shown
of any instant is shown of the settled one (`toCivil_settled`).
-/

set_option autoImplicit false

namespace DocWalk

namespace Calendar

theorem isDay_iff {day : Int} : isDay day = true ↔ -96465292 ≤ day ∧ day < 95026237 := by
  have hfirst : daysToYear firstYear = -96465292 := by decide
  have hlast : daysToYear (lastYear + 1) = 95026237 := by decide
  rw [isDay, hfirst, hlast, Bool.and_eq_true, decide_eq_true_eq, decide_eq_true_eq]

end Calendar

namespace Instant

/-- The instant lies so many milliseconds from the epoch, and in no leap second. -/
structure AtMillis (instant : Instant) (millis : Int) : Prop where
  exact : instant.seconds * 1000000000 + instant.nanos = millis * 1000000
  nanos_lt : instant.nanos < 1000000000

/-- Milliseconds from the epoch to the calendar's first instant. -/
def leastMillis : Int := -8334601228800000

/-- Milliseconds from the epoch to the calendar's last millisecond. -/
def greatestMillis : Int := 8210266876799999

/-- The milliseconds lie in the calendar's range. -/
def MillisInRange (millis : Int) : Prop :=
  leastMillis ≤ millis ∧ millis ≤ greatestMillis

theorem isRepresentable_iff {instant : Instant} :
    instant.isRepresentable = true ↔
      -96465292 ≤ instant.seconds / 86400 ∧ instant.seconds / 86400 < 95026237 := by
  rw [isRepresentable, Calendar.isDay_iff]
  rfl

theorem isRepresentable_ofMillis {millis : Int} {nanos : Nat} :
    (⟨millis / 1000, nanos⟩ : Instant).isRepresentable = true ↔ MillisInRange millis := by
  rw [isRepresentable_iff, MillisInRange, leastMillis, greatestMillis]
  dsimp only
  omega

/-- Milliseconds in the calendar's range make the instant that lies so far from the epoch. -/
theorem ofMillis?_eq_some_iff {millis : Int} {instant : Instant} :
    ofMillis? millis = some instant ↔ MillisInRange millis ∧ instant.AtMillis millis := by
  rw [ofMillis?, check]
  constructor
  · intro h
    split at h <;> cases h
    next hrepresentable =>
      refine ⟨isRepresentable_ofMillis.mp hrepresentable, ?_, ?_⟩
      · dsimp only
        omega
      · dsimp only
        omega
  · rintro ⟨hmillis, hexact, hlt⟩
    rw [if_pos (isRepresentable_ofMillis.mpr hmillis), Option.some.injEq]
    obtain ⟨seconds, nanos⟩ := instant
    dsimp only at hexact hlt
    have hseconds : millis / 1000 = seconds := by omega
    have hnanos : (millis % 1000).toNat * 1000000 = nanos := by omega
    rw [hseconds, hnanos]

theorem exists_ofMillis? {millis : Int} (h : MillisInRange millis) :
    ∃ instant, ofMillis? millis = some instant := by
  refine ⟨⟨millis / 1000, (millis % 1000).toNat * 1000000⟩, ofMillis?_eq_some_iff.mpr ⟨h, ?_, ?_⟩⟩
  · dsimp only
    omega
  · dsimp only
    omega

/-! ## What calendar and clock show -/

/-- A clock in UTC shows the instant: it lies on a day of the calendar, and goes on beyond a second
only behind the last one of a minute, where a leap second stands. -/
structure IsShown (instant : Instant) : Prop where
  isRepresentable : instant.isRepresentable = true
  nanos_lt : instant.nanos < 1000000000 ∨
    instant.nanos < 2000000000 ∧ instant.seconds % 60 = 59

/-- A date-time holds the instant: it lies on a day of the calendar, and its nanoseconds do not make
two seconds. A leap second may stand behind any second. -/
structure IsHeld (instant : Instant) : Prop where
  isRepresentable : instant.isRepresentable = true
  nanos_lt : instant.nanos < 2000000000

/-- The instant as a clock shows it: what goes beyond a second that is not the last one of its minute
lies in the next second. -/
def settled (instant : Instant) : Instant :=
  if instant.nanos < nanosPerSecond ∨ instant.seconds % 60 = 59 then instant
  else ⟨instant.seconds + 1, instant.nanos - nanosPerSecond⟩

/-- The instant without the nanoseconds that make no whole unit. -/
def truncated (unit : Nat) (instant : Instant) : Instant :=
  { instant with nanos := instant.nanos / unit * unit }

end Instant

namespace CivilTime

/-- The date exists, and the clock has these times of the day. -/
structure IsShown (time : CivilTime) : Prop where
  isDate : Calendar.isDate time.date = true
  hour_lt : time.hour < 24
  minute_lt : time.minute < 60
  second_le : time.second ≤ 60
  nanos_lt : time.nanos < 1000000000

/-- The time without the nanoseconds that make no whole unit. -/
def truncated (unit : Nat) (time : CivilTime) : CivilTime :=
  { time with nanos := time.nanos / unit * unit }

end CivilTime

namespace Instant

variable {instant : Instant}

theorem IsShown.toCivil (h : instant.IsShown) : instant.toCivil.IsShown := by
  obtain ⟨hrepresentable, hnanos⟩ := h
  refine ⟨Calendar.isDate_dateOfDay hrepresentable, ?_, ?_, ?_, ?_⟩
  all_goals
    unfold Instant.toCivil nanosPerSecond secondsPerDay
    dsimp only
    omega

/-! ## Leap seconds off the minute -/

/-- A clock shows the settled instant. -/
theorem IsHeld.settled (h : instant.IsHeld) : instant.settled.IsShown := by
  obtain ⟨hrepresentable, hlt⟩ := h
  unfold Instant.settled nanosPerSecond
  split
  next hshown => exact ⟨hrepresentable, hshown.imp_right fun hlast => ⟨hlt, hlast⟩⟩
  next hbeyond =>
    rw [isRepresentable_iff] at hrepresentable
    refine ⟨isRepresentable_iff.mpr ?_, .inl ?_⟩
    · dsimp only
      omega
    · dsimp only
      omega

/-- An instant is settled where a clock shows it. -/
theorem IsHeld.settled_eq_iff (h : instant.IsHeld) : instant.settled = instant ↔ instant.IsShown := by
  constructor
  · intro heq
    rw [← heq]
    exact h.settled
  · intro hshown
    exact if_pos (hshown.nanos_lt.imp_right And.right)

/-- The settled instant is in a leap second where the instant is in one behind the last second of a
minute. -/
theorem IsHeld.le_nanos_settled_iff (h : instant.IsHeld) :
    nanosPerSecond ≤ instant.settled.nanos ↔
      nanosPerSecond ≤ instant.nanos ∧ instant.seconds % 60 = 59 := by
  have hlt := h.nanos_lt
  unfold Instant.settled nanosPerSecond
  split
  · omega
  · dsimp only
    omega

/-- Calendar and clock show the settled instant as they show the instant. -/
theorem IsHeld.toCivil_settled (h : instant.IsHeld) : instant.settled.toCivil = instant.toCivil := by
  have hlt := h.nanos_lt
  unfold Instant.settled
  split
  next => rfl
  next hbeyond =>
    unfold nanosPerSecond at hbeyond
    have hday : (instant.seconds + 1) / (86400 : Nat) = instant.seconds / (86400 : Nat) := by omega
    unfold toCivil secondsPerDay nanosPerSecond
    dsimp only
    rw [CivilTime.mk.injEq]
    refine ⟨congrArg _ hday, ?_, ?_, ?_, ?_⟩
    all_goals omega

/-! ## An instant made again -/

/-- Of a whole number of units nothing is cut off. -/
theorem div_mul_add {unit whole : Nat} (h : unit ∣ whole) (rest times : Nat) :
    (rest + whole * times) / unit * unit = rest / unit * unit + whole * times := by
  obtain ⟨k, rfl⟩ := h
  rcases Nat.eq_zero_or_pos unit with rfl | hpos
  · simp
  · rw [Nat.mul_assoc, Nat.add_mul_div_left _ _ hpos, Nat.add_mul, Nat.mul_comm unit]

/-- The clock shows second 60 in a leap second, and only there. -/
theorem second_toCivil_eq_iff (h : instant.IsShown) :
    instant.toCivil.second = 60 ↔ nanosPerSecond ≤ instant.nanos := by
  have hnanos := h.nanos_lt
  unfold toCivil nanosPerSecond secondsPerDay
  dsimp only
  omega

/-- The second of an instant is found again. -/
theorem seconds_toInstant_toCivil (h : instant.IsShown) :
    instant.toCivil.toInstant.seconds = instant.seconds := by
  have hnanos := h.nanos_lt
  unfold CivilTime.toInstant toCivil
  dsimp only
  rw [Calendar.dayOfDate_dateOfDay]
  unfold nanosPerSecond secondsPerDay
  omega

/-- **An instant is made again** of what calendar and clock show, to the unit that is shown. -/
theorem toInstant_truncated (h : instant.IsShown) {unit : Nat} (hunit : unit ∣ nanosPerSecond) :
    (instant.toCivil.truncated unit).toInstant = instant.truncated unit := by
  have hnanos : instant.nanos % nanosPerSecond / unit * unit +
      (if instant.toCivil.second = 60 then nanosPerSecond else 0) =
        instant.nanos / unit * unit := by
    have hsplit := div_mul_add hunit (instant.nanos % nanosPerSecond)
      (instant.nanos / nanosPerSecond)
    rw [Nat.mod_add_div] at hsplit
    have hwhole : nanosPerSecond * (instant.nanos / nanosPerSecond) =
        if instant.toCivil.second = 60 then nanosPerSecond else 0 := by
      have hlt := h.nanos_lt
      simp only [second_toCivil_eq_iff h]
      unfold nanosPerSecond
      split <;> omega
    rw [hsplit, hwhole]
  have hseconds := seconds_toInstant_toCivil h
  show (⟨instant.toCivil.toInstant.seconds, _⟩ : Instant) = ⟨instant.seconds, _⟩
  rw [hseconds]
  exact congrArg _ hnanos

/-- To cut off a part of the nanoseconds leaves a leap second one. -/
theorem le_nanos_truncated_iff {unit : Nat} (hunit : unit ∣ nanosPerSecond) (instant : Instant) :
    nanosPerSecond ≤ (instant.truncated unit).nanos ↔ nanosPerSecond ≤ instant.nanos := by
  obtain ⟨k, hk⟩ := hunit
  have hpos : 0 < unit := by
    rw [Nat.pos_iff_ne_zero]
    rintro rfl
    rw [Nat.zero_mul] at hk
    cases hk
  show nanosPerSecond ≤ instant.nanos / unit * unit ↔ _
  rw [hk, Nat.mul_comm unit k, Nat.mul_le_mul_right_iff hpos, Nat.le_div_iff_mul_le hpos]

/-- To cut off a part of the nanoseconds changes nothing else that is shown. -/
theorem toCivil_truncated {unit : Nat} (hunit : unit ∣ nanosPerSecond) (instant : Instant) :
    (instant.truncated unit).toCivil = instant.toCivil.truncated unit := by
  have hsplit := div_mul_add hunit (instant.nanos % nanosPerSecond) (instant.nanos / nanosPerSecond)
  rw [Nat.mod_add_div] at hsplit
  have hpos : 0 < nanosPerSecond := by decide
  have hlt : instant.nanos % nanosPerSecond / unit * unit < nanosPerSecond :=
    Nat.lt_of_le_of_lt (Nat.div_mul_le_self _ unit) (Nat.mod_lt _ hpos)
  have hdiv : instant.nanos / unit * unit / nanosPerSecond = instant.nanos / nanosPerSecond := by
    rw [hsplit, Nat.add_mul_div_left _ _ hpos, Nat.div_eq_of_lt hlt, Nat.zero_add]
  have hmod : instant.nanos / unit * unit % nanosPerSecond =
      instant.nanos % nanosPerSecond / unit * unit := by
    rw [hsplit, Nat.add_mul_mod_self_left, Nat.mod_eq_of_lt hlt]
  unfold toCivil truncated CivilTime.truncated
  dsimp only
  rw [hdiv, hmod]

end Instant

end DocWalk
