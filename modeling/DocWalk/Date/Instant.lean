import DocWalk.Date.Calendar

/-!
# Instants and civil times

An instant is a count of seconds since 1970-01-01T00:00:00Z and of nanoseconds in the second. Inside
a leap second the count stays at the second before it and the nanoseconds go on beyond one thousand
million. A civil time is the date and the time of day that a calendar and a clock in UTC show; its
second is 60 inside a leap second.
-/

set_option autoImplicit false

namespace DocWalk

/-- A moment in UTC. -/
structure Instant where
  /-- Whole seconds since 1970-01-01T00:00:00Z, rounded down. -/
  seconds : Int
  /-- Nanoseconds in the second; one thousand million and more inside a leap second. -/
  nanos : Nat
  deriving DecidableEq, Repr, Inhabited

/-- What calendar and clock show. -/
structure CivilTime where
  date : CalendarDate := ⟨1970, 1, 1⟩
  hour : Nat := 0
  minute : Nat := 0
  /-- Up to 60, which a leap second shows. -/
  second : Nat := 0
  /-- Less than one thousand million. -/
  nanos : Nat := 0
  deriving DecidableEq, Repr, Inhabited

namespace Instant

/-- Nanoseconds in a second. -/
def nanosPerSecond : Nat := 1000000000

/-- Seconds in a day. -/
def secondsPerDay : Nat := 86400

/-- Whether the instant lies on a day of the calendar's range. -/
def isRepresentable (instant : Instant) : Bool :=
  Calendar.isDay (instant.seconds / secondsPerDay)

/-- The instant, if it is representable. -/
def check (instant : Instant) : Option Instant :=
  if instant.isRepresentable then some instant else none

/-- The instant so many milliseconds from the epoch, if it is representable. -/
def ofMillis? (millis : Int) : Option Instant :=
  check ⟨millis / 1000, (millis % 1000).toNat * 1000000⟩

/-- What calendar and clock show at an instant. -/
def toCivil (instant : Instant) : CivilTime :=
  let day := instant.seconds / secondsPerDay
  let ofDay := (instant.seconds % secondsPerDay).toNat
  { date := Calendar.dateOfDay day
    hour := ofDay / 3600
    minute := ofDay / 60 % 60
    second := ofDay % 60 + instant.nanos / nanosPerSecond
    nanos := instant.nanos % nanosPerSecond }

end Instant

namespace CivilTime

/-- The instant at which a clock shows this time, for a date that exists. -/
def toInstant (time : CivilTime) : Instant :=
  let ofDay := time.hour * 3600 + time.minute * 60 + min time.second 59
  ⟨Calendar.dayOfDate time.date * Instant.secondsPerDay + ofDay,
    time.nanos + if time.second = 60 then Instant.nanosPerSecond else 0⟩

/-- The day of the week. -/
def weekday (time : CivilTime) : Nat :=
  Calendar.weekdayOfDay (Calendar.dayOfDate time.date)

end CivilTime

end DocWalk
