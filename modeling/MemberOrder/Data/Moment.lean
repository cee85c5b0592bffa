/-
  Dates, and dates with a time of day. A moment with a zone is an instant, and two of them are
  the same when their instants are; a moment without one stands for itself.
-/
import MemberOrder.Text.Quoted

namespace MemberOrder

/-- What keeps numbers from being a moment. -/
inductive MomentProblem where
  | year (n : Nat)
  | month
  | day
  | hour
  | minute
  | second
  /-- An offset of a day or more, in minutes. -/
  | offset (minutes : Int)
  /-- The second after the last one of the calendar. -/
  | overflow
  deriving Repr, DecidableEq

/-- A span of minutes as days and the seconds left over. -/
def shownMinutes (minutes : Int) : String :=
  let days := minutes / 1440
  let seconds := minutes % 1440 * 60
  let parts := (if days == 0 then [] else ["days=" ++ toString days])
    ++ (if seconds == 0 then [] else ["seconds=" ++ toString seconds])
  "datetime.timedelta(" ++ (if parts.isEmpty then "0" else Text.joinStrings ", " parts) ++ ")"

/-- How a problem is worded. -/
def MomentProblem.message : MomentProblem → String
  | .year n => "year " ++ toString n ++ " is out of range"
  | .month => "month must be in 1..12"
  | .day => "day is out of range for month"
  | .hour => "hour must be in 0..23"
  | .minute => "minute must be in 0..59"
  | .second => "second must be in 0..59"
  | .offset minutes =>
    "offset must be a timedelta strictly between -timedelta(hours=24) and timedelta(hours=24), not "
      ++ shownMinutes minutes ++ "."
  | .overflow => "date value out of range"

/-- A time of day. -/
structure Clock where
  hour : Nat
  minute : Nat
  second : Nat
  micro : Nat
  deriving Repr, DecidableEq, Inhabited

/-- An offset from the zero meridian, and how it is written. -/
structure Zone where
  minutes : Int
  name : String
  deriving Repr, DecidableEq, Inhabited

/-- A date, or a date with a time of day. -/
structure Moment where
  year : Nat
  month : Nat
  day : Nat
  clock : Option Clock := none
  zone : Option Zone := none
  /-- Whether a letter stands between date and time. -/
  lettered : Bool := false
  /-- Whether the writing is kept: the letter, and the zone as it is named. -/
  stamped : Bool := false
  deriving Repr, DecidableEq, Inhabited

namespace Moment

/-- Whether a year has a leap day. -/
def isLeap (year : Nat) : Bool := year % 4 == 0 && (year % 100 != 0 || year % 400 == 0)

/-- The number of days of a month. -/
def daysOf (year month : Nat) : Nat :=
  if month == 2 then if isLeap year then 29 else 28
  else if [4, 6, 9, 11].contains month then 30
  else 31

/-- Checks the parts of a moment, the zone first. -/
def check (m : Moment) : Except MomentProblem Moment := do
  match m.zone with
  | some z => if 1440 ≤ z.minutes.natAbs then throw (.offset z.minutes)
  | none => pure ()
  if m.year == 0 then throw (.year 0)
  if m.month == 0 || 12 < m.month then throw .month
  if m.day == 0 || daysOf m.year m.month < m.day then throw .day
  match m.clock with
  | none => return m
  | some c =>
    if 23 < c.hour then throw .hour
    if 59 < c.minute then throw .minute
    if 59 < c.second then throw .second
    return m

/-- The day after. -/
def nextDay (m : Moment) : Except MomentProblem Moment :=
  if m.day < daysOf m.year m.month then .ok { m with day := m.day + 1 }
  else if m.month < 12 then .ok { m with month := m.month + 1, day := 1 }
  else if m.year < 9999 then .ok { m with year := m.year + 1, month := 1, day := 1 }
  else .error .overflow

/-- The second after. -/
def nextSecond (m : Moment) : Except MomentProblem Moment :=
  match m.clock with
  | none => .ok m
  | some c =>
    let total := c.hour * 3600 + c.minute * 60 + c.second + 1
    let clock : Clock := ⟨total / 3600 % 24, total / 60 % 60, total % 60, c.micro⟩
    let m := { m with clock := some clock }
    if total == 86400 then m.nextDay else .ok m

/-- The number of days before a date, from the first day of the first year on. -/
def dayNumber (m : Moment) : Nat :=
  let y := m.year - 1
  let before := (List.range (m.month - 1)).foldl (fun days i => days + daysOf m.year (i + 1)) 0
  365 * y + y / 4 - y / 100 + y / 400 + before + m.day

/-- The microseconds that a moment stands for, its zone taken into account. -/
def instant (m : Moment) : Int :=
  let c := m.clock.getD ⟨0, 0, 0, 0⟩
  let seconds := m.dayNumber * 86400 + c.hour * 3600 + c.minute * 60 + c.second
  ((seconds : Int) - (m.zone.map (·.minutes)).getD 0 * 60) * 1000000 + c.micro

/-- Whether two moments are the same. A date is no moment of its day, and a moment without a
zone is no instant. -/
def same (a b : Moment) : Bool :=
  a.clock.isSome == b.clock.isSome && a.zone.isSome == b.zone.isSome && a.instant == b.instant

/-- A number with zeros in front. -/
def padded (width n : Nat) : String :=
  let ds := Nat.toDigits 10 n
  String.ofList (List.replicate (width - ds.length) '0' ++ ds)

/-- Date and time in the international order, without the zone. -/
def localText (m : Moment) : String :=
  let date := padded 4 m.year ++ "-" ++ padded 2 m.month ++ "-" ++ padded 2 m.day
  match m.clock with
  | none => date
  | some c =>
    date ++ (if m.lettered then "T" else " ") ++ padded 2 c.hour ++ ":" ++ padded 2 c.minute ++ ":"
      ++ padded 2 c.second ++ (if c.micro == 0 then "" else "." ++ padded 6 c.micro)

/-- The offset of a zone in hours and minutes. -/
def offsetText (z : Zone) : String :=
  let n := z.minutes.natAbs
  (if z.minutes < 0 then "-" else "+") ++ padded 2 (n / 60) ++ ":" ++ padded 2 (n % 60)

/-- The text of a moment, with the offset of its zone. -/
def text (m : Moment) : String := m.localText ++ (m.zone.map offsetText).getD ""

/-- A moment as it is written: with its zone by name where its writing is kept. -/
def written (m : Moment) : String :=
  if m.stamped then m.localText ++ (m.zone.map (·.name)).getD "" else m.text

/-- The kind of a moment as diagnostics name it. -/
def typeName (m : Moment) : String :=
  if m.clock.isNone then "datetime.date"
  else if m.stamped then "TimeStamp"
  else "datetime.datetime"

/-- A moment as part of a collection that diagnostics show. -/
def shown (m : Moment) : String :=
  let clock := match m.clock with
    | none => []
    | some c =>
      [c.hour, c.minute] ++ (if c.second == 0 && c.micro == 0 then [] else [c.second])
        ++ (if c.micro == 0 then [] else [c.micro])
  let zone := match m.zone with
    | none => []
    | some z =>
      ["tzinfo=datetime.timezone(" ++ shownMinutes z.minutes ++ ", " ++ Text.quoted z.name ++ ")"]
  m.typeName ++ "(" ++ Text.joinStrings ", " (([m.year, m.month, m.day] ++ clock).map toString ++ zone)
    ++ ")"

end Moment

end MemberOrder
