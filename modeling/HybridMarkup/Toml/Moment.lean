/-
Dates and times of the settings language: a day, a time of day, or both, and then also how far the
clock is ahead of universal time.

What is read is a real day of the Gregorian calendar and a real time of day, the leap second
included. Each moment has one written form, `Moment.text`, whatever it was written like.
-/
import HybridMarkup.Toml.Basic

set_option autoImplicit false

namespace HybridMarkup.Toml

/-- A day. -/
structure Date where
  year : Nat
  month : Nat
  day : Nat
deriving DecidableEq, Repr

/-- A time of day. Seconds may be left out, and only seconds have a fraction, whose digits it
keeps. -/
structure Clock where
  hour : Nat
  minute : Nat
  second : Option Nat
  fraction : Option Text
deriving DecidableEq, Repr

/-- How a clock stands to universal time. -/
inductive Offset where
  | universal
  /-- So many minutes ahead. -/
  | ahead (minutes : Int)
deriving DecidableEq, Repr

/-- A point on the calendar, on the clock, or on both. -/
inductive Moment where
  | day (date : Date)
  | time (clock : Clock)
  | dateTime (date : Date) (clock : Clock) (offset : Option Offset)
deriving DecidableEq, Repr

/-! ## Reading -/

/-- The number written with the given count of decimal digits. -/
def decimal? : Nat → Nat → Reader Nat
  | 0, value, t => some (value, t)
  | _ + 1, _, [] => none
  | count + 1, value, c :: t =>
    if c.isDigit then decimal? count (10 * value + (c.toNat - '0'.toNat)) t else none

/-- What follows a given character. -/
def after? (c : Char) : Text → Option Text
  | [] => none
  | d :: t => if c = d then some t else none

/-- The number of days in a month. -/
def daysIn (year month : Nat) : Nat :=
  if month = 2 then
    if year % 4 = 0 ∧ (year % 100 ≠ 0 ∨ year % 400 = 0) then 29 else 28
  else if month = 4 ∨ month = 6 ∨ month = 9 ∨ month = 11 then 30
  else 31

/-- A day, such as `1979-05-27`. -/
def date? (t : Text) : Option (Date × Text) := do
  let (year, t) ← decimal? 4 0 t
  let (month, t) ← decimal? 2 0 (← after? '-' t)
  let (day, t) ← decimal? 2 0 (← after? '-' t)
  if 1 ≤ month ∧ month ≤ 12 ∧ 1 ≤ day ∧ day ≤ daysIn year month then
    return ({ year, month, day }, t)
  else none

/-- The seconds of a time of day and the digits of their fraction. -/
def seconds? (t : Text) : Option ((Nat × Option Text) × Text) := do
  let (second, t) ← decimal? 2 0 t
  match t with
  | '.' :: t =>
    let digits := t.takeWhile Char.isDigit
    if digits = [] then none else return ((second, some digits), t.dropWhile Char.isDigit)
  | t => return ((second, none), t)

/-- A time of day, such as `07:32` or `07:32:00.5`. -/
def clock? (t : Text) : Option (Clock × Text) := do
  let (hour, t) ← decimal? 2 0 t
  let (minute, t) ← decimal? 2 0 (← after? ':' t)
  if 23 < hour ∨ 59 < minute then none
  else
    match t with
    | ':' :: t =>
      let ((second, fraction), t) ← seconds? t
      if 60 < second then none else return ({ hour, minute, second, fraction }, t)
    | t => return ({ hour, minute, second := none, fraction := none }, t)

/-- How far a clock is ahead, such as `Z` or `+01:00`. -/
def offset? : Reader Offset
  | [] => none
  | sign :: t =>
    if sign = 'Z' ∨ sign = 'z' then some (.universal, t)
    else if sign = '+' ∨ sign = '-' then do
      let (hours, t) ← decimal? 2 0 t
      let (minutes, t) ← decimal? 2 0 (← after? ':' t)
      let total : Int := 60 * hours + minutes
      if 23 < hours ∨ 59 < minutes then none
      else return (.ahead (if sign = '-' then -total else total), t)
    else none

/-- What was read, if nothing is left. -/
def whole? {α : Type} : α × Text → Option α
  | (a, []) => some a
  | _ => none

/-- The moment that a text is. A day and a time of day have a `T` or a space between them. -/
def Moment.ofText? (t : Text) : Option Moment :=
  match date? t with
  | none => (clock? t).bind whole? |>.map .time
  | some (d, []) => some (.day d)
  | some (d, c :: t) =>
    if c = 'T' ∨ c = 't' ∨ c = ' ' then
      (clock? t).bind fun (clock, t) =>
        if t = [] then some (.dateTime d clock none)
        else (offset? t).bind whole? |>.map fun o => .dateTime d clock (some o)
    else none

/-! ## Writing -/

/-- The digits of a number, with zeros in front for a least count. -/
def padded (count n : Nat) : Text :=
  let digits := Text.ofNat n
  List.replicate (count - digits.length) '0' ++ digits

/-- The written form of a day. -/
def Date.text (d : Date) : Text :=
  padded 4 d.year ++ '-' :: padded 2 d.month ++ '-' :: padded 2 d.day

/-- The digits of a fraction as they are shown: up to nine, without zeros at the end, but at least
one. -/
def fractionDigits (digits : Text) : Text :=
  match ((digits.take 9).reverse.dropWhile (· == '0')).reverse with
  | [] => ['0']
  | digits => digits

/-- The written form of a time of day. -/
def Clock.text (c : Clock) : Text :=
  padded 2 c.hour ++ ':' :: padded 2 c.minute ++
    (match c.second with
    | some second => ':' :: padded 2 second
    | none => []) ++
    (match c.fraction with
    | some digits => '.' :: fractionDigits digits
    | none => [])

/-- The written form of an offset. -/
def Offset.text : Offset → Text
  | universal => ['Z']
  | ahead minutes =>
    let total := minutes.natAbs
    (if minutes < 0 then '-' else '+') :: padded 2 (total / 60) ++ ':' :: padded 2 (total % 60)

/-- The written form of a moment. -/
def Moment.text : Moment → Text
  | day d => d.text
  | time c => c.text
  | dateTime d c offset => d.text ++ 'T' :: c.text ++ (offset.map Offset.text).getD []

end HybridMarkup.Toml
