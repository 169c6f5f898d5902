import Morf.Lib.Calendar
import Morf.Lib.Text

/-! Times and their RFC 3339 texts, as the package `time` writes and reads them. -/

namespace Morf.Lib

open Calendar
open List Option Text

/-- A time in a year of four digits, with a zone of whole minutes.  The seconds are those that clocks
in the zone have counted since the beginning of the year 0. -/
structure Time where
  wall : Nat
  nanos : Nat
  offset : Int
  wall_lt : wall < 86400 * (25 * cycleLength)
  nanos_lt : nanos < 1000000000
  offset_lt : offset.natAbs < 24 * 60
  deriving DecidableEq

namespace Time

def instant (t : Time) : Int := t.wall - 60 * t.offset

theorem zero_lt_second : 0 < 1000000000 := by decide

def truncate (t : Time) : Time := { t with nanos := 0, nanos_lt := zero_lt_second }

def ofWall (wall nanos : Nat) (offset : Int) : Option Time :=
  if h : wall < 86400 * (25 * cycleLength) ∧ nanos < 1000000000 ∧ offset.natAbs < 24 * 60 then
    some ⟨wall, nanos, offset, h.1, h.2.1, h.2.2⟩
  else none

def formatZone (offset : Int) : List Char :=
  if offset = 0 then ['Z']
  else (if offset < 0 then '-' else '+') ::
    (padded 2 (offset.natAbs / 60) ++ ':' :: padded 2 (offset.natAbs % 60))

def format (t : Time) : List Char :=
  let d := date (t.wall / 86400)
  let s := t.wall % 86400
  padded 4 d.year ++ '-' :: (padded 2 d.month ++ '-' :: (padded 2 d.day ++
    'T' :: (padded 2 (s / 3600) ++ ':' :: (padded 2 (s / 60 % 60) ++
    ':' :: (padded 2 (s % 60) ++ formatZone t.offset)))))

def uint (width min max : Nat) (s : List Char) : Option (Nat × List Char) :=
  if s.length < width then none
  else ((digits (s.take width)).filter fun n => min ≤ n ∧ n ≤ max).map fun n => (n, s.drop width)

def expect (c : Char) : List Char → Option (List Char)
  | [] => none
  | x :: s => if x = c then some s else none

def fraction : List Char → Nat × List Char
  | '.' :: s =>
    let ds := s.takeWhile Char.isDigit
    match digits (ds.take 9) with
    | some n => (n * 10 ^ (9 - (ds.take 9).length), s.dropWhile Char.isDigit)
    | none => (0, '.' :: s)
  | s => (0, s)

def parseZone (s : List Char) : Option Int :=
  if s = ['Z'] then some 0
  else
    match s with
    | [] => none
    | sign :: s => do
      let (hour, s) ← uint 2 0 23 s
      let s ← expect ':' s
      let (minute, s) ← uint 2 0 59 s
      if s ≠ [] then none
      else if sign = '+' then some (60 * hour + minute)
      else if sign = '-' then some (-(60 * hour + minute))
      else none

def parseRFC3339 (s : List Char) : Option Time := do
  let (year, s) ← uint 4 0 9999 s
  let s ← expect '-' s
  let (month, s) ← uint 2 1 12 s
  let s ← expect '-' s
  let (day, s) ← uint 2 1 (daysIn month year) s
  let s ← expect 'T' s
  let (hour, s) ← uint 2 0 23 s
  let s ← expect ':' s
  let (minute, s) ← uint 2 0 59 s
  let s ← expect ':' s
  let (second, s) ← uint 2 0 59 s
  let offset ← parseZone (fraction s).2
  ofWall (86400 * dayNumber ⟨year, month, day⟩ + 3600 * hour + 60 * minute + second) (fraction s).1 offset

theorem uint_padded {min max : Nat} (hw : 0 < width) (hn : n < 10 ^ width) (hmin : min ≤ n)
    (hmax : n ≤ max) (rest : List Char) :
    uint width min max (padded width n ++ rest) = some (n, rest) := by
  have hlen := length_padded hw hn
  have hshort : ¬ (padded width n ++ rest).length < width := by
    rw [length_append, hlen]
    omega
  rw [uint, if_neg hshort, take_left' hlen, drop_left' hlen, digits_padded,
    filter_some, if_pos (decide_eq_true ⟨hmin, hmax⟩), map_some]

theorem expect_cons (c : Char) (s : List Char) : expect c (c :: s) = some s := if_pos rfl

theorem fraction_formatZone (offset : Int) : fraction (formatZone offset) = (0, formatZone offset) := by
  rw [formatZone]
  split
  · rfl
  · split <;> rfl

theorem parseZone_signed (hhour : hour ≤ 23) (hminute : minute ≤ 59) (sign : Char) :
    parseZone (sign :: (padded 2 hour ++ ':' :: padded 2 minute)) =
      if sign = '+' then some (60 * (hour : Int) + minute)
      else if sign = '-' then some (-(60 * (hour : Int) + minute)) else none := by
  have hfirst : uint 2 0 23 (padded 2 hour ++ ':' :: padded 2 minute) =
      some (hour, ':' :: padded 2 minute) :=
    uint_padded (by decide) (by omega) (Nat.zero_le hour) hhour _
  have hlast : uint 2 0 59 (padded 2 minute ++ []) = some (minute, []) :=
    uint_padded (by decide) (by omega) (Nat.zero_le minute) hminute []
  rw [append_nil] at hlast
  have hlong : sign :: (padded 2 hour ++ ':' :: padded 2 minute) ≠ ['Z'] := by simp
  rw [parseZone, if_neg hlong]
  simp only [hfirst, expect_cons, hlast, bind_eq_bind, bind_some, ne_eq, not_true_eq_false, if_false]

theorem parseZone_formatZone {offset : Int} (h : offset.natAbs < 24 * 60) :
    parseZone (formatZone offset) = some offset := by
  rw [formatZone]
  split
  · rename_i hzero
    rw [hzero]
    rfl
  · rw [parseZone_signed (by omega) (by omega)]
    split
    · rw [if_neg (by decide), if_pos rfl]
      exact congrArg some (by omega)
    · rw [if_pos rfl]
      exact congrArg some (by omega)

theorem parseRFC3339_format (t : Time) : parseRFC3339 t.format = some t.truncate := by
  obtain ⟨⟨hmonth, hmonth', hday, hday'⟩, hnumber, -⟩ := date_spec (t.wall / 86400)
  have hyear : (date (t.wall / 86400)).year < 10000 :=
    date_year_lt (Nat.div_lt_of_lt_mul t.wall_lt)
  have hdays := daysIn_le (date (t.wall / 86400)).month (date (t.wall / 86400)).year
  have hwall : 86400 * (t.wall / 86400) + 3600 * (t.wall % 86400 / 3600) +
      60 * (t.wall % 86400 / 60 % 60) + t.wall % 86400 % 60 = t.wall := by
    omega
  simp only [parseRFC3339, format]
  generalize date (t.wall / 86400) = d at *
  rw [uint_padded (by decide) (by omega) (by omega) (by omega)]
  simp only [expect_cons, bind_eq_bind, bind_some]
  rw [uint_padded (by decide) (by omega) hmonth hmonth']
  simp only [expect_cons, bind_some]
  rw [uint_padded (by decide) (by omega) hday hday']
  simp only [expect_cons, bind_some]
  rw [uint_padded (by decide) (by omega) (by omega) (by omega)]
  simp only [expect_cons, bind_some]
  rw [uint_padded (by decide) (by omega) (by omega) (by omega)]
  simp only [expect_cons, bind_some]
  rw [uint_padded (by decide) (by omega) (by omega) (by omega)]
  simp only [bind_some, fraction_formatZone, parseZone_formatZone t.offset_lt, hnumber, hwall]
  exact dif_pos ⟨t.wall_lt, by decide, t.offset_lt⟩

end Time

end Morf.Lib
