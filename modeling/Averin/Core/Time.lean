import Averin.Core.Unicode

/-!
# Times and their texts

An instant is a number of nanoseconds since the start of 1970. Its text is the date and the time
of day in UTC, with the year padded to four digits, and the other way round a text with an offset
is read to an instant. A year before zero or after 9999 has a longer text.
-/

namespace Averin

namespace Time

/-- A date and a time of day. -/
structure Civil where
  year : Int
  month : Int
  day : Int
  hour : Int
  minute : Int
  second : Int
  nanosecond : Int
  deriving DecidableEq, Repr

/-- The days from the start of 1970 to a date. -/
def unixDays (year month day : Int) : Int :=
  let y := if month ≤ 2 then year - 1 else year
  let yearOfEra := y % 400
  let dayOfYear := (153 * ((month + 9) % 12) + 2) / 5 + day - 1
  y / 400 * 146097 + (yearOfEra * 365 + yearOfEra / 4 - yearOfEra / 100 + dayOfYear) - 719468

/-- The date so many days after the start of 1970. Years are counted from March here. -/
def dateOfDays (days : Int) : Int × Int × Int :=
  let era := (days + 719468) / 146097
  let dayOfEra := (days + 719468) % 146097
  let yearOfEra := (dayOfEra - dayOfEra / 1460 + dayOfEra / 36524 - dayOfEra / 146096) / 365
  let dayOfYear := dayOfEra - (365 * yearOfEra + yearOfEra / 4 - yearOfEra / 100)
  let m := (5 * dayOfYear + 2) / 153
  let day := dayOfYear - (153 * m + 2) / 5 + 1
  let month := if m < 10 then m + 3 else m - 9
  (yearOfEra + era * 400 + (if month ≤ 2 then 1 else 0), month, day)

/-- The days of a month. -/
def daysIn (month year : Int) : Int :=
  if month = 2 then if (year % 4 = 0 ∧ year % 100 ≠ 0) ∨ year % 400 = 0 then 29 else 28
  else if month = 4 ∨ month = 6 ∨ month = 9 ∨ month = 11 then 30
  else 31

/-- The nanoseconds of a second. -/
def nanosPerSecond : Int := 1000000000

/-- The instant of a date and a time of day in UTC. -/
def date (c : Civil) : Int :=
  (((unixDays c.year c.month c.day * 24 + c.hour) * 60 + c.minute) * 60 + c.second) *
    nanosPerSecond + c.nanosecond

/-- The date and the time of day of an instant in UTC. -/
def civil (t : Int) : Civil :=
  let seconds := t / nanosPerSecond
  let (year, month, day) := dateOfDays (seconds / 86400)
  { year := year
    month := month
    day := day
    hour := seconds % 86400 / 3600
    minute := seconds % 3600 / 60
    second := seconds % 60
    nanosecond := t % nanosPerSecond }

/-- A month is one of twelve. -/
theorem month_dateOfDays (days : Int) :
    1 ≤ (dateOfDays days).2.1 ∧ (dateOfDays days).2.1 ≤ 12 := by
  simp only [dateOfDays]
  have hlow := Int.emod_nonneg (days + 719468) (show (146097 : Int) ≠ 0 by decide)
  have hhigh := Int.emod_lt_of_pos (days + 719468) (show (0 : Int) < 146097 by decide)
  generalize (days + 719468) % 146097 = d at *
  split_ifs <;> omega

/-- A day is one of 31. -/
theorem day_dateOfDays (days : Int) :
    1 ≤ (dateOfDays days).2.2 ∧ (dateOfDays days).2.2 ≤ 31 := by
  simp only [dateOfDays]
  have hlow := Int.emod_nonneg (days + 719468) (show (146097 : Int) ≠ 0 by decide)
  have hhigh := Int.emod_lt_of_pos (days + 719468) (show (0 : Int) < 146097 by decide)
  generalize (days + 719468) % 146097 = d at *
  omega

/-- The decimal digits of a number, with zeros in front up to a width and a sign before those. -/
def appendInt (x : Int) (width : Nat) : List Char :=
  let digits := Nat.toDigits 10 x.natAbs
  (if x < 0 then ['-'] else []) ++ (List.replicate (width - digits.length) '0' ++ digits)

/-- The text of an instant under the layout `2006-01-02T15:04:05.000Z`. -/
def format (t : Int) : String :=
  let c := civil t
  .ofList (appendInt c.year 4 ++ '-' :: (appendInt c.month 2 ++ '-' :: (appendInt c.day 2 ++
    'T' :: (appendInt c.hour 2 ++ ':' :: (appendInt c.minute 2 ++ ':' :: (appendInt c.second 2 ++
      '.' :: (appendInt (c.nanosecond / 1000000) 3 ++ ['Z'])))))))

/-- A number has its width exactly when it is not negative and fits. -/
theorem length_appendInt {x : Int} {width : Nat} (hw : 0 < width) :
    (appendInt x width).length = width ↔ 0 ≤ x ∧ x < 10 ^ width := by
  have hfits := Nat.length_toDigits_le_iff (n := x.natAbs) (k := width) (b := 10) (by decide) hw
  have hcast : x.natAbs < 10 ^ width ↔ (x.natAbs : Int) < 10 ^ width := by
    rw [← Nat.cast_lt (α := Int)]
    push_cast
    rfl
  simp only [appendInt, List.length_append, List.length_replicate]
  split_ifs with hneg
  · rw [List.length_singleton]
    constructor <;> intro h <;> omega
  · rw [List.length_nil]
    rw [hcast] at hfits
    constructor
    · intro h
      refine ⟨by omega, ?_⟩
      have hle := hfits.mp (by omega)
      omega
    · rintro ⟨h0, hlt⟩
      have hle := hfits.mpr (by omega)
      omega

/-- A number that is not negative is written in digits. -/
theorem isDigit_of_mem_appendInt {x : Int} {width : Nat} (h0 : 0 ≤ x) {c : Char}
    (hc : c ∈ appendInt x width) : c.isDigit = true := by
  rw [appendInt, if_neg (by omega), List.nil_append, List.mem_append] at hc
  rcases hc with hc | hc
  · rw [List.eq_of_mem_replicate hc]
    rfl
  · exact Nat.isDigit_of_mem_toDigits (by decide) (by decide) hc

theorem lt_of_isDigit {c : Char} (h : c.isDigit = true) : c.toNat < 128 := by
  have hrange := Char.isDigit_iff_toNat.mp h
  have hhigh : '9'.toNat = 57 := rfl
  omega

/-- A number is written in ASCII. -/
theorem lt_of_mem_appendInt {x : Int} {width : Nat} {c : Char} (hc : c ∈ appendInt x width) :
    c.toNat < 128 := by
  rw [appendInt, List.mem_append, List.mem_append] at hc
  rcases hc with hc | hc | hc
  · split_ifs at hc
    · rw [List.mem_singleton.mp hc]
      decide
    · cases hc
  · rw [List.eq_of_mem_replicate hc]
    decide
  · exact lt_of_isDigit (Nat.isDigit_of_mem_toDigits (by decide) (by decide) hc)

/-- A number that fits is written as so many digits. -/
theorem exists_appendInt_two {x : Int} (h : 0 ≤ x ∧ x < 10 ^ 2) :
    ∃ a b : Char, appendInt x 2 = [a, b] ∧ a.isDigit = true ∧ b.isDigit = true := by
  obtain ⟨a, b, hab⟩ := List.length_eq_two.mp ((length_appendInt (by decide)).mpr h)
  have hdigit : ∀ c ∈ appendInt x 2, c.isDigit = true := fun c hc =>
    isDigit_of_mem_appendInt h.1 hc
  rw [hab] at hdigit
  exact ⟨a, b, hab, hdigit a (by simp), hdigit b (by simp)⟩

/-- The fields of a written time that are not the year have their widths. -/
theorem civil_bounds (t : Int) :
    (0 ≤ (civil t).month ∧ (civil t).month < 10 ^ 2) ∧
      (0 ≤ (civil t).day ∧ (civil t).day < 10 ^ 2) ∧
      (0 ≤ (civil t).hour ∧ (civil t).hour < 10 ^ 2) ∧
      (0 ≤ (civil t).minute ∧ (civil t).minute < 10 ^ 2) ∧
      (0 ≤ (civil t).second ∧ (civil t).second < 10 ^ 2) ∧
      (0 ≤ (civil t).nanosecond / 1000000 ∧ (civil t).nanosecond / 1000000 < 10 ^ 3) := by
  have hmonth : 1 ≤ (civil t).month ∧ (civil t).month ≤ 12 := month_dateOfDays _
  have hday : 1 ≤ (civil t).day ∧ (civil t).day ≤ 31 := day_dateOfDays _
  have hhour : (civil t).hour = t / nanosPerSecond % 86400 / 3600 := rfl
  have hminute : (civil t).minute = t / nanosPerSecond % 3600 / 60 := rfl
  have hsecond : (civil t).second = t / nanosPerSecond % 60 := rfl
  have hnanosecond : (civil t).nanosecond = t % 1000000000 := rfl
  rw [hhour, hminute, hsecond, hnanosecond]
  refine ⟨?_, ?_, ?_, ?_, ?_, ?_⟩ <;> constructor <;> omega

/-- The digit at a position. -/
def digitAt (b : List UInt8) (i : Nat) : Option Int :=
  b[i]?.bind fun c => if 0x30 ≤ c ∧ c ≤ 0x39 then some ((c - 0x30).toNat : Int) else none

/-- A number of two digits, or of one where that is allowed. -/
def getnum (b : List UInt8) (fixed : Bool) : Option (Int × List UInt8) :=
  match digitAt b 0, digitAt b 1 with
  | none, _ => none
  | some d, none => if fixed then none else some (d, b.drop 1)
  | some d, some e => some (d * 10 + e, b.drop 2)

/-- The number spelled by digits only. -/
def atoi (b : List UInt8) : Option Int :=
  b.foldlM (fun n c =>
    if 0x30 ≤ c ∧ c ≤ 0x39 then some (n * 10 + ((c - 0x30).toNat : Int)) else none) 0

/-- A year of four digits or, with a sign, of more. -/
def longYear (b : List UInt8) : Option (Int × List UInt8) :=
  if b.length < 4 then none else (atoi (b.take 4)).map (·, b.drop 4)

/-- Skip one character. -/
def skip (c : Char) : List UInt8 → Option (List UInt8)
  | x :: b => if x = c.toUInt8 then some b else none
  | [] => none

/-- A fraction of a second in nanoseconds, if there is one. Digits after the ninth are dropped. -/
def fraction : List UInt8 → Int × List UInt8
  | c :: b =>
    let digits := b.takeWhile fun c => 0x30 ≤ c ∧ c ≤ 0x39
    if (c = '.'.toUInt8 ∨ c = ','.toUInt8) ∧ digits ≠ [] then
      (((atoi (digits.take 9)).getD 0) * 10 ^ (9 - digits.length), b.drop digits.length)
    else (0, c :: b)
  | [] => (0, [])

/-- The offset from UTC in seconds. -/
def offset (b : List UInt8) : Option (Int × List UInt8) :=
  if b.head? = some 'Z'.toUInt8 then some (0, b.drop 1)
  else if b.length < 6 ∨ b[3]? ≠ some ':'.toUInt8 then none
  else do
    let (hours, _) ← getnum ((b.drop 1).take 2) true
    let (minutes, _) ← getnum ((b.drop 4).take 2) true
    if hours > 24 ∨ minutes > 60 then none
    let seconds := (hours * 60 + minutes) * 60
    if b.head? = some '+'.toUInt8 then return (seconds, b.drop 6)
    if b.head? = some '-'.toUInt8 then return (-seconds, b.drop 6)
    none

/-- A number of two digits below a bound. -/
def twoDigits (b : List UInt8) (fixed : Bool) (low high : Int) : Option (Int × List UInt8) :=
  (getnum b fixed).filter fun n => low ≤ n.1 ∧ n.1 < high

/-- The instant of a text under the layout `2006-01-02T15:04:05.999999999Z07:00`. -/
def parse (s : String) : Option Int := do
  let (year, b) ← longYear (bytes s)
  let (month, b) ← twoDigits (← skip '-' b) true 1 13
  let (day, b) ← getnum (← skip '-' b) true
  let (hour, b) ← twoDigits (← skip 'T' b) false 0 24
  let (minute, b) ← twoDigits (← skip ':' b) true 0 60
  let (second, b) ← twoDigits (← skip ':' b) true 0 60
  let (nanosecond, b) := fraction b
  let (seconds, b) ← offset b
  if b ≠ [] then none
  if day < 1 ∨ daysIn month year < day then none
  return date ⟨year, month, day, hour, minute, second, nanosecond⟩ - seconds * nanosPerSecond

end Time

end Averin
