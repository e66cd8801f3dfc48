import Averin.Core.Calendar
import Averin.Verify.CanonicalTs

/-!
# Canonical times as instants

A text of the accepted shape that names a real date is read to the milliseconds since 1970. The
number is that of the calendar, and all of the arithmetic stays within 64 bits.
-/

namespace Averin

/-- The bytes of the last so many decimal digits of a number. -/
def paddedDigits : Nat → Nat → List UInt8
  | 0, _ => []
  | width + 1, n => paddedDigits width (n / 10) ++ [.ofNat (0x30 + n % 10)]

theorem utf8EncodeChar_digitChar :
    ∀ d < 10, String.utf8EncodeChar (Nat.digitChar d) = [UInt8.ofNat (0x30 + d)] := by decide

/-- The bytes of a padded number. -/
theorem utf8_digits (width n : Nat) : utf8 (digits width n) = paddedDigits width n := by
  induction width generalizing n with
  | zero => rfl
  | succ width ih =>
    rw [digits, utf8_append, ih, utf8_cons, utf8_nil, List.append_nil,
      utf8EncodeChar_digitChar _ (Nat.mod_lt n (by decide)), paddedDigits]

@[simp] theorem length_paddedDigits (width n : Nat) : (paddedDigits width n).length = width := by
  induction width generalizing n with
  | zero => rfl
  | succ width ih => rw [paddedDigits, List.length_append, ih, List.length_singleton]

/-- A byte is a digit if it is the byte of one. -/
theorem digit_iff {c : UInt8} :
    (0x30 ≤ c ∧ c ≤ 0x39) ↔ ∃ d < 10, c = UInt8.ofNat (0x30 + d) := by
  constructor
  · rintro ⟨hlow, hhigh⟩
    rw [UInt8.le_iff_toNat_le] at hlow hhigh
    have hlow' : 48 ≤ c.toNat := hlow
    have hhigh' : c.toNat ≤ 57 := hhigh
    refine ⟨c.toNat - 48, by omega, UInt8.toNat_inj.mp ?_⟩
    rw [UInt8.toNat_ofNat']
    omega
  · rintro ⟨d, hd, rfl⟩
    rw [UInt8.le_iff_toNat_le, UInt8.le_iff_toNat_le, UInt8.toNat_ofNat']
    have h30 : (0x30 : UInt8).toNat = 48 := rfl
    have h39 : (0x39 : UInt8).toNat = 57 := rfl
    omega

/-- The value of a digit. -/
theorem toNat_digit {d : Nat} (hd : d < 10) : (UInt8.ofNat (0x30 + d) - 0x30).toNat = d := by
  revert hd
  revert d
  decide

/-- Bytes are read to a number exactly if they are its digits. -/
theorem foldlM_digits_iff {l : List UInt8} {n : Int} :
    l.foldlM (fun n c => if 0x30 ≤ c ∧ c ≤ 0x39 then some (n * 10 + ((c - 0x30).toNat : Int))
        else none) 0 = some n ↔
      ∃ m : Nat, n = m ∧ m < 10 ^ l.length ∧ l = paddedDigits l.length m := by
  induction l using List.reverseRecOn generalizing n with
  | nil =>
    simp only [List.foldlM_nil, List.length_nil, pow_zero, Nat.lt_one_iff, paddedDigits, and_true]
    constructor
    · intro h
      exact ⟨0, (Option.some.inj h).symm, rfl⟩
    · rintro ⟨m, rfl, rfl⟩
      rfl
  | append_singleton l c ih =>
    rw [List.foldlM_append]
    simp only [List.foldlM_cons, List.foldlM_nil, Option.bind_eq_bind, Option.bind_eq_some_iff, ih,
      List.length_append, List.length_singleton, paddedDigits]
    constructor
    · rintro ⟨_, ⟨m, rfl, hm, hl⟩, n', hn', hn⟩
      split_ifs at hn' with hc
      obtain ⟨d, hd, rfl⟩ := digit_iff.mp hc
      rw [toNat_digit hd] at hn'
      obtain rfl := Option.some.inj hn'
      obtain rfl := Option.some.inj hn
      have hdiv : (m * 10 + d) / 10 = m := by omega
      have hmod : (m * 10 + d) % 10 = d := by omega
      refine ⟨m * 10 + d, by push_cast; rfl, by rw [pow_succ]; omega, ?_⟩
      rw [hdiv, hmod, ← hl]
    · rintro ⟨m, rfl, hm, hl⟩
      obtain ⟨hinit, hlast⟩ := List.append_inj' hl rfl
      obtain rfl := List.singleton_inj.mp hlast
      have hd : m % 10 < 10 := Nat.mod_lt m (by decide)
      rw [pow_succ] at hm
      refine ⟨_, ⟨m / 10, rfl, by omega, hinit⟩, _, if_pos (digit_iff.mpr ⟨_, hd, rfl⟩), ?_⟩
      rw [toNat_digit hd]
      have : m / 10 * 10 + m % 10 = m := by omega
      exact congrArg some (by exact_mod_cast this)

/-- What is read of a field is the number whose digits stand there. -/
theorem fixedDigits_iff {b : List UInt8} {start stop : Nat} {n : Int} (h : stop ≤ b.length) :
    fixedDigits b start stop = some n ↔ ∃ m : Nat, n = m ∧ m < 10 ^ (stop - start) ∧
      (b.drop start).take (stop - start) = paddedDigits (stop - start) m := by
  have hlen : ((b.drop start).take (stop - start)).length = stop - start := by
    rw [List.length_take, List.length_drop]
    omega
  rw [fixedDigits, foldlM_digits_iff, hlen]

namespace UtcTime

variable (t : UtcTime)

/-- The bytes of the text. -/
def textBytes : List UInt8 :=
  paddedDigits 4 t.year ++ 0x2D :: (paddedDigits 2 t.month ++ 0x2D ::
    (paddedDigits 2 t.day ++ 0x54 :: (paddedDigits 2 t.hour ++ 0x3A ::
    (paddedDigits 2 t.minute ++ 0x3A :: (paddedDigits 2 t.second ++
      0x2E :: (paddedDigits 3 t.milli ++ 0x5A :: []))))))

theorem bytes_text : bytes t.text = t.textBytes := by
  rw [text, bytes_ofList, chars, textBytes]
  simp only [utf8_append, utf8_cons, utf8_digits, utf8_nil]
  rfl

theorem length_textBytes : t.textBytes.length = 24 := by simp [textBytes]

end UtcTime

/-- The table of the months is that of the calendar. -/
theorem daysInMonth_eq_some_iff {year month : Nat} {last : Int} :
    daysInMonth year month = some last ↔
      (1 ≤ month ∧ month ≤ 12) ∧ last = monthLength year month := by
  have hleap : (((year : Int) % 4 = 0 ∧ (year : Int) % 100 ≠ 0) ∨ (year : Int) % 400 = 0) ↔
      IsLeap year := by
    unfold IsLeap
    omega
  have hlong : (month : Int) ∈ [(1 : Int), 3, 5, 7, 8, 10, 12] ↔
      month = 1 ∨ month = 3 ∨ month = 5 ∨ month = 7 ∨ month = 8 ∨ month = 10 ∨ month = 12 := by
    simp only [List.mem_cons, List.not_mem_nil, or_false]
    omega
  have hshort : (month : Int) ∈ [(4 : Int), 6, 9, 11] ↔
      month = 4 ∨ month = 6 ∨ month = 9 ∨ month = 11 := by
    simp only [List.mem_cons, List.not_mem_nil, or_false]
    omega
  have htwo : (month : Int) = 2 ↔ month = 2 := by omega
  simp only [daysInMonth, hleap, hlong, hshort, htwo, monthLength]
  split_ifs <;> simp only [Option.some.injEq, false_iff, not_and] <;> omega

/-- The days before a year, as they are computed from the year before it. -/
theorem daysBeforeYear_of_era (y : Nat) :
    (daysBeforeYear (y + 1) : Int) = (y : Int) / 400 * 146097 +
      (((y : Int) - (y : Int) / 400 * 400) * 365 + ((y : Int) - (y : Int) / 400 * 400) / 4 -
        ((y : Int) - (y : Int) / 400 * 400) / 100) + 366 := by
  have hmod := Nat.div_add_mod' y 400
  have hera := daysBeforeYear_era (Nat.mod_lt y (show 0 < 400 by decide)) (y / 400)
  rw [hmod] at hera
  have hyoe : (y : Int) - (y : Int) / 400 * 400 = ((y % 400 : Nat) : Int) := by omega
  have hdiv : (y : Int) / 400 = ((y / 400 : Nat) : Int) := by omega
  rw [hyoe, hdiv]
  generalize y / 400 = era at hera
  generalize y % 400 = yoe at hera
  omega

/-- The formula counts the days of the calendar. -/
theorem daysFromCivil_eq (t : UtcTime) :
    daysFromCivil t.year t.month t.day = (t.dayNumber : Int) - daysBeforeYear 1970 := by
  have h1970 : daysBeforeYear 1970 = 719528 := by
    have := daysBeforeYear_eq 1970
    omega
  have hday := t.day_pos
  rw [UtcTime.dayNumber, daysFromCivil, h1970]
  rcases Nat.lt_or_ge t.month 3 with hlt | hge
  · rw [if_pos (by omega)]
    have hmonth : t.month = 1 ∧ daysBeforeMonth t.year t.month = 0 ∨
        t.month = 2 ∧ daysBeforeMonth t.year t.month = 31 := by
      have hpos := t.month_pos
      rcases (show t.month = 1 ∨ t.month = 2 by omega) with h | h
      · exact Or.inl ⟨h, by rw [h]; rfl⟩
      · exact Or.inr ⟨h, by rw [h]; rfl⟩
    have hdoy : (153 * (((t.month : Int) + 9) % 12) + 2) / 5 =
        daysBeforeMonth t.year t.month + 306 := by
      rcases hmonth with ⟨h, hm⟩ | ⟨h, hm⟩ <;> rw [h] at hm ⊢ <;> rw [hm] <;> rfl
    rw [hdoy]
    cases hyear : t.year with
    | zero =>
      have h0 : daysBeforeYear 0 = 0 := rfl
      rw [h0]
      norm_num
      omega
    | succ y =>
      have hera := daysBeforeYear_of_era y
      rw [show ((y + 1 : Nat) : Int) - 1 = y by omega]
      omega
  · rw [if_neg (by omega)]
    obtain ⟨k, hk⟩ := Nat.exists_eq_add_of_le' hge
    have hle := t.month_le
    have hmonth := daysBeforeMonth_from_march t.year (show k ≤ 9 by omega)
    have hera := daysBeforeYear_of_era t.year
    have hmp : ((t.month : Int) + 9) % 12 = k := by omega
    rw [daysBeforeYear] at hera
    rw [hmp, hk]
    omega

/-- A field and the separator behind it. -/
theorem drop_eq_field {b : List UInt8} {i k : Nat} {x : UInt8} (h : b[i + k]? = some x) :
    b.drop i = (b.drop i).take k ++ x :: b.drop (i + k + 1) := by
  obtain ⟨hlt, hx⟩ := List.getElem?_eq_some_iff.mp h
  conv_lhs => rw [← List.take_append_drop k (b.drop i)]
  rw [List.drop_drop, List.drop_eq_getElem_cons hlt, hx]

/-- The separators of the accepted shape. -/
def Separated (b : List UInt8) : Prop :=
  b.length = 24 ∧ b[4]? = some 0x2D ∧ b[7]? = some 0x2D ∧ b[10]? = some 0x54 ∧
    b[13]? = some 0x3A ∧ b[16]? = some 0x3A ∧ b[19]? = some 0x2E ∧ b[23]? = some 0x5A

instance (b : List UInt8) : Decidable (Separated b) := by unfold Separated; infer_instance

/-- What is computed from the fields between the separators. -/
def fieldsMillis (b : List UInt8) : Option Int :=
  (fixedDigits b 0 4).bind fun year =>
    (fixedDigits b 5 7).bind fun month =>
      (fixedDigits b 8 10).bind fun day =>
        (fixedDigits b 11 13).bind fun hour =>
          (fixedDigits b 14 16).bind fun min =>
            (fixedDigits b 17 19).bind fun sec =>
              (fixedDigits b 20 23).bind fun ms =>
                (daysInMonth year month).bind fun last =>
                  if day < 1 ∨ day > last ∨ hour > 23 ∨ min > 59 ∨ sec > 59 then none
                  else some ((((daysFromCivil year month day * 24 + hour) * 60 + min) * 60 + sec) *
                    1000 + ms)

/-- A time is read exactly if it is separated rightly and its fields are in range. -/
theorem canonicalTsMillis_eq_some {s : String} {n : Int} :
    canonicalTsMillis s = some n ↔ Separated (bytes s) ∧ fieldsMillis (bytes s) = some n := by
  have hshape : Separated (bytes s) ↔ ¬ ((bytes s).length ≠ 24 ∨ (bytes s)[4]? ≠ some 0x2D ∨
      (bytes s)[7]? ≠ some 0x2D ∨ (bytes s)[10]? ≠ some 0x54 ∨ (bytes s)[13]? ≠ some 0x3A ∨
      (bytes s)[16]? ≠ some 0x3A ∨ (bytes s)[19]? ≠ some 0x2E ∨ (bytes s)[23]? ≠ some 0x5A) := by
    simp only [Separated, not_or, not_not]
  by_cases h : Separated (bytes s)
  · have hif := hshape.mp h
    unfold canonicalTsMillis
    rw [if_neg hif]
    simp only [h, true_and]
    exact Iff.rfl
  · have hif := not_not.mp (hshape.not.mp h)
    unfold canonicalTsMillis
    rw [if_pos hif]
    simp [h]

/-- The fields between the separators are those of an instant. -/
theorem fieldsMillis_eq_some {b : List UInt8} {n : Int} (hb : Separated b)
    (h : fieldsMillis b = some n) : ∃ t : UtcTime, t.textBytes = b ∧ t.millis = n := by
  obtain ⟨hlen, h4, h7, h10, h13, h16, h19, h23⟩ := hb
  obtain ⟨year, hyear, h⟩ := Option.bind_eq_some_iff.mp h
  obtain ⟨month, hmonth, h⟩ := Option.bind_eq_some_iff.mp h
  obtain ⟨day, hday, h⟩ := Option.bind_eq_some_iff.mp h
  obtain ⟨hour, hhour, h⟩ := Option.bind_eq_some_iff.mp h
  obtain ⟨minute, hminute, h⟩ := Option.bind_eq_some_iff.mp h
  obtain ⟨second, hsecond, h⟩ := Option.bind_eq_some_iff.mp h
  obtain ⟨milli, hmilli, h⟩ := Option.bind_eq_some_iff.mp h
  obtain ⟨last, hlast, h⟩ := Option.bind_eq_some_iff.mp h
  split_ifs at h with hrange
  obtain ⟨year, rfl, hy, hyb⟩ := (fixedDigits_iff (by omega)).mp hyear
  obtain ⟨month, rfl, -, hmob⟩ := (fixedDigits_iff (by omega)).mp hmonth
  obtain ⟨day, rfl, -, hdb⟩ := (fixedDigits_iff (by omega)).mp hday
  obtain ⟨hour, rfl, -, hhb⟩ := (fixedDigits_iff (by omega)).mp hhour
  obtain ⟨minute, rfl, -, hmib⟩ := (fixedDigits_iff (by omega)).mp hminute
  obtain ⟨second, rfl, -, hsb⟩ := (fixedDigits_iff (by omega)).mp hsecond
  obtain ⟨milli, rfl, hms, hmsb⟩ := (fixedDigits_iff (by omega)).mp hmilli
  obtain ⟨⟨hpos, hle⟩, rfl⟩ := daysInMonth_eq_some_iff.mp hlast
  let t : UtcTime := ⟨year, month, day, hour, minute, second, milli, hy, hpos, hle, by omega,
    by omega, by omega, by omega, by omega, hms⟩
  refine ⟨t, ?_, ?_⟩
  · have hend : b.drop 24 = [] := List.drop_eq_nil_of_le hlen.le
    have hsplit := drop_eq_field (i := 0) (k := 4) h4
    rw [drop_eq_field (i := 0 + 4 + 1) (k := 2) h7, drop_eq_field (i := 5 + 2 + 1) (k := 2) h10,
      drop_eq_field (i := 8 + 2 + 1) (k := 2) h13, drop_eq_field (i := 11 + 2 + 1) (k := 2) h16,
      drop_eq_field (i := 14 + 2 + 1) (k := 2) h19, drop_eq_field (i := 17 + 2 + 1) (k := 3) h23,
      hend, hyb, hmob, hdb, hhb, hmib, hsb, hmsb] at hsplit
    exact hsplit.symm
  · rw [UtcTime.millis, ← daysFromCivil_eq t]
    exact Option.some.inj h

/-- The fields of a text are read back. -/
theorem fieldsMillis_textBytes (t : UtcTime) : fieldsMillis t.textBytes = some t.millis := by
  obtain ⟨hy, hmo, hd, hh, hmi, hs, hms⟩ := t.widths
  have hlen := t.length_textBytes
  have hmonth : daysInMonth t.year t.month = some (monthLength t.year t.month : Int) :=
    daysInMonth_eq_some_iff.mpr ⟨⟨t.month_pos, t.month_le⟩, rfl⟩
  have hrange : ¬ ((t.day : Int) < 1 ∨ (t.day : Int) > monthLength t.year t.month ∨
      (t.hour : Int) > 23 ∨ (t.minute : Int) > 59 ∨ (t.second : Int) > 59) := by
    have hpos := t.day_pos
    have hle := t.day_le
    have hhour := t.hour_lt
    have hminute := t.minute_lt
    have hsecond := t.second_lt
    omega
  have hyear : fixedDigits t.textBytes 0 4 = some (t.year : Int) :=
    (fixedDigits_iff (by omega)).mpr ⟨t.year, rfl, hy, rfl⟩
  have hmon : fixedDigits t.textBytes 5 7 = some (t.month : Int) :=
    (fixedDigits_iff (by omega)).mpr ⟨t.month, rfl, hmo, rfl⟩
  have hday : fixedDigits t.textBytes 8 10 = some (t.day : Int) :=
    (fixedDigits_iff (by omega)).mpr ⟨t.day, rfl, hd, rfl⟩
  have hhour : fixedDigits t.textBytes 11 13 = some (t.hour : Int) :=
    (fixedDigits_iff (by omega)).mpr ⟨t.hour, rfl, hh, rfl⟩
  have hminute : fixedDigits t.textBytes 14 16 = some (t.minute : Int) :=
    (fixedDigits_iff (by omega)).mpr ⟨t.minute, rfl, hmi, rfl⟩
  have hsecond : fixedDigits t.textBytes 17 19 = some (t.second : Int) :=
    (fixedDigits_iff (by omega)).mpr ⟨t.second, rfl, hs, rfl⟩
  have hmilli : fixedDigits t.textBytes 20 23 = some (t.milli : Int) :=
    (fixedDigits_iff (by omega)).mpr ⟨t.milli, rfl, hms, rfl⟩
  rw [fieldsMillis, hyear, hmon, hday, hhour, hminute, hsecond, hmilli]
  simp only [Option.bind_some]
  rw [hmonth, Option.bind_some, if_neg hrange, daysFromCivil_eq t, UtcTime.millis]

/-- A written time is separated rightly. -/
theorem separated_textBytes (t : UtcTime) : Separated t.textBytes :=
  ⟨t.length_textBytes, rfl, rfl, rfl, rfl, rfl, rfl, rfl⟩

/-- The instants read from texts are those of the calendar, each from its own text. -/
theorem canonicalTsMillis_eq_some_iff {s : String} {n : Int} :
    canonicalTsMillis s = some n ↔ ∃ t : UtcTime, t.text = s ∧ t.millis = n := by
  rw [canonicalTsMillis_eq_some]
  constructor
  · rintro ⟨hb, h⟩
    obtain ⟨t, ht, hn⟩ := fieldsMillis_eq_some hb h
    exact ⟨t, bytes_injective (t.bytes_text.trans ht), hn⟩
  · rintro ⟨t, rfl, rfl⟩
    rw [t.bytes_text]
    exact ⟨separated_textBytes t, fieldsMillis_textBytes t⟩

/-- Of two times that are read the earlier is the one with the smaller text. -/
theorem lt_iff_millis_lt {s s' : String} {n n' : Int} (h : canonicalTsMillis s = some n)
    (h' : canonicalTsMillis s' = some n') : s < s' ↔ n < n' := by
  obtain ⟨t, rfl, rfl⟩ := canonicalTsMillis_eq_some_iff.mp h
  obtain ⟨t', rfl, rfl⟩ := canonicalTsMillis_eq_some_iff.mp h'
  exact UtcTime.text_lt_iff

theorem isAsciiDigit_ofNat (n : Nat) : isAsciiDigit (.ofNat (0x30 + n % 10)) = true := by
  have h := digit_iff.mpr ⟨n % 10, Nat.mod_lt n (by decide), rfl⟩
  rw [isAsciiDigit, Bool.and_eq_true, decide_eq_true_eq, decide_eq_true_eq]
  exact h

/-- A written time has the form. -/
theorem canonicalShape_textBytes (t : UtcTime) : canonicalShape t.textBytes = true := by
  have hdigits : ([0, 1, 2, 3, 5, 6, 8, 9, 11, 12, 14, 15, 17, 18, 20, 21, 22].all fun i =>
      isAsciiDigit (t.textBytes.getD i 0)) = true := by
    rw [List.all_eq_true]
    simp only [List.forall_mem_cons]
    refine ⟨?_, ?_, ?_, ?_, ?_, ?_, ?_, ?_, ?_, ?_, ?_, ?_, ?_, ?_, ?_, ?_, ?_, ?_⟩
    on_goal 18 => simp
    all_goals exact isAsciiDigit_ofNat _
  rw [canonicalShape, hdigits]
  rfl

/-- Two digits make a number below a hundred. -/
theorem twoDigits_eq : ∀ n < 100, (UInt8.ofNat (0x30 + n / 10 % 10) - 0x30) * 10 +
    (UInt8.ofNat (0x30 + n % 10) - 0x30) = UInt8.ofNat n := by decide

theorem le_ofNat_iff {n : Nat} {c : UInt8} (hn : n < 100) : c ≤ UInt8.ofNat n ↔ c.toNat ≤ n := by
  rw [UInt8.le_iff_toNat_le, UInt8.toNat_ofNat']
  omega

theorem ofNat_le_iff {n : Nat} {c : UInt8} (hn : n < 100) : UInt8.ofNat n ≤ c ↔ n ≤ c.toNat := by
  rw [UInt8.le_iff_toNat_le, UInt8.toNat_ofNat']
  omega

/-- The text of an instant is canonical. -/
theorem isCanonicalTs_text (t : UtcTime) : isCanonicalTs t.text = true := by
  obtain ⟨-, hmo, hd, hh, hmi, hs, -⟩ := t.widths
  have hmonth : twoDigits t.textBytes 5 = .ofNat t.month := twoDigits_eq _ hmo
  have hday : twoDigits t.textBytes 8 = .ofNat t.day := twoDigits_eq _ hd
  have hhour : twoDigits t.textBytes 11 = .ofNat t.hour := twoDigits_eq _ hh
  have hminute : twoDigits t.textBytes 14 = .ofNat t.minute := twoDigits_eq _ hmi
  have hsecond : twoDigits t.textBytes 17 = .ofNat t.second := twoDigits_eq _ hs
  have hlast := t.day_le.trans (monthLength_le t.year t.month)
  simp only [isCanonicalTs, t.bytes_text, t.length_textBytes, canonicalShape_textBytes, hmonth,
    hday, hhour, hminute, hsecond, beq_self_eq_true, Bool.true_and, Bool.and_eq_true,
    decide_eq_true_eq]
  have hpos := t.month_pos
  have hle := t.month_le
  have hdpos := t.day_pos
  have hhlt := t.hour_lt
  have hmlt := t.minute_lt
  have hslt := t.second_lt
  rw [le_ofNat_iff hmo, ofNat_le_iff hmo, le_ofNat_iff hd, ofNat_le_iff hd, ofNat_le_iff hh,
    ofNat_le_iff hmi, ofNat_le_iff hs]
  exact ⟨⟨⟨⟨⟨⟨hpos, hle⟩, hdpos⟩, hlast⟩, Nat.le_of_lt_succ hhlt⟩, Nat.le_of_lt_succ hmlt⟩,
    Nat.le_of_lt_succ hslt⟩

end Averin
