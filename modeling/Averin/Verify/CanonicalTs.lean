import Averin.Verify.Temporal

/-!
# Canonical times

Times are compared as texts. A text of the one accepted shape with fields in range is canonical.
-/

namespace Averin

/-- `u8::is_ascii_digit`. -/
def isAsciiDigit (c : UInt8) : Bool := 0x30 ≤ c && c ≤ 0x39

/-- The shape `YYYY-MM-DDThh:mm:ss.mmmZ`. -/
def canonicalShape (b : List UInt8) : Bool :=
  ([0, 1, 2, 3, 5, 6, 8, 9, 11, 12, 14, 15, 17, 18, 20, 21, 22].all fun i =>
      isAsciiDigit (b.getD i 0)) &&
    b.getD 4 0 == 0x2D && b.getD 7 0 == 0x2D && b.getD 10 0 == 0x54 && b.getD 13 0 == 0x3A &&
    b.getD 16 0 == 0x3A && b.getD 19 0 == 0x2E && b.getD 23 0 == 0x5A

/-- A number of two digits. -/
def twoDigits (b : List UInt8) (i : Nat) : UInt8 :=
  (b.getD i 0 - 0x30) * 10 + (b.getD (i + 1) 0 - 0x30)

/-- The one shape, with every field in its range. A day is not compared with its month. -/
def isCanonicalTs (s : String) : Bool :=
  let b := bytes s
  b.length == 24 && canonicalShape b &&
    (1 ≤ twoDigits b 5 && twoDigits b 5 ≤ 12 && 1 ≤ twoDigits b 8 && twoDigits b 8 ≤ 31 &&
      twoDigits b 11 ≤ 23 && twoDigits b 14 ≤ 59 && twoDigits b 17 ≤ 59)

/-- A canonical time is plain text. -/
theorem isAscii_of_isCanonicalTs {s : String} (h : isCanonicalTs s = true) : isAscii s = true := by
  unfold isCanonicalTs canonicalShape at h
  simp only [Bool.and_eq_true, List.all_eq_true, beq_iff_eq] at h
  obtain ⟨⟨hlength, ⟨⟨⟨⟨⟨⟨hdigits, h4⟩, h7⟩, h10⟩, h13⟩, h16⟩, h19⟩, h23⟩, -⟩ := h
  have hplain : ∀ i < 24, (bytes s).getD i 0 < 0x80 := by
    intro i hi
    have hcover : i ∈ [0, 1, 2, 3, 5, 6, 8, 9, 11, 12, 14, 15, 17, 18, 20, 21, 22] ∨ i = 4 ∨ i = 7 ∨
        i = 10 ∨ i = 13 ∨ i = 16 ∨ i = 19 ∨ i = 23 := by
      simp only [List.mem_cons, List.not_mem_nil, or_false]
      omega
    rcases hcover with hdigit | rfl | rfl | rfl | rfl | rfl | rfl | rfl
    · have hle := hdigits i hdigit
      rw [isAsciiDigit, Bool.and_eq_true, decide_eq_true_eq, decide_eq_true_eq] at hle
      exact UInt8.lt_of_le_of_lt hle.2 (show (0x39 : UInt8) < 0x80 by decide)
    all_goals simp only [*]; decide
  apply List.all_eq_true.mpr
  intro b hb
  obtain ⟨i, hi, rfl⟩ := List.mem_iff_getElem.mp hb
  have hlt := hplain i (by omega)
  rw [List.getD_eq_getElem?_getD, List.getElem?_eq_getElem hi] at hlt
  exact decide_eq_true hlt

end Averin
