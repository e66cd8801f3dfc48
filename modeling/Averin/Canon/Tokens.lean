import Averin.Core.Cursor
import Averin.Canon.Parse
import Averin.Canon.Grammar

/-!
# Tokens: whitespace, numbers and strings

Each scanner of the parser is compared with its grammar rule in both directions: what
it consumes is a word of the rule, and on a word of the rule followed by anything that
could not extend it, it consumes exactly that word.
-/

namespace Averin

variable {s w : List UInt8} {i j : Nat}

@[simp] theorem byteAt_iff {b : UInt8} : byteAt s i b = true ↔ s[i]? = some b := by
  simp [byteAt]

/-- Another byte stands at a position. -/
theorem byteAt_eq_false {b c : UInt8} (h : s[i]? = some c) (hne : c ≠ b) :
    byteAt s i b = false := by
  simp [byteAt, h, hne]

/-- A byte is passed if it stands there. -/
theorem expect_eq_ok_iff {b : UInt8} : expect s i b = .ok j ↔ s[i]? = some b ∧ j = i + 1 := by
  unfold expect
  split_ifs with h
  · simp [byteAt_iff.mp h, eq_comm]
  · simp only [false_iff]
    exact fun he => h (byteAt_iff.mpr he.1)

theorem isWs_iff {b : UInt8} : isWs b = true ↔ b ∈ bytes " \t\n\r" := by
  have hb : bytes " \t\n\r" = [' '.toUInt8, '\t'.toUInt8, '\n'.toUInt8, '\r'.toUInt8] := by
    decide
  simp [isWs, hb, or_assoc]

/-- The whitespace scanner reads whitespace and stops before any other byte. -/
theorem skipWs_reads (s : List UInt8) (i : Nat) :
    ∃ w, WsText w ∧ Reads s i w (skipWs s i) := by
  refine ⟨(s.drop i).takeWhile isWs, ?_, Reads.takeWhile s i isWs⟩
  intro b hb
  exact isWs_iff.mp (List.mem_takeWhile_imp hb)

/-- White space is skipped up to where it ends. -/
theorem skipWs_eq (h : Reads s i w j) (hw : WsText w)
    (hj : ∀ b, s[j]? = some b → b ∉ bytes " \t\n\r") : skipWs s i = j := by
  have ht := takeWhile_drop_eq (p := isWs) h (fun b hb => isWs_iff.mpr (hw b hb))
    (fun b hb => by simpa [← isWs_iff] using hj b hb)
  rw [skipWs, ht, ← h.2]

/-- Whitespace already skipped is not skipped again. -/
theorem skipWs_skipWs (s : List UInt8) (i : Nat) : skipWs s (skipWs s i) = skipWs s i := by
  apply skipWs_eq (Reads.refl s _) (by simp [WsText])
  intro b hb
  rw [← isWs_iff, Bool.not_eq_true]
  exact not_of_getElem?_takeWhile hb

/-- A word is read if it stands there. -/
theorem parseLiteral_eq_ok_iff {kw : List UInt8} {err : ErrorKind} {v v' : CanonValue} :
    parseLiteral s i kw err v = .ok (v', j) ↔ v' = v ∧ Reads s i kw j := by
  unfold parseLiteral
  split_ifs with h
  · obtain ⟨r, hr⟩ := List.isPrefixOf_iff_prefix.mp h
    have hread := Reads.of_drop hr.symm
    constructor
    · intro he
      simp only [Except.ok.injEq, Prod.mk.injEq] at he
      exact ⟨he.1.symm, he.2 ▸ hread⟩
    · rintro ⟨rfl, hj⟩
      rw [hj.2]
  · constructor
    · intro he
      cases he
    · rintro ⟨-, hj⟩
      exact absurd (List.isPrefixOf_iff_prefix.mpr ⟨s.drop j, hj.1.symm⟩) h

/-- The digits are a range of bytes. -/
theorem mem_digitBytes_iff {b : UInt8} :
    b ∈ digitBytes ↔ '0'.toNat ≤ b.toNat ∧ b.toNat ≤ '9'.toNat := by
  have hb : digitBytes = [0x30, 0x31, 0x32, 0x33, 0x34, 0x35, 0x36, 0x37, 0x38, 0x39] := by
    decide
  have h0 : '0'.toNat = 48 := rfl
  have h9 : '9'.toNat = 57 := rfl
  simp only [hb, List.mem_cons, List.not_mem_nil, or_false, ← UInt8.toNat_inj]
  simp only [UInt8.reduceToNat]
  omega

theorem isDigit_iff {b : UInt8} : isDigit b = true ↔ b ∈ digitBytes := by
  rw [mem_digitBytes_iff]
  simp only [isDigit, Bool.and_eq_true, decide_eq_true_eq, UInt8.le_iff_toNat_le]
  rfl

/-- A digit stands at a position. -/
theorem digitAt_iff : digitAt s i = true ↔ ∃ b ∈ digitBytes, s[i]? = some b := by
  unfold digitAt
  cases h : s[i]? with
  | none => simp
  | some b => simp [isDigit_iff]

/-- What may not stand right after a number. -/
def NumberStop (s : List UInt8) (j : Nat) : Prop :=
  ∀ b, s[j]? = some b →
    b ∉ digitBytes ∧ b ≠ '.'.toUInt8 ∧ b ≠ 'e'.toUInt8 ∧ b ≠ 'E'.toUInt8

/-- The integer part is a canonical digit run and stops before any further digit. -/
theorem integerEnd_reads (h : integerEnd s i = some j) :
    ∃ ds, DigitsText ds ∧ Reads s i ds j := by
  unfold integerEnd at h
  split_ifs at h with h0 hd
  · cases h
    exact ⟨_, .zero, Reads.of_getElem? (byteAt_iff.mp h0)⟩
  · cases h
    obtain ⟨b, hb, hs⟩ := digitAt_iff.mp hd
    refine ⟨b :: (s.drop (i + 1)).takeWhile isDigit, ?_,
      Reads.cons hs (Reads.takeWhile s (i + 1) isDigit)⟩
    refine .nonzero hb ?_ fun c hc => isDigit_iff.mp (List.mem_takeWhile_imp hc)
    rintro rfl
    exact h0 (byteAt_iff.mpr hs)

/-- Digits are passed up to where they end. -/
theorem integerEnd_eq {ds : List UInt8} (hd : DigitsText ds) (h : Reads s i ds j)
    (hj : ∀ b, s[j]? = some b → b ∉ digitBytes) : integerEnd s i = some j := by
  cases hd with
  | zero =>
    rw [integerEnd, if_pos (byteAt_iff.mpr h.getElem?), h.2]
    rfl
  | @nonzero d ds hd hne hds =>
    have h0 : byteAt s i '0'.toUInt8 = false := byteAt_eq_false h.getElem? hne
    have ht := takeWhile_drop_eq (p := isDigit) h.tail (fun b hb => isDigit_iff.mpr (hds b hb))
      (fun b hb => by simpa [← isDigit_iff] using hj b hb)
    rw [integerEnd, h0, if_neg Bool.false_ne_true, if_pos (digitAt_iff.mpr ⟨d, hd, h.getElem?⟩),
      ht, h.tail.2]

/-- Digits are digits. -/
theorem DigitsText.mem_digits {ds : List UInt8} (h : DigitsText ds) :
    ∀ b ∈ ds, b ∈ digitBytes := by
  cases h with
  | zero => exact forall_mem_of_all (by decide)
  | nonzero hd _ hds => simpa using ⟨hd, hds⟩

theorem DigitsText.ne_nil {ds : List UInt8} (h : DigitsText ds) : ds ≠ [] := by
  cases h <;> simp

/-- Continuing a decimal value with more digits. -/
def decimalFrom (m : Nat) (ds : List UInt8) : Nat :=
  ds.foldl (fun n b => n * 10 + (b.toNat - '0'.toNat)) m

/-- Digits never lower a number. -/
theorem le_decimalFrom (m : Nat) (ds : List UInt8) : m ≤ decimalFrom m ds := by
  induction ds generalizing m with
  | nil => exact le_refl m
  | cons b ds ih =>
    have h := ih (m * 10 + (b.toNat - '0'.toNat))
    rw [decimalFrom, List.foldl_cons]
    exact le_trans (by omega) h

/-- Once out of range, the digit loop stays out of range. -/
theorem decimalStep_false (limit m : Nat) (ds : List UInt8) :
    (ds.foldl (decimalStep limit) (m, false)).2 = false := by
  induction ds generalizing m with
  | nil => rfl
  | cons b ds ih =>
    rw [List.foldl_cons, decimalStep]
    split_ifs <;> exact ih _

/-- The digit loop computes the value exactly when it stays within the limit. -/
theorem foldl_decimalStep (limit : Nat) (hl : 9 ≤ limit) {ds : List UInt8}
    (hds : ∀ b ∈ ds, b ∈ digitBytes) (m : Nat) :
    (decimalFrom m ds ≤ limit →
      ds.foldl (decimalStep limit) (m, true) = (decimalFrom m ds, true)) ∧
    (limit < decimalFrom m ds → m ≤ limit →
      (ds.foldl (decimalStep limit) (m, true)).2 = false) := by
  induction ds generalizing m with
  | nil => exact ⟨fun _ => rfl, fun h hm => absurd hm (not_le.mpr h)⟩
  | cons b ds ih =>
    have hb := mem_digitBytes_iff.mp (hds b List.mem_cons_self)
    have h0 : '0'.toNat = 48 := rfl
    have h9 : '9'.toNat = 57 := rfl
    obtain ⟨ih1, ih2⟩ := ih (fun c hc => hds c (List.mem_cons_of_mem b hc))
      (m * 10 + (b.toNat - '0'.toNat))
    have hge := le_decimalFrom (m * 10 + (b.toNat - '0'.toNat)) ds
    have hcons : decimalFrom m (b :: ds) = decimalFrom (m * 10 + (b.toNat - '0'.toNat)) ds := rfl
    -- The guard `(limit - d) / 10 < m` is the overflow test `limit < 10 * m + d`.
    have hguard : (limit - (b.toNat - '0'.toNat)) / 10 < m ↔
        limit < m * 10 + (b.toNat - '0'.toNat) := by
      rw [Nat.div_lt_iff_lt_mul (by omega)]
      omega
    rw [List.foldl_cons, decimalStep, hcons]
    constructor
    · intro h
      rw [if_neg (by rw [hguard]; omega)]
      exact ih1 h
    · intro h _
      split_ifs with hg
      · exact decimalStep_false limit m ds
      · exact ih2 h (by rw [hguard] at hg; omega)

theorem decimalValue_eq (ds : List UInt8) : decimalValue ds = decimalFrom 0 ds := rfl

/-- `decimal_i64` returns exactly the spelled value when it fits, and fails otherwise. -/
theorem decimalI64_eq_some_iff {ds : List UInt8} (h : Reads s i ds j)
    (hds : ∀ b ∈ ds, b ∈ digitBytes) (negative : Bool) {n : Int64} :
    decimalI64 s i j negative = some n ↔
      n.toInt = if negative then -(decimalValue ds : Int) else decimalValue ds := by
  have htake : (s.drop i).take (j - i) = ds := by
    rw [h.1, h.2, Nat.add_sub_cancel_left, List.take_left]
  have hlt := n.toInt_lt
  have hge := n.le_toInt
  rw [decimalValue_eq]
  cases negative with
  | false =>
    obtain ⟨h1, h2⟩ := foldl_decimalStep 9223372036854775807 (by decide) hds 0
    simp only [decimalI64, htake, Bool.false_eq_true, if_false, Bool.not_false, if_true]
    by_cases hr : decimalFrom 0 ds ≤ 9223372036854775807
    · rw [h1 hr]
      simp only [Bool.not_true, Bool.false_eq_true, if_false, Option.some.injEq]
      rw [← Int64.toInt_inj, Int64.toInt_ofInt_of_le (by omega) (by omega)]
      exact eq_comm
    · rw [h2 (by omega) (by omega)]
      simp only [Bool.not_false, if_true, reduceCtorEq, false_iff]
      omega
  | true =>
    obtain ⟨h1, h2⟩ := foldl_decimalStep 9223372036854775808 (by decide) hds 0
    simp only [decimalI64, htake, if_true, Bool.not_true, Bool.false_eq_true, if_false]
    by_cases hr : decimalFrom 0 ds ≤ 9223372036854775808
    · rw [h1 hr]
      simp only [Bool.not_true, Bool.false_eq_true, if_false]
      split_ifs with hm
      · rw [hm, Option.some.injEq, ← Int64.toInt_inj, Int64.toInt_minValue]
        norm_num
        exact eq_comm
      · rw [Option.some.injEq, ← Int64.toInt_inj, Int64.toInt_ofInt_of_le (by omega) (by omega)]
        exact eq_comm
    · rw [h2 (by omega) (by omega)]
      simp only [Bool.not_false, if_true, reduceCtorEq, false_iff]
      omega

theorem not_mem_digits_minus : '-'.toUInt8 ∉ digitBytes := by decide

/-- The number parser returns a word of the integer grammar with its value. -/
theorem parseNumber_sound {n : Int64} (h : parseNumber s i = .ok (n, j)) :
    ∃ w, IntText w n ∧ Reads s i w j := by
  unfold parseNumber at h
  by_cases hm : byteAt s i '-'.toUInt8 = true
  · simp only [hm, if_true, Bool.true_and] at h
    cases he : integerEnd s (i + 1) with
    | none => simp [he] at h
    | some k =>
      obtain ⟨ds, hds, hr⟩ := integerEnd_reads he
      simp only [he] at h
      split_ifs at h with h1 h2 h3
      cases hd : decimalI64 s (i + 1) k true with
      | none => simp [hd] at h
      | some m =>
        simp only [hd, Except.ok.injEq, Prod.mk.injEq] at h
        obtain ⟨rfl, rfl⟩ := h
        refine ⟨'-'.toUInt8 :: ds, .neg hds ?_ ?_, Reads.cons (byteAt_iff.mp hm) hr⟩
        · rintro rfl
          apply h3
          have hk := hr.2
          simp only [List.length_singleton] at hk
          simp [byteAt_iff.mpr hr.getElem?, hk]
        · simpa using (decimalI64_eq_some_iff hr hds.mem_digits _).mp hd
  · simp only [Bool.not_eq_true] at hm
    simp only [hm, Bool.false_eq_true, if_false, Bool.false_and] at h
    cases he : integerEnd s i with
    | none => simp [he] at h
    | some k =>
      obtain ⟨ds, hds, hr⟩ := integerEnd_reads he
      simp only [he] at h
      split_ifs at h with h1 h2
      cases hd : decimalI64 s i k false with
      | none => simp [hd] at h
      | some m =>
        simp only [hd, Except.ok.injEq, Prod.mk.injEq] at h
        obtain ⟨rfl, rfl⟩ := h
        exact ⟨ds, .nonneg hds (by simpa using (decimalI64_eq_some_iff hr hds.mem_digits _).mp hd),
          hr⟩

/-- A number that ends goes on with neither a fraction nor an exponent. -/
theorem NumberStop.not_byteAt {b : UInt8} (h : NumberStop s j)
    (hb : b = '.'.toUInt8 ∨ b = 'e'.toUInt8 ∨ b = 'E'.toUInt8) : byteAt s j b = false := by
  rw [← Bool.not_eq_true, byteAt_iff]
  intro hs
  obtain ⟨_, h1, h2, h3⟩ := h b hs
  rcases hb with rfl | rfl | rfl <;> contradiction

/-- On a word of the integer grammar the number parser consumes exactly that word. -/
theorem parseNumber_complete {n : Int64} (hw : IntText w n) (h : Reads s i w j)
    (hj : NumberStop s j) : parseNumber s i = .ok (n, j) := by
  have hdot := hj.not_byteAt (Or.inl rfl)
  have he := hj.not_byteAt (Or.inr (Or.inl rfl))
  have hE := hj.not_byteAt (Or.inr (Or.inr rfl))
  cases hw with
  | nonneg hds hn =>
    have hm : byteAt s i '-'.toUInt8 = false := by
      obtain ⟨b, ds, rfl⟩ := List.exists_cons_of_ne_nil hds.ne_nil
      refine byteAt_eq_false h.getElem? ?_
      rintro rfl
      exact not_mem_digits_minus (hds.mem_digits _ List.mem_cons_self)
    have hend := integerEnd_eq hds h fun b hb => (hj b hb).1
    have hval := (decimalI64_eq_some_iff h hds.mem_digits false).mpr
      (by simpa using hn)
    simp [parseNumber, hm, hend, hdot, he, hE, hval]
  | @neg ds n hds hne hn =>
    have hm := byteAt_iff.mpr h.getElem?
    have hend := integerEnd_eq hds h.tail fun b hb => (hj b hb).1
    have hval := (decimalI64_eq_some_iff h.tail hds.mem_digits true).mpr
      (by simpa using hn)
    have hzero : (j - (i + 1) == 1 && byteAt s (i + 1) '0'.toUInt8) = false := by
      rw [← Bool.not_eq_true, Bool.and_eq_true, beq_iff_eq, byteAt_iff]
      rintro ⟨hlen, hs⟩
      have hl : ds.length = 1 := by have := h.tail.2; omega
      obtain ⟨d, rfl⟩ := List.length_eq_one_iff.mp hl
      exact hne (congrArg (· :: []) (Option.some.inj (h.tail.getElem?.symm.trans hs)))
    simp [parseNumber, hm, hend, hdot, he, hE, hval, hzero]

end Averin
