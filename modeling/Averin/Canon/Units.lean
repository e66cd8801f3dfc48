import Averin.Canon.Strings

/-!
# Code units and bytes of scalars

The strict decoder refuses exactly the sequences of code units with an unpaired surrogate, and is
the inverse of the encoder on the others. Reading one scalar after the other accepts exactly the
UTF-8 forms.
-/

namespace Averin

/-- The first unit of a pair. -/
def isHighSurrogate (u : UInt16) : Bool := 0xD800 ≤ u.toNat && u.toNat ≤ 0xDBFF

/-- The second unit of a pair. -/
def isLowSurrogate (u : UInt16) : Bool := 0xDC00 ≤ u.toNat && u.toNat ≤ 0xDFFF

theorem isHighSurrogate_iff {u : UInt16} :
    isHighSurrogate u = true ↔ 0xD800 ≤ u.toNat ∧ u.toNat ≤ 0xDBFF := by
  simp [isHighSurrogate]

theorem isLowSurrogate_iff {u : UInt16} :
    isLowSurrogate u = true ↔ 0xDC00 ≤ u.toNat ∧ u.toNat ≤ 0xDFFF := by
  simp [isLowSurrogate]

/-- A high surrogate without a low one after it, or a low one without a high one before it. -/
def UnpairedSurrogate (units : List UInt16) : Prop :=
  ∃ i u, units[i]? = some u ∧
    (isHighSurrogate u = true ∧ ¬ units[i + 1]?.any isLowSurrogate = true ∨
      isLowSurrogate u = true ∧ ¬ ∃ j hi, i = j + 1 ∧ units[j]? = some hi ∧
        isHighSurrogate hi = true)

/-- A first unit is no second one. -/
theorem isLowSurrogate_of_high {u : UInt16} (h : isHighSurrogate u = true) :
    isLowSurrogate u = false := by
  simp only [isHighSurrogate, isLowSurrogate, Bool.and_eq_true, decide_eq_true_eq,
    Bool.and_eq_false_iff, decide_eq_false_iff_not] at h ⊢
  omega

/-- Nothing has no unit without its pair. -/
theorem not_unpairedSurrogate_nil : ¬ UnpairedSurrogate [] := by
  rintro ⟨i, u, hu, -⟩
  simp at hu

/-- In front of units, a unit that is no surrogate changes nothing. -/
theorem unpairedSurrogate_cons_iff {u : UInt16} {units : List UInt16}
    (hhigh : isHighSurrogate u = false) (hlow : isLowSurrogate u = false) :
    UnpairedSurrogate (u :: units) ↔ UnpairedSurrogate units := by
  constructor
  · rintro ⟨i, v, hv, hcase⟩
    cases i with
    | zero =>
      obtain rfl := Option.some.inj hv
      simp [hhigh, hlow] at hcase
    | succ i =>
      refine ⟨i, v, hv, hcase.imp id fun ⟨hv', hno⟩ => ⟨hv', ?_⟩⟩
      rintro ⟨j, hi, rfl, hj, hhi⟩
      exact hno ⟨j + 1, hi, rfl, hj, hhi⟩
  · rintro ⟨i, v, hv, hcase⟩
    refine ⟨i + 1, v, hv, hcase.imp id fun ⟨hv', hno⟩ => ⟨hv', ?_⟩⟩
    rintro ⟨j, hi, hij, hj, hhi⟩
    cases j with
    | zero =>
      obtain rfl := Option.some.inj hj
      simp [hhigh] at hhi
    | succ j => exact hno ⟨j, hi, by omega, hj, hhi⟩

/-- In front of units, a pair changes nothing. -/
theorem unpairedSurrogate_pair_iff {u lo : UInt16} {units : List UInt16}
    (hhigh : isHighSurrogate u = true) (hlow : isLowSurrogate lo = true) :
    UnpairedSurrogate (u :: lo :: units) ↔ UnpairedSurrogate units := by
  have hlo : isHighSurrogate lo = false := by
    rw [Bool.eq_false_iff]
    intro h
    rw [isLowSurrogate_of_high h] at hlow
    cases hlow
  constructor
  · rintro ⟨i, v, hv, hcase⟩
    match i with
    | 0 =>
      obtain rfl := Option.some.inj hv
      simp [isLowSurrogate_of_high hhigh, hlow] at hcase
    | 1 =>
      obtain rfl := Option.some.inj hv
      rw [hlo] at hcase
      obtain ⟨-, hno⟩ := hcase.resolve_left (by simp)
      exact absurd ⟨0, u, rfl, rfl, hhigh⟩ hno
    | i + 2 =>
      refine ⟨i, v, hv, hcase.imp id fun ⟨hv', hno⟩ => ⟨hv', ?_⟩⟩
      rintro ⟨j, hi, rfl, hj, hhi⟩
      exact hno ⟨j + 2, hi, rfl, hj, hhi⟩
  · rintro ⟨i, v, hv, hcase⟩
    refine ⟨i + 2, v, hv, hcase.imp id fun ⟨hv', hno⟩ => ⟨hv', ?_⟩⟩
    rintro ⟨j, hi, hij, hj, hhi⟩
    match j with
    | 0 => omega
    | 1 =>
      obtain rfl := Option.some.inj hj
      rw [hlo] at hhi
      cases hhi
    | j + 2 => exact hno ⟨j, hi, by omega, hj, hhi⟩

/-- The decoding loop gets through exactly if no surrogate is unpaired. -/
theorem decodeUtf16Loop_isOk_iff {units : List UInt16} {out : List UInt8} :
    (∃ r, decodeUtf16Loop units out = .ok r) ↔ ¬ UnpairedSurrogate units := by
  fun_induction decodeUtf16Loop units out with
  | case1 out => exact iff_of_true ⟨_, rfl⟩ not_unpairedSurrogate_nil
  | case2 u out hu =>
    refine iff_of_false (by simp) (not_not.mpr ⟨0, u, rfl, Or.inl ⟨isHighSurrogate_iff.mpr hu, ?_⟩⟩)
    simp
  | case3 u out hu lo units hlo =>
    refine iff_of_false (by simp) (not_not.mpr ⟨0, u, rfl, Or.inl ⟨isHighSurrogate_iff.mpr hu, ?_⟩⟩)
    have hnot : ¬ isLowSurrogate lo = true := by
      rw [isLowSurrogate_iff]
      omega
    simpa using hnot
  | case4 u out hu lo units hlo ih =>
    have hpair := @unpairedSurrogate_pair_iff u lo units (isHighSurrogate_iff.mpr hu)
      (isLowSurrogate_iff.mpr (by omega))
    exact ih.trans (not_congr hpair.symm)
  | case5 u units out hu hl =>
    refine iff_of_false (by simp) (not_not.mpr ⟨0, u, rfl, Or.inr ⟨isLowSurrogate_iff.mpr hl, ?_⟩⟩)
    rintro ⟨j, hi, hj, -⟩
    omega
  | case6 u units out hu hl ih =>
    have hcons := @unpairedSurrogate_cons_iff u units
      (by rwa [Bool.eq_false_iff, ne_eq, isHighSurrogate_iff])
      (by rwa [Bool.eq_false_iff, ne_eq, isLowSurrogate_iff])
    exact ih.trans (not_congr hcons.symm)

/-- Units are decoded if every surrogate has its pair. -/
theorem decodeUtf16Strict_isOk_iff {units : List UInt16} :
    (∃ t, decodeUtf16Strict units = .ok t) ↔ ¬ UnpairedSurrogate units := by
  rw [← @decodeUtf16Loop_isOk_iff units []]
  constructor
  · rintro ⟨t, ht⟩
    rw [decodeUtf16Strict_eq_ok_iff.mp ht, decodeUtf16Loop_utf16]
    exact ⟨_, rfl⟩
  · rintro ⟨r, hr⟩
    obtain ⟨cs, rfl, -⟩ := decodeUtf16Loop_sound hr
    exact ⟨.ofList cs, decodeUtf16Strict_eq_ok_iff.mpr (by rw [String.toList_ofList])⟩

/-- The scalars of all of `s` from `i` on, read one after the other; `fuel` bounds their number. -/
def readScalars (s : List UInt8) : (fuel i : Nat) → Except ParseError (List Nat)
  | 0, i => .error (.atOffset .unexpectedEnd i)
  | fuel + 1, i =>
    if s.length ≤ i then .ok []
    else
      match nextUtf8Char s i with
      | .error e => .error e
      | .ok (c, len) =>
        match readScalars s fuel (i + len) with
        | .error e => .error e
        | .ok cs => .ok (c :: cs)

/-- Scalars are read from just the bytes that encode them. -/
theorem readScalars_eq_ok_iff {s : List UInt8} {fuel i : Nat} (hfuel : s.length - i < fuel)
    {ns : List Nat} :
    readScalars s fuel i = .ok ns ↔
      ∃ cs : List Char, cs.map Char.toNat = ns ∧ s.drop i = utf8 cs := by
  induction fuel generalizing i ns with
  | zero => omega
  | succ fuel ih =>
    rw [readScalars]
    split_ifs with hend
    · rw [List.drop_eq_nil_of_le hend]
      constructor
      · intro h
        exact ⟨[], Except.ok.inj h, rfl⟩
      · rintro ⟨cs, rfl, hcs⟩
        cases cs with
        | nil => rfl
        | cons c cs =>
          obtain ⟨b, rest, hb, -⟩ := exists_lead c
          rw [utf8_cons, hb] at hcs
          cases hcs
    · constructor
      · intro h
        cases hnext : nextUtf8Char s i with
        | error e => simp [hnext] at h
        | ok p =>
          obtain ⟨c, len⟩ := p
          simp only [hnext] at h
          obtain ⟨ch, rfl, hreads⟩ := nextUtf8Char_eq_ok_iff.mp hnext
          obtain ⟨b, rest, hb, -⟩ := exists_lead ch
          have hlen : 0 < len := by
            have := hreads.2
            rw [hb, List.length_cons] at this
            omega
          cases hrest : readScalars s fuel (i + len) with
          | error e => simp [hrest] at h
          | ok cs =>
            obtain ⟨chs, rfl, hchs⟩ := (ih (by omega)).mp hrest
            simp only [hrest, Except.ok.injEq] at h
            exact ⟨ch :: chs, h, by rw [hreads.1, hchs, utf8_cons]⟩
      · rintro ⟨cs, rfl, hcs⟩
        cases cs with
        | nil =>
          have := List.drop_eq_nil_iff.mp hcs
          omega
        | cons c cs =>
          obtain ⟨b, rest, hb, -⟩ := exists_lead c
          rw [utf8_cons] at hcs
          have hreads : Reads s i (String.utf8EncodeChar c)
              (i + (String.utf8EncodeChar c).length) := Reads.of_drop hcs
          have hrest : s.drop (i + (String.utf8EncodeChar c).length) = utf8 cs := by
            rw [← List.drop_drop, hcs, List.drop_left]
          have hpos : 0 < (String.utf8EncodeChar c).length := by simp [hb]
          have hnext := nextUtf8Char_eq_ok_iff.mpr ⟨c, rfl, hreads⟩
          have hmore := (ih (i := i + (String.utf8EncodeChar c).length) (by omega)).mpr
            ⟨cs, rfl, hrest⟩
          rw [hnext]
          dsimp only
          rw [hmore]
          rfl

/-- The encoder and the strict decoder of code units are inverse to each other between the texts
and the sequences without an unpaired surrogate, on which alone the decoder succeeds; and the
reader of bytes accepts exactly the UTF-8 forms and returns their scalars. -/
theorem scalarCodecs_exact (t : String) (units : List UInt16) (s : List UInt8) (ns : List Nat) :
    decodeUtf16Strict (utf16Units (bytes t)) = .ok t ∧
      (decodeUtf16Strict units = .ok t ↔ utf16Units (bytes t) = units) ∧
      ((∃ e, decodeUtf16Strict units = .error e) ↔ UnpairedSurrogate units) ∧
      (readScalars s (s.length + 1) 0 = .ok ns ↔
        ∃ cs : List Char, cs.map Char.toNat = ns ∧ s = utf8 cs) := by
  refine ⟨?_, ?_, ?_, ?_⟩
  · rw [decodeUtf16Strict_eq_ok_iff, utf16Units_bytes]
  · rw [decodeUtf16Strict_eq_ok_iff, utf16Units_bytes]
    exact eq_comm
  · rw [← not_iff_not, ← decodeUtf16Strict_isOk_iff]
    cases decodeUtf16Strict units <;> simp
  · rw [readScalars_eq_ok_iff (by omega), List.drop_zero]

end Averin
