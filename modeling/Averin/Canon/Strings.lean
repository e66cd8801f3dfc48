import Averin.Canon.Tokens

/-!
# Strings

The string loop against the string grammar. Raw text is read by the strict UTF-8
reader, escapes by the two tables, and the collected units are decoded at the end.
-/

namespace Averin

variable {s w : List UInt8} {i j : Nat}

/-- The lead byte test in numbers. -/
theorem utf8Length_eq (lead : UInt8) :
    utf8Length lead =
      if lead.toNat < 0x80 then some 1
      else if lead.toNat / 32 = 6 then some 2
      else if lead.toNat / 16 = 14 then some 3
      else if lead.toNat / 8 = 30 then some 4
      else none := by
  simp only [utf8Length, UInt8.lt_iff_toNat_lt, ← UInt8.toNat_inj, UInt8.toNat_shiftRight,
    UInt8.reduceToNat, Nat.shiftRight_eq_div_pow]

theorem isContinuation_iff (b : UInt8) :
    isContinuation b = true ↔ 0x80 ≤ b.toNat ∧ b.toNat ≤ 0xBF := by
  simp only [isContinuation, Bool.and_eq_true, decide_eq_true_eq, UInt8.le_iff_toNat_le]
  rfl

/-- An accepted sequence is the UTF-8 form of a scalar value. -/
theorem utf8Scalar_sound {lead : UInt8} {rest : List UInt8} {len c : Nat}
    (hl : utf8Length lead = some len) (h : utf8Scalar (lead :: rest) len = some c) :
    (c < 0xD800 ∨ 0xDFFF < c ∧ c < 0x110000) ∧
      ∃ w r, lead :: rest = w ++ r ∧ w.length = len ∧ Utf8Shape c w := by
  rw [utf8Length_eq] at hl
  have hb := lead.toNat_lt
  split_ifs at hl with h1 h2 h3 h4 <;> cases hl
  · simp only [utf8Scalar, Option.some.injEq] at h
    subst h
    exact ⟨by omega, [lead], rest, rfl, rfl, .one lead h1 rfl⟩
  · match rest, h with
    | b1 :: r, h =>
      rw [utf8Scalar] at h
      split_ifs at h with hc
      rw [isContinuation_iff] at hc
      obtain rfl := Option.some.inj h
      exact ⟨by omega, [lead, b1], r, rfl, rfl,
        .two lead b1 (by omega) (by omega) (by omega) (by omega)⟩
  · match rest, h with
    | [b1], h => simp [utf8Scalar] at h
    | b1 :: b2 :: r, h =>
      simp only [utf8Scalar, Bool.not_eq_true', ← Bool.not_eq_true, isContinuation_iff,
        if_true] at h
      rw [if_neg (c := lead.toNat = 0xF0) (by omega), if_neg (c := lead.toNat = 0xF4) (by omega)]
        at h
      split_ifs at h with he hd hc hc hc
      all_goals
        obtain rfl := Option.some.inj h
        exact ⟨by omega, [lead, b1, b2], r, rfl, rfl,
          .three lead b1 b2 (by omega) (by omega) (by omega) (by omega) (by omega)⟩
  · match rest, h with
    | [b1], h => simp [utf8Scalar] at h
    | [b1, b2], h => simp [utf8Scalar] at h
    | b1 :: b2 :: b3 :: r, h =>
      simp only [utf8Scalar, Bool.not_eq_true', ← Bool.not_eq_true, isContinuation_iff] at h
      rw [if_neg (c := lead.toNat = 0xE0) (by omega), if_neg (c := lead.toNat = 0xED) (by omega)]
        at h
      split_ifs at h with he hd hc hc hc
      all_goals
        obtain rfl := Option.some.inj h
        exact ⟨by omega, [lead, b1, b2, b3], r, rfl, rfl,
          .four lead b1 b2 b3 (by omega) (by omega) (by omega) (by omega) (by omega) (by omega)⟩

/-- The form of every scalar value is accepted. -/
theorem utf8Scalar_shape {n : Nat} (hn : n < 0xD800 ∨ 0xDFFF < n ∧ n < 0x110000)
    {w : List UInt8} (hw : Utf8Shape n w) (r : List UInt8) :
    ∃ lead rest, w = lead :: rest ∧ utf8Length lead = some w.length ∧
      utf8Scalar (w ++ r) w.length = some n := by
  cases hw with
  | one b0 h1 h2 =>
    refine ⟨b0, [], rfl, ?_, ?_⟩
    · rw [utf8Length_eq, if_pos (by omega)]
      rfl
    · simp [utf8Scalar, h2]
  | two b0 b1 h1 h2 h3 h4 =>
    refine ⟨b0, [b1], rfl, ?_, ?_⟩
    · rw [utf8Length_eq, if_neg (by omega), if_pos (by omega)]
      rfl
    · simp only [List.cons_append, List.nil_append, List.length_cons, List.length_nil,
        utf8Scalar, isContinuation_iff]
      rw [if_pos (by omega), Option.some.injEq]
      omega
  | three b0 b1 b2 h1 h2 h3 h4 h5 =>
    refine ⟨b0, [b1, b2], rfl, ?_, ?_⟩
    · rw [utf8Length_eq, if_neg (by omega), if_neg (by omega), if_pos (by omega)]
      rfl
    · simp only [List.cons_append, List.nil_append, List.length_cons, List.length_nil,
        utf8Scalar, Bool.not_eq_true', ← Bool.not_eq_true, isContinuation_iff]
      rw [if_neg, if_pos trivial, Option.some.injEq]
      · omega
      · split_ifs <;> omega
  | four b0 b1 b2 b3 h1 h2 h3 h4 h5 h6 =>
    refine ⟨b0, [b1, b2, b3], rfl, ?_, ?_⟩
    · rw [utf8Length_eq, if_neg (by omega), if_neg (by omega), if_neg (by omega),
        if_pos (by omega)]
      rfl
    · simp only [List.cons_append, List.nil_append, List.length_cons, List.length_nil,
        utf8Scalar, Bool.not_eq_true', ← Bool.not_eq_true, isContinuation_iff]
      rw [if_neg, if_neg (by omega), if_neg (by omega), Option.some.injEq]
      · omega
      · split_ifs <;> omega

/-- The reader returns the scalar whose bytes stand at the cursor. -/
theorem nextUtf8Char_eq_ok_iff {c len : Nat} :
    nextUtf8Char s i = .ok (c, len) ↔
      ∃ ch : Char, ch.toNat = c ∧ Reads s i (String.utf8EncodeChar ch) (i + len) := by
  constructor
  · intro h
    unfold nextUtf8Char at h
    cases hd : s.drop i with
    | nil => simp [hd] at h
    | cons lead rest =>
      simp only [hd] at h
      cases hl : utf8Length lead with
      | none => simp [hl] at h
      | some k =>
        simp only [hl] at h
        split_ifs at h with hlen
        cases hs : utf8Scalar (lead :: rest) k with
        | none => simp [hs] at h
        | some c' =>
          simp only [hs, Except.ok.injEq, Prod.mk.injEq] at h
          obtain ⟨rfl, rfl⟩ := h
          obtain ⟨hr, w, r, hw, hwl, hshape⟩ := utf8Scalar_sound hl hs
          obtain ⟨ch, rfl⟩ := exists_scalar hr
          refine ⟨ch, rfl, ?_⟩
          rw [(utf8Shape_encode ch).unique hshape, ← hwl]
          exact Reads.of_drop (hd.trans hw)
  · rintro ⟨ch, rfl, h⟩
    have hlen : len = (String.utf8EncodeChar ch).length := by have := h.2; omega
    obtain ⟨lead, rest, hw, hl, hs⟩ := utf8Scalar_shape (scalar_range ch) (utf8Shape_encode ch)
      (s.drop (i + len))
    have hd : s.drop i = lead :: (rest ++ s.drop (i + len)) := by rw [h.1, hw, List.cons_append]
    rw [← h.1, hd] at hs
    rw [nextUtf8Char, hd]
    simp only [hl]
    have hrest : (String.utf8EncodeChar ch).length = rest.length + 1 := by rw [hw]; rfl
    rw [if_neg (by rw [List.length_append]; omega), hs, hlen]

/-- The lead byte of a scalar: itself in ASCII, above ASCII otherwise. -/
theorem exists_lead (c : Char) :
    ∃ b rest, String.utf8EncodeChar c = b :: rest ∧
      (b.toNat = c.toNat ∧ c.toNat < 0x80 ∨ 0x80 ≤ b.toNat ∧ 0x80 ≤ c.toNat) := by
  have hs := utf8Shape_encode c
  generalize String.utf8EncodeChar c = w at hs
  cases hs with
  | one b0 h1 h2 => exact ⟨b0, [], rfl, Or.inl ⟨h2, h1⟩⟩
  | two b0 b1 h1 h2 h3 h4 => exact ⟨b0, [b1], rfl, Or.inr ⟨by omega, by omega⟩⟩
  | three b0 b1 b2 h1 h2 h3 h4 h5 => exact ⟨b0, [b1, b2], rfl, Or.inr ⟨by omega, by omega⟩⟩
  | four b0 b1 b2 b3 h1 h2 h3 h4 h5 h6 =>
    exact ⟨b0, [b1, b2, b3], rfl, Or.inr ⟨by omega, by omega⟩⟩

/-- The three tests on the lead byte are tests on the scalar. -/
theorem rawByte_iff {c : Char} {b : UInt8} {rest : List UInt8}
    (h : String.utf8EncodeChar c = b :: rest) :
    (b ≠ '"'.toUInt8 ∧ b ≠ '\\'.toUInt8 ∧ ¬ b < 0x20) ↔
      (0x20 ≤ c.toNat ∧ c ≠ '"' ∧ c ≠ '\\') := by
  obtain ⟨b', rest', h', hb⟩ := exists_lead c
  obtain ⟨rfl, rfl⟩ := List.cons.inj (h.symm.trans h')
  have hq : '"'.toUInt8.toNat = 0x22 := rfl
  have hs : '\\'.toUInt8.toNat = 0x5C := rfl
  have hq' : '"'.toNat = 0x22 := rfl
  have hs' : '\\'.toNat = 0x5C := rfl
  simp only [ne_eq, ← UInt8.toNat_inj, ← Char.toNat_inj, UInt8.lt_iff_toNat_lt, hq, hs, hq', hs',
    UInt8.reduceToNat]
  omega

/-- The escapes of two characters. -/
theorem shortEscape_iff {e : UInt8} {x : UInt16} :
    (e, x) ∈ shortEscapes ↔ shortEscape e = x ∧ shortEscape e < 0x80 := by
  have hf : ∀ p ∈ shortEscapes, shortEscape p.1 = p.2 ∧ shortEscape p.1 < 0x80 :=
    forall_mem_of_all (by decide)
  have hb : ∀ n < 256, shortEscape (.ofNat n) < 0x80 →
      (.ofNat n, shortEscape (.ofNat n)) ∈ shortEscapes := by decide +kernel
  constructor
  · exact hf (e, x)
  · rintro ⟨rfl, h⟩
    simpa using hb e.toNat e.toNat_lt (by simpa using h)

/-- The hex digits and their values. -/
theorem hexValue_iff {c : UInt8} {d : Nat} :
    (c, d) ∈ hexDigits ↔ hexValue c = d ∧ ¬ 15 < hexValue c := by
  have hf : ∀ p ∈ hexDigits, hexValue p.1 = p.2 ∧ ¬ 15 < hexValue p.1 :=
    forall_mem_of_all (by decide)
  have hb : ∀ n < 256, ¬ 15 < hexValue (.ofNat n) →
      (.ofNat n, hexValue (.ofNat n)) ∈ hexDigits := by decide +kernel
  constructor
  · exact hf (c, d)
  · rintro ⟨rfl, h⟩
    simpa using hb c.toNat c.toNat_lt (by simpa using h)

/-- An escape of four digits is no short one. -/
theorem shortEscape_u : ¬ shortEscape 'u'.toUInt8 < 0x80 := by decide

/-- The four hex digits and the unit they spell. -/
theorem parseHex4_eq_ok_iff {u : UInt16} :
    parseHex4 s i = .ok (u, j) ↔
      ∃ c0 c1 c2 c3 d0 d1 d2 d3, (c0, d0) ∈ hexDigits ∧ (c1, d1) ∈ hexDigits ∧
        (c2, d2) ∈ hexDigits ∧ (c3, d3) ∈ hexDigits ∧ Reads s i [c0, c1, c2, c3] j ∧
        u = .ofNat (d0 * 0x1000 + d1 * 0x100 + d2 * 0x10 + d3) := by
  simp only [hexValue_iff]
  constructor
  · intro h
    unfold parseHex4 at h
    split at h
    case h_2 => cases h
    case h_1 c0 c1 c2 c3 r hd =>
      split_ifs at h with h0 h1 h2 h3
      obtain ⟨rfl, rfl⟩ := Prod.mk.inj (Except.ok.inj h)
      exact ⟨c0, c1, c2, c3, _, _, _, _, ⟨rfl, h0⟩, ⟨rfl, h1⟩, ⟨rfl, h2⟩, ⟨rfl, h3⟩,
        Reads.of_drop (w := [c0, c1, c2, c3]) hd, rfl⟩
  · rintro ⟨c0, c1, c2, c3, _, _, _, _, ⟨rfl, h0⟩, ⟨rfl, h1⟩, ⟨rfl, h2⟩, ⟨rfl, h3⟩, hr, rfl⟩
    have hd : s.drop i = c0 :: c1 :: c2 :: c3 :: s.drop j := hr.1
    simp only [parseHex4, hd]
    rw [if_neg h0, if_neg h1, if_neg h2, if_neg h3, hr.2]
    rfl

/-- What the loop returns is the units before it followed by those of a string body, and
the cursor is past the closing quote. -/
theorem stringLoop_sound {fuel : Nat} {units r : List UInt16}
    (h : stringLoop s fuel i units = .ok (r, j)) :
    ∃ w u, StringBody w u ∧ r = units ++ u ∧ Reads s i (w ++ ['"'.toUInt8]) j := by
  induction fuel generalizing i units with
  | zero => cases h
  | succ fuel ih =>
    rw [stringLoop] at h
    cases hb : s[i]? with
    | none => simp [hb] at h
    | some b =>
      simp only [hb] at h
      split_ifs at h with hq he hc
      · obtain ⟨rfl, rfl⟩ := Prod.mk.inj (Except.ok.inj h)
        subst hq
        exact ⟨[], [], .nil, by simp, Reads.of_getElem? hb⟩
      · subst he
        cases hn : s[i + 1]? with
        | none => simp [hn] at h
        | some e =>
          simp only [hn] at h
          split_ifs at h with hu hs
          · subst hu
            cases hx : parseHex4 s (i + 2) with
            | error f => simp [hx] at h
            | ok p =>
              obtain ⟨x, k⟩ := p
              simp only [hx] at h
              obtain ⟨w, u, hw, rfl, hr⟩ := ih h
              obtain ⟨c0, c1, c2, c3, d0, d1, d2, d3, h0, h1, h2, h3, hd, rfl⟩ :=
                parseHex4_eq_ok_iff.mp hx
              exact ⟨_, _, .unicode h0 h1 h2 h3 hw, by simp,
                Reads.cons hb (Reads.cons hn (hd.trans hr))⟩
          · obtain ⟨w, u, hw, rfl, hr⟩ := ih h
            exact ⟨_, _, .escape (shortEscape_iff.mpr ⟨rfl, hs⟩) hw, by simp,
              Reads.cons hb (Reads.cons hn hr)⟩
      · cases hx : nextUtf8Char s i with
        | error f => simp [hx] at h
        | ok p =>
          obtain ⟨c, len⟩ := p
          simp only [hx] at h
          obtain ⟨w, u, hw, rfl, hr⟩ := ih h
          obtain ⟨ch, rfl, hch⟩ := nextUtf8Char_eq_ok_iff.mp hx
          obtain ⟨lead, rest, hl, -⟩ := exists_lead ch
          have hlead : lead = b := by
            rw [hl] at hch
            exact Option.some.inj (hch.getElem?.symm.trans hb)
          subst hlead
          obtain ⟨h1, h2, h3⟩ := (rawByte_iff hl).mp ⟨hq, he, hc⟩
          refine ⟨_, _, .raw h1 h2 h3 hw, ?_, ?_⟩
          · rw [pushUtf16, scalarUnits_toNat, List.append_assoc]
          · rw [List.append_assoc]
            exact hch.trans hr

/-- On a string body and its closing quote the loop collects the body's units. -/
theorem stringLoop_complete {u : List UInt16} (hw : StringBody w u) {fuel : Nat}
    {units : List UInt16} (h : Reads s i (w ++ ['"'.toUInt8]) j) (hf : w.length < fuel) :
    stringLoop s fuel i units = .ok (units ++ u, j) := by
  induction hw generalizing i units fuel with
  | nil =>
    obtain ⟨fuel, rfl⟩ := Nat.exists_eq_succ_of_ne_zero (Nat.ne_zero_of_lt hf)
    simp only [stringLoop, h.getElem?, if_true, h.2, List.append_nil]
    rfl
  | @raw c w u h1 h2 h3 hw ih =>
    obtain ⟨fuel, rfl⟩ := Nat.exists_eq_succ_of_ne_zero (Nat.ne_zero_of_lt hf)
    rw [List.append_assoc] at h
    obtain ⟨hc, hr⟩ := h.split
    obtain ⟨lead, rest, hl, -⟩ := exists_lead c
    obtain ⟨hq, he, hctl⟩ := (rawByte_iff hl).mpr ⟨h1, h2, h3⟩
    have hb : s[i]? = some lead := by
      rw [hl] at hc
      exact hc.getElem?
    have hx := nextUtf8Char_eq_ok_iff.mpr ⟨c, rfl, hc⟩
    have hlen : 0 < (String.utf8EncodeChar c).length := by rw [hl]; simp
    rw [List.length_append] at hf
    simp only [stringLoop, hb, if_neg hq, if_neg he, if_neg hctl, hx]
    rw [ih hr (by omega), pushUtf16, scalarUnits_toNat, List.append_assoc]
  | @escape e x w u he hw ih =>
    obtain ⟨fuel, rfl⟩ := Nat.exists_eq_succ_of_ne_zero (Nat.ne_zero_of_lt hf)
    obtain ⟨rfl, hlt⟩ := shortEscape_iff.mp he
    have hne : e ≠ 'u'.toUInt8 := by
      rintro rfl
      exact shortEscape_u hlt
    have hq : '\\'.toUInt8 ≠ '"'.toUInt8 := by decide
    simp only [List.length_cons] at hf
    simp only [stringLoop, h.getElem?, h.tail.getElem?, if_neg hq, if_neg hne, if_pos hlt, if_true]
    rw [ih h.tail.tail (by omega), List.append_assoc]
    rfl
  | @unicode c0 c1 c2 c3 d0 d1 d2 d3 w u h0 h1 h2 h3 hw ih =>
    obtain ⟨fuel, rfl⟩ := Nat.exists_eq_succ_of_ne_zero (Nat.ne_zero_of_lt hf)
    have hq : '\\'.toUInt8 ≠ '"'.toUInt8 := by decide
    obtain ⟨hhex, hr⟩ := Reads.split (w := [c0, c1, c2, c3]) h.tail.tail
    have hx := parseHex4_eq_ok_iff.mpr ⟨c0, c1, c2, c3, d0, d1, d2, d3, h0, h1, h2, h3, hhex, rfl⟩
    simp only [List.length_cons] at hf
    simp only [stringLoop, h.getElem?, h.tail.getElem?, if_neg hq, if_true, hx]
    rw [ih hr (by omega), List.append_assoc]
    rfl

/-- A parsed string is the normal form of what its text spells. -/
theorem parseString_eq_ok_iff {N : Normalizer} {t : String} :
    parseString N s i = .ok (t, j) ↔ ∃ w r, StringText w r ∧ t = nfc N r ∧ Reads s i w j := by
  constructor
  · intro h
    unfold parseString at h
    cases he : expect s i '"'.toUInt8 with
    | error e => simp [he] at h
    | ok k =>
      simp only [he] at h
      cases hl : stringLoop s (s.length - k) k [] with
      | error e => simp [hl] at h
      | ok p =>
        obtain ⟨units, k'⟩ := p
        simp only [hl] at h
        cases hd : decodeUtf16Strict units with
        | error e => simp [hd] at h
        | ok r =>
          simp only [hd] at h
          obtain ⟨rfl, rfl⟩ := Prod.mk.inj (Except.ok.inj h)
          obtain ⟨hq, rfl⟩ := expect_eq_ok_iff.mp he
          obtain ⟨w, u, hw, rfl, hr⟩ := stringLoop_sound hl
          rw [decodeUtf16Strict_eq_ok_iff.mp hd] at hw
          exact ⟨_, r, .mk hw, rfl, Reads.cons hq hr⟩
  · rintro ⟨_, r, @⟨w, _, hw⟩, rfl, hr⟩
    have he := expect_eq_ok_iff.mpr ⟨hr.getElem?, rfl⟩
    have hbody : Reads s (i + 1) (w ++ ['"'.toUInt8]) j := hr.tail
    have hlen := hbody.length_le
    rw [List.length_append, List.length_singleton] at hlen
    have hl : stringLoop s (s.length - (i + 1)) (i + 1) [] = .ok ([] ++ _, j) :=
      stringLoop_complete hw hbody (by omega)
    have hd : decodeUtf16Strict (utf16 r.toList) = .ok r := decodeUtf16Strict_eq_ok_iff.mpr rfl
    simp only [parseString, he, hl, List.nil_append, hd]

end Averin
