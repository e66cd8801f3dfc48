import Averin.Canon.Value

/-!
# Text primitives of the canonical codec

The byte-level helpers shared by the serializer and the parser: scalar to code-unit
and scalar to byte encoders, the strict surrogate decoder, the escape table in both
directions, and the shortest decimal form. Each is proved against the reference
encodings of `Averin.Core.Unicode`.
-/

namespace Averin

/-- The code units `push_utf16` appends for the scalar value `c`. -/
def scalarUnits (c : Nat) : List UInt16 :=
  if c < 0x10000 then [.ofNat c]
  else [.ofNat (0xD800 + (c - 0x10000) / 0x400), .ofNat (0xDC00 + (c - 0x10000) % 0x400)]

/-- Append the UTF-16 code units of the scalar value `c`. -/
def pushUtf16 (units : List UInt16) (c : Nat) : List UInt16 := units ++ scalarUnits c

/-- The UTF-16 code units of valid UTF-8 text. A truncated sequence would be an index
panic in the program; no string contains one. -/
def utf16Units : List UInt8 → List UInt16
  | [] => []
  | b0 :: s =>
    if b0.toNat < 0x80 then scalarUnits b0.toNat ++ utf16Units s
    else if b0.toNat < 0xE0 then
      match s with
      | b1 :: s =>
        scalarUnits ((b0.toNat - 0xC0) * 0x40 + (b1.toNat - 0x80)) ++ utf16Units s
      | _ => []
    else if b0.toNat < 0xF0 then
      match s with
      | b1 :: b2 :: s =>
        scalarUnits ((b0.toNat - 0xE0) * 0x1000 + (b1.toNat - 0x80) * 0x40 + (b2.toNat - 0x80)) ++
          utf16Units s
      | _ => []
    else
      match s with
      | b1 :: b2 :: b3 :: s =>
        scalarUnits ((b0.toNat - 0xF0) * 0x40000 + (b1.toNat - 0x80) * 0x1000 +
          (b2.toNat - 0x80) * 0x40 + (b3.toNat - 0x80)) ++ utf16Units s
      | _ => []

/-- The UTF-8 bytes `push_utf8` appends for the scalar value `c`. -/
def pushUtf8 (out : List UInt8) (c : Nat) : List UInt8 :=
  out ++
    if c < 0x80 then [.ofNat c]
    else if c < 0x800 then [.ofNat (0xC0 + c / 0x40), .ofNat (0x80 + c % 0x40)]
    else if c < 0x10000 then
      [.ofNat (0xE0 + c / 0x1000), .ofNat (0x80 + c / 0x40 % 0x40), .ofNat (0x80 + c % 0x40)]
    else
      [.ofNat (0xF0 + c / 0x40000), .ofNat (0x80 + c / 0x1000 % 0x40),
        .ofNat (0x80 + c / 0x40 % 0x40), .ofNat (0x80 + c % 0x40)]

/-- The scalar encoders agree with the reference forms. -/
theorem scalarUnits_toNat (c : Char) : scalarUnits c.toNat = utf16Char c := rfl

/-- A scalar is written as the library encodes it. -/
theorem pushUtf8_toNat (out : List UInt8) (c : Char) :
    pushUtf8 out c.toNat = out ++ String.utf8EncodeChar c := by
  have hr := scalar_range c
  rw [pushUtf8, List.append_cancel_left_eq]
  apply Utf8Shape.unique _ (utf8Shape_encode c)
  split_ifs with h1 h2 h3
  · exact .one _ h1 (by simp; omega)
  · exact .two _ _ (by omega) h2 (by simp; omega) (by simp; omega)
  · exact .three _ _ _ (by omega) h3 (by simp; omega) (by simp; omega) (by simp; omega)
  · exact .four _ _ _ _ (by omega) (by omega) (by simp; omega) (by simp; omega) (by simp; omega)
      (by simp; omega)

/-- Decoding one encoded scalar at the front of the byte form. -/
theorem utf16Units_shape {n : Nat} {w : List UInt8} (h : Utf8Shape n w) (s : List UInt8) :
    utf16Units (w ++ s) = scalarUnits n ++ utf16Units s := by
  cases h with
  | one b0 hn h0 =>
    rw [List.singleton_append, utf16Units.eq_def]
    simp only [h0, hn, if_true]
  | two b0 b1 h1 h2 h3 h4 =>
    simp only [List.cons_append, List.nil_append]
    rw [utf16Units.eq_def]
    simp only [h3, h4]
    rw [if_neg (by omega), if_pos (by omega)]
    exact congrArg (scalarUnits · ++ utf16Units s) (by omega)
  | three b0 b1 b2 h1 h2 h3 h4 h5 =>
    simp only [List.cons_append, List.nil_append]
    rw [utf16Units.eq_def]
    simp only [h3, h4, h5]
    rw [if_neg (by omega), if_neg (by omega), if_pos (by omega)]
    exact congrArg (scalarUnits · ++ utf16Units s) (by omega)
  | four b0 b1 b2 b3 h1 h2 h3 h4 h5 h6 =>
    simp only [List.cons_append, List.nil_append]
    rw [utf16Units.eq_def]
    simp only [h3, h4, h5, h6]
    rw [if_neg (by omega), if_neg (by omega), if_neg (by omega)]
    exact congrArg (scalarUnits · ++ utf16Units s) (by omega)

/-- On a string's bytes the sort key is the reference UTF-16 form. -/
theorem utf16Units_utf8 (cs : List Char) : utf16Units (utf8 cs) = utf16 cs := by
  induction cs with
  | nil => rfl
  | cons c cs ih => rw [utf8_cons, utf16Units_shape (utf8Shape_encode c), ih]; rfl

/-- The units of a text are read from its bytes. -/
theorem utf16Units_bytes (s : String) : utf16Units (bytes s) = utf16 s.toList := by
  rw [bytes_eq_utf8, utf16Units_utf8]

/-- Distinct strings have distinct sort keys. -/
theorem utf16Units_bytes_injective : Function.Injective fun s => utf16Units (bytes s) := by
  intro s t h
  simp only [utf16Units_bytes] at h
  exact String.toList_inj.mp (utf16_injective h)

/-- Why the parser stopped. -/
inductive ErrorKind where
  | trailingData | unexpectedChar | unexpectedEnd | literalTrue | literalFalse | literalNull
  | missingDigits | fraction | exponent | negativeZero | outOfRange | depthLimit
  | arrayDelimiter | expectedKey | objectDelimiter | unterminatedString | unterminatedEscape
  | invalidEscape | rawControl | truncatedUnicodeEscape | invalidHexDigit | utf8Lead
  | utf8Truncated | utf8Invalid | unpairedHigh | highNotLow | invalidScalar | unpairedLow
  deriving DecidableEq, Repr

/-- The decoding loop over collected units, with the bytes written so far. -/
def decodeUtf16Loop : List UInt16 → List UInt8 → Except ErrorKind (List UInt8)
  | [], out => .ok out
  | u :: units, out =>
    if 0xD800 ≤ u.toNat ∧ u.toNat ≤ 0xDBFF then
      match units with
      | [] => .error .unpairedHigh
      | lo :: units =>
        if lo.toNat < 0xDC00 ∨ 0xDFFF < lo.toNat then .error .highNotLow
        else decodeUtf16Loop units
          (pushUtf8 out (0x10000 + (u.toNat - 0xD800) * 0x400 + (lo.toNat - 0xDC00)))
    else if 0xDC00 ≤ u.toNat ∧ u.toNat ≤ 0xDFFF then .error .unpairedLow
    else decodeUtf16Loop units (pushUtf8 out u.toNat)

/-- Strictly decode a UTF-16 unit sequence; an unpaired surrogate is an error. -/
def decodeUtf16Strict (units : List UInt16) : Except ErrorKind String :=
  match decodeUtf16Loop units [] with
  | .error e => .error e
  | .ok out =>
    match String.fromUTF8? ⟨out.toArray⟩ with
    | some t => .ok t
    | none => .error .invalidScalar

/-- The loop reads the reference form of any scalar sequence back as its bytes. -/
theorem decodeUtf16Loop_utf16 (cs : List Char) (out : List UInt8) :
    decodeUtf16Loop (utf16 cs) out = .ok (out ++ utf8 cs) := by
  induction cs generalizing out with
  | nil => simp [decodeUtf16Loop]
  | cons c cs ih =>
    have hr := scalar_range c
    rw [utf16_cons, utf8_cons, ← List.append_assoc, ← pushUtf8_toNat, ← ih]
    unfold utf16Char
    split_ifs with h
    · have hu : (UInt16.ofNat c.toNat).toNat = c.toNat := by simp; omega
      rw [List.singleton_append, decodeUtf16Loop.eq_def]
      simp only [hu]
      rw [if_neg (by omega), if_neg (by omega)]
    · have hu : (UInt16.ofNat (0xD800 + (c.toNat - 0x10000) / 0x400)).toNat =
          0xD800 + (c.toNat - 0x10000) / 0x400 := by simp; omega
      have hl : (UInt16.ofNat (0xDC00 + (c.toNat - 0x10000) % 0x400)).toNat =
          0xDC00 + (c.toNat - 0x10000) % 0x400 := by simp; omega
      simp only [List.cons_append, List.nil_append]
      rw [decodeUtf16Loop.eq_def]
      simp only [hu, hl]
      rw [if_pos (by omega), if_neg (by omega)]
      exact congrArg (fun n => decodeUtf16Loop (utf16 cs) (pushUtf8 out n)) (by omega)

/-- Whatever the loop accepts is the reference form of some scalar sequence. -/
theorem decodeUtf16Loop_sound {units : List UInt16} {out r : List UInt8}
    (h : decodeUtf16Loop units out = .ok r) :
    ∃ cs, units = utf16 cs ∧ r = out ++ utf8 cs := by
  fun_induction decodeUtf16Loop units out with
  | case1 out => exact ⟨[], rfl, by simpa using h.symm⟩
  | case2 => cases h
  | case3 => cases h
  | case4 u out hu lo units hlo ih =>
    obtain ⟨cs, rfl, rfl⟩ := ih h
    obtain ⟨c, hc⟩ := exists_scalar
      (n := 0x10000 + (u.toNat - 0xD800) * 0x400 + (lo.toNat - 0xDC00)) (by omega)
    refine ⟨c :: cs, ?_, ?_⟩
    · rw [utf16_cons, utf16Char, if_neg (by omega)]
      simp only [List.cons_append, List.nil_append, List.cons.injEq, ← UInt16.toNat_inj,
        UInt16.toNat_ofNat', and_true]
      omega
    · rw [← hc, pushUtf8_toNat, utf8_cons, List.append_assoc]
  | case5 => cases h
  | case6 u units out hu hl ih =>
    obtain ⟨cs, rfl, rfl⟩ := ih h
    have hlt := u.toNat_lt
    obtain ⟨c, hc⟩ := exists_scalar (n := u.toNat) (by omega)
    refine ⟨c :: cs, ?_, ?_⟩
    · rw [utf16_cons, utf16Char, if_pos (by omega), hc]
      simp
    · rw [← hc, pushUtf8_toNat, utf8_cons, List.append_assoc]

/-- Reading back the UTF-8 form of scalars as a string. -/
theorem fromUTF8?_utf8 (cs : List Char) :
    String.fromUTF8? ⟨(utf8 cs).toArray⟩ = some (String.ofList cs) := by
  have hb : (⟨(utf8 cs).toArray⟩ : ByteArray) = (String.ofList cs).toByteArray := by
    apply ByteArray.ext
    rw [String.toByteArray_ofList, List.utf8Encode, List.data_toByteArray, utf8]
  have hv : ByteArray.IsValidUTF8 ⟨(utf8 cs).toArray⟩ := hb ▸ (String.ofList cs).isValidUTF8
  rw [String.fromUTF8?, dif_pos hv]
  congr 1
  exact String.toByteArray_inj.mp hb

/-- Strict decoding is exactly the inverse of the UTF-16 form: it succeeds on the unit
sequences without unpaired surrogates and returns the scalars they spell. -/
theorem decodeUtf16Strict_eq_ok_iff {units : List UInt16} {t : String} :
    decodeUtf16Strict units = .ok t ↔ units = utf16 t.toList := by
  constructor
  · intro h
    unfold decodeUtf16Strict at h
    cases hl : decodeUtf16Loop units [] with
    | error e => simp [hl] at h
    | ok out =>
      obtain ⟨cs, rfl, rfl⟩ := decodeUtf16Loop_sound hl
      simp only [hl, List.nil_append, fromUTF8?_utf8, Except.ok.injEq] at h
      rw [← h, String.toList_ofList]
  · rintro rfl
    simp only [decodeUtf16Strict, decodeUtf16Loop_utf16, List.nil_append, fromUTF8?_utf8,
      String.ofList_toList]

end Averin
