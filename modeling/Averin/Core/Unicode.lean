import Mathlib.Data.List.Basic
import Mathlib.Tactic

/-!
# UTF-8 and UTF-16 forms of scalar sequences

A Lean `Char` is exactly a Unicode scalar value, so a text is a list of them. The
two encodings below are the reference forms: the byte form that a string stores
and the code-unit form that orders keys and spells escapes. Both are proved
prefix-free one scalar at a time, which makes the whole encodings injective.
-/

namespace Averin

/-- A property that is computed for every item of a list. -/
theorem forall_mem_of_all {α : Type*} {p : α → Prop} [DecidablePred p] {l : List α}
    (h : l.all (fun x => decide (p x)) = true) : ∀ x ∈ l, p x := by
  simpa using h

/-- The UTF-8 bytes of a scalar sequence. -/
def utf8 (cs : List Char) : List UInt8 := cs.flatMap String.utf8EncodeChar

/-- The UTF-16 code units of one scalar value, a surrogate pair above the basic plane. -/
def utf16Char (c : Char) : List UInt16 :=
  if c.toNat < 0x10000 then [.ofNat c.toNat]
  else [.ofNat (0xD800 + (c.toNat - 0x10000) / 0x400),
    .ofNat (0xDC00 + (c.toNat - 0x10000) % 0x400)]

/-- The UTF-16 code units of a scalar sequence. -/
def utf16 (cs : List Char) : List UInt16 := cs.flatMap utf16Char

/-- The stored bytes of a string. -/
def bytes (s : String) : List UInt8 := s.toByteArray.data.toList

@[simp] theorem utf8_nil : utf8 [] = [] := rfl

@[simp] theorem utf8_cons (c : Char) (cs : List Char) :
    utf8 (c :: cs) = String.utf8EncodeChar c ++ utf8 cs := rfl

@[simp] theorem utf8_append (cs ds : List Char) : utf8 (cs ++ ds) = utf8 cs ++ utf8 ds := by
  simp [utf8]

@[simp] theorem utf16_nil : utf16 [] = [] := rfl

@[simp] theorem utf16_cons (c : Char) (cs : List Char) :
    utf16 (c :: cs) = utf16Char c ++ utf16 cs := rfl

@[simp] theorem utf16_append (cs ds : List Char) : utf16 (cs ++ ds) = utf16 cs ++ utf16 ds := by
  simp [utf16]

/-- A string stores the UTF-8 form of its scalars. -/
theorem bytes_eq_utf8 (s : String) : bytes s = utf8 s.toList := by
  have h : s.toByteArray = s.toList.utf8Encode := String.utf8Encode_toList.symm
  simp [bytes, h, List.utf8Encode, utf8]

/-- Building a string from scalars stores their UTF-8 form. -/
@[simp] theorem bytes_ofList (cs : List Char) : bytes (String.ofList cs) = utf8 cs := by
  rw [bytes_eq_utf8, String.toList_ofList]

/-- A string is determined by its stored bytes. -/
theorem bytes_injective : Function.Injective bytes := by
  intro s t h
  apply String.toByteArray_inj.mp
  apply ByteArray.ext
  exact Array.toList_inj.mp h

/-- The scalar range a `Char` excludes the surrogates from. -/
theorem scalar_range (c : Char) : c.toNat < 0xD800 ∨ 0xDFFF < c.toNat ∧ c.toNat < 0x110000 :=
  c.valid

/-- The scalar value named by an in-range number. -/
theorem exists_scalar {n : Nat} (h : n < 0xD800 ∨ 0xDFFF < n ∧ n < 0x110000) :
    ∃ c : Char, c.toNat = n := by
  have hn : n.isValidChar := h
  exact ⟨Char.ofNatAux n hn, rfl⟩

/-- The four shapes of an encoded scalar, with the bytes as numbers. -/
inductive Utf8Shape (n : Nat) : List UInt8 → Prop
  | one (b0 : UInt8) : n < 0x80 → b0.toNat = n → Utf8Shape n [b0]
  | two (b0 b1 : UInt8) : 0x80 ≤ n → n < 0x800 →
      b0.toNat = 0xC0 + n / 0x40 → b1.toNat = 0x80 + n % 0x40 → Utf8Shape n [b0, b1]
  | three (b0 b1 b2 : UInt8) : 0x800 ≤ n → n < 0x10000 →
      b0.toNat = 0xE0 + n / 0x1000 → b1.toNat = 0x80 + n / 0x40 % 0x40 →
      b2.toNat = 0x80 + n % 0x40 → Utf8Shape n [b0, b1, b2]
  | four (b0 b1 b2 b3 : UInt8) : 0x10000 ≤ n → n < 0x110000 →
      b0.toNat = 0xF0 + n / 0x40000 → b1.toNat = 0x80 + n / 0x1000 % 0x40 →
      b2.toNat = 0x80 + n / 0x40 % 0x40 → b3.toNat = 0x80 + n % 0x40 →
      Utf8Shape n [b0, b1, b2, b3]

/-- Every encoded scalar has the shape its range prescribes. -/
theorem utf8Shape_encode (c : Char) : Utf8Shape c.toNat (String.utf8EncodeChar c) := by
  have hr := scalar_range c
  have hv : c.val.toNat = c.toNat := rfl
  unfold String.utf8EncodeChar
  simp only [hv]
  split_ifs with h1 h2 h3
  · exact .one _ (by omega) (by simp; omega)
  · exact .two _ _ (by omega) (by omega) (by simp; omega) (by simp; omega)
  · exact .three _ _ _ (by omega) (by omega) (by simp; omega) (by simp; omega) (by simp; omega)
  · exact .four _ _ _ _ (by omega) (by omega) (by simp; omega) (by simp; omega) (by simp; omega)
      (by simp; omega)

/-- Two byte lists of the shape of one number are the same bytes. -/
theorem Utf8Shape.unique {n : Nat} {w w' : List UInt8} (h : Utf8Shape n w)
    (h' : Utf8Shape n w') : w = w' := by
  cases h <;> cases h' <;> simp only [List.cons.injEq, and_true, ← UInt8.toNat_inj] <;> omega

/-- No scalar's code units begin another's: surrogates are no scalar values. -/
theorem utf16Char_prefix_free {c c' : Char} {rest rest' : List UInt16}
    (h : utf16Char c ++ rest = utf16Char c' ++ rest') : c = c' ∧ rest = rest' := by
  have hc := scalar_range c
  have hc' := scalar_range c'
  unfold utf16Char at h
  split_ifs at h with h1 h2 h2 <;>
    simp only [List.cons_append, List.nil_append, List.cons.injEq, ← UInt16.toNat_inj,
      UInt16.toNat_ofNat'] at h
  · exact ⟨Char.toNat_inj.mp (by omega), h.2⟩
  · omega
  · omega
  · obtain ⟨ha, hb, hrest⟩ := h
    exact ⟨Char.toNat_inj.mp (by omega), hrest⟩

/-- An encoding that is prefix-free and nonempty on every letter is injective on words. -/
theorem flatMap_injective {α β : Type*} {f : α → List β} (hne : ∀ a, f a ≠ [])
    (hf : ∀ a a' rest rest', f a ++ rest = f a' ++ rest' → a = a' ∧ rest = rest') :
    Function.Injective (List.flatMap f) := by
  intro xs ys
  induction xs generalizing ys with
  | nil =>
    intro h
    cases ys with
    | nil => rfl
    | cons y ys => exact absurd (List.append_eq_nil_iff.mp h.symm).1 (hne y)
  | cons x xs ih =>
    intro h
    cases ys with
    | nil => exact absurd (List.append_eq_nil_iff.mp h).1 (hne x)
    | cons y ys =>
      obtain ⟨rfl, hr⟩ := hf x y _ _ h
      rw [ih hr]

theorem utf16Char_ne_nil (c : Char) : utf16Char c ≠ [] := by
  unfold utf16Char
  split_ifs <;> simp

/-- A scalar sequence is determined by its UTF-16 form. -/
theorem utf16_injective : Function.Injective utf16 :=
  flatMap_injective utf16Char_ne_nil fun _ _ _ _ => utf16Char_prefix_free

end Averin
