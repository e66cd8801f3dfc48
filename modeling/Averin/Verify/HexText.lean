import Averin.Sign.Signature
import Averin.Verify.GrantLog

/-!
# Digests as text

A digest is written as its lowercase hex digits, bare or after the name of the hash, and
read back from exactly 64 of them. Reading undoes writing, so no two digests share a text.
-/

namespace Averin

/-- The bytes of 64 hex digits. -/
def hex32Bytes (hex : List UInt8) : Option (Vector UInt8 32) :=
  if hex.length ≠ 64 then none
  else (hexPairs hex).bind fun out =>
    if h : out.length = 32 then some ⟨out.toArray, by simpa using h⟩ else none

/-- Read a hash of thirty-two bytes from its text. -/
def hex32 (s : String) : Option (Vector UInt8 32) := hex32Bytes (bytes s)

/-- The digest after `sha256:`. -/
def stripSha256 (s : String) : Option (Vector UInt8 32) :=
  ((bytes "sha256:").isPrefixOf? (bytes s)).bind hex32Bytes

/-- The two digits of one byte. -/
def hexDigitPair (x : UInt8) : List Char :=
  ["0123456789abcdef".toList.getD (x >>> 4).toNat '0',
    "0123456789abcdef".toList.getD (x &&& 0xF).toNat '0']

/-- Two digits spell one byte. -/
theorem exists_hexDigitPair (x : UInt8) :
    ∃ hi lo, utf8 (hexDigitPair x) = [hi, lo] ∧ hexPairs [hi, lo] = some [x] ∧
      hi < 0x80 ∧ lo < 0x80 := by
  have hall : ∀ n < 256, (utf8 (hexDigitPair (.ofNat n))).length = 2 ∧
      hexPairs (utf8 (hexDigitPair (.ofNat n))) = some [.ofNat n] ∧
      (utf8 (hexDigitPair (.ofNat n))).all (· < 0x80) = true := by decide +kernel
  obtain ⟨hlen, hval, hascii⟩ := hall x.toNat x.toNat_lt
  rw [UInt8.ofNat_toNat] at hlen hval hascii
  obtain ⟨hi, lo, heq⟩ := List.length_eq_two.mp hlen
  refine ⟨hi, lo, heq, heq ▸ hval, ?_⟩
  simpa [heq] using hascii

/-- The bytes of the text are its digits. -/
theorem bytes_hexLower (b : List UInt8) : bytes (hexLower b) = utf8 (b.flatMap hexDigitPair) := by
  rw [hexLower, bytes_ofList]
  rfl

@[simp] theorem length_bytes_hexLower (b : List UInt8) :
    (bytes (hexLower b)).length = 2 * b.length := by
  rw [bytes_hexLower]
  induction b with
  | nil => rfl
  | cons x b ih =>
    obtain ⟨hi, lo, heq, -⟩ := exists_hexDigitPair x
    rw [List.flatMap_cons, utf8_append, heq, List.length_append, ih, List.length_cons]
    simp only [List.length_cons, List.length_nil]
    omega

/-- The digits are ASCII. -/
theorem lt_of_mem_hexLower {b : List UInt8} {c : UInt8} (h : c ∈ bytes (hexLower b)) :
    c < 0x80 := by
  rw [bytes_hexLower] at h
  induction b with
  | nil => cases h
  | cons x b ih =>
    obtain ⟨hi, lo, heq, -, hhi, hlo⟩ := exists_hexDigitPair x
    rw [List.flatMap_cons, utf8_append, heq] at h
    rcases List.mem_append.mp h with h | h
    · simp only [List.mem_cons, List.not_mem_nil, or_false] at h
      rcases h with rfl | rfl
      · exact hhi
      · exact hlo
    · exact ih h

/-- Reading the digits gives the bytes back. -/
theorem hexPairs_hexLower (b : List UInt8) : hexPairs (bytes (hexLower b)) = some b := by
  rw [bytes_hexLower]
  induction b with
  | nil => rfl
  | cons x b ih =>
    obtain ⟨hi, lo, heq, hval, -⟩ := exists_hexDigitPair x
    rw [List.flatMap_cons, utf8_append, heq]
    simp only [List.cons_append, List.nil_append, hexPairs, ih]
    cases hhi : hexVal hi <;> cases hlo : hexVal lo <;> simp_all [hexPairs]

@[simp] theorem hex32Bytes_hexLower (v : Vector UInt8 32) :
    hex32Bytes (bytes (hexLower v.toList)) = some v := by
  rw [hex32Bytes, if_neg (by simp), hexPairs_hexLower, Option.bind_some, dif_pos (by simp)]
  rfl

@[simp] theorem bytes_append (s t : String) : bytes (s ++ t) = bytes s ++ bytes t := by
  simp [bytes]

/-- The digest of a root text is the digest it was written from. -/
theorem stripSha256_rootText (v : Vector UInt8 32) : stripSha256 (rootText v) = some v := by
  have hstrip : (bytes "sha256:").isPrefixOf? (bytes (rootText v)) =
      some (bytes (hexLower v.toList)) := by
    rw [rootText, bytes_append]
    exact isPrefixOf?_append_self _ _
  rw [stripSha256, hstrip, Option.bind_some, hex32Bytes_hexLower]

/-- Two hashes have two texts. -/
theorem rootText_injective : Function.Injective rootText := by
  intro v w h
  have hv := stripSha256_rootText v
  rw [h, stripSha256_rootText] at hv
  exact (Option.some.inj hv).symm

end Averin
