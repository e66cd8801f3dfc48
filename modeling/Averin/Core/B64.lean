import Averin.Core.Unicode

/-!
# base64url without padding

Three bytes are four letters of a 64-letter alphabet; a last group of one or two bytes is
two or three letters. The decoder refuses padding, a last group of one letter and a last
group whose unused bits are not zero.
-/

namespace Averin

namespace B64

/-- The letters of the URL-safe alphabet. -/
def alphabet : List Char :=
  "ABCDEFGHIJKLMNOPQRSTUVWXYZabcdefghijklmnopqrstuvwxyz0123456789-_".toList

/-- Groups of three; the last group may be shorter. -/
def chunksThree {α : Type} : List α → List (List α)
  | [] => []
  | a :: b :: c :: rest => [a, b, c] :: chunksThree rest
  | rest => [rest]

/-- Groups of four; the last group may be shorter. -/
def chunksFour {α : Type} : List α → List (List α)
  | [] => []
  | a :: b :: c :: d :: rest => [a, b, c, d] :: chunksFour rest
  | rest => [rest]

/-- One letter more than there are bytes in the group. -/
def encodeChunk (chunk : List UInt8) : List Char :=
  let byte i := (chunk.getD i 0).toUInt32
  let n := byte 0 <<< 16 ||| byte 1 <<< 8 ||| byte 2
  let letter (shift : UInt32) := alphabet.getD ((n >>> shift) &&& 63).toNat 'A'
  [letter 18, letter 12, letter 6, letter 0].take (chunk.length + 1)

/-- The text of some bytes, without padding. -/
def encode (input : List UInt8) : String := .ofList ((chunksThree input).flatMap encodeChunk)

/-- The value of a letter, given as its byte. -/
def val (c : UInt8) : Option UInt8 :=
  if 65 ≤ c ∧ c ≤ 90 then some (c - 65)
  else if 97 ≤ c ∧ c ≤ 122 then some (c - 97 + 26)
  else if 48 ≤ c ∧ c ≤ 57 then some (c - 48 + 52)
  else if c = 45 then some 62
  else if c = 95 then some 63
  else none

/-- Why a text is not decoded. -/
inductive DecodeError where
  | invalidChar (c : UInt8)
  | invalidLength
  | nonCanonical
  deriving DecidableEq, Repr

/-- One byte fewer than there are letters in the group. -/
def decodeChunk (chunk : List UInt8) : Except DecodeError (List UInt8) :=
  let value i := (chunk.getD i 0).toUInt32
  let n := value 0 <<< 18 ||| value 1 <<< 12 ||| value 2 <<< 6 ||| value 3
  if chunk.length = 1 then .error .invalidLength
  else if chunk.length = 2 ∧ n &&& 0xFFFF ≠ 0 ∨ chunk.length = 3 ∧ n &&& 0xFF ≠ 0 then
    .error .nonCanonical
  else .ok ([(n >>> 16).toUInt8, (n >>> 8).toUInt8, n.toUInt8].take (chunk.length - 1))

/-- Every letter is read before any group is put together. -/
def decode (s : String) : Except DecodeError (List UInt8) := do
  let vals ← (bytes s).mapM fun c => ((val c).map .ok).getD (.error (.invalidChar c))
  let groups ← (chunksFour vals).mapM decodeChunk
  return groups.flatten

/-- The bytes of a text that decodes to exactly `n` of them. -/
def decodeFixed (n : Nat) (s : String) : Option (Vector UInt8 n) :=
  match decode s with
  | .error _ => none
  | .ok v => if h : v.length = n then some ⟨v.toArray, by simpa using h⟩ else none

theorem or_eq_add {x y k : Nat} (h : y < 2 ^ k) : x * 2 ^ k ||| y = x * 2 ^ k + y := by
  rw [Nat.mul_comm, Nat.two_pow_add_eq_or_of_lt h]

/-- Three bytes side by side. -/
theorem toNat_three (a b c : UInt8) :
    (a.toUInt32 <<< 16 ||| b.toUInt32 <<< 8 ||| c.toUInt32).toNat =
      a.toNat * 65536 + b.toNat * 256 + c.toNat := by
  have ha := a.toNat_lt
  have hb := b.toNat_lt
  have hc := c.toNat_lt
  simp only [UInt32.toNat_or, UInt32.toNat_shiftLeft, UInt8.toNat_toUInt32, UInt32.reduceToNat,
    Nat.shiftLeft_eq, Nat.reduceMod]
  rw [Nat.mod_eq_of_lt (by omega), Nat.mod_eq_of_lt (by omega), or_eq_add (k := 16) (by omega),
    show a.toNat * 2 ^ 16 + b.toNat * 2 ^ 8 = (a.toNat * 256 + b.toNat) * 2 ^ 8 by omega,
    or_eq_add (k := 8) (by omega)]
  omega

/-- Four groups of six bits side by side. -/
theorem toNat_four {p q r s : Nat} (hp : p < 64) (hq : q < 64) (hr : r < 64) (hs : s < 64) :
    ((UInt8.ofNat p).toUInt32 <<< 18 ||| (UInt8.ofNat q).toUInt32 <<< 12 |||
      (UInt8.ofNat r).toUInt32 <<< 6 ||| (UInt8.ofNat s).toUInt32).toNat =
      p * 262144 + q * 4096 + r * 64 + s := by
  have hmod : ∀ {x}, x < 64 → x % 2 ^ 8 = x := fun h => Nat.mod_eq_of_lt (by omega)
  simp only [UInt32.toNat_or, UInt32.toNat_shiftLeft, UInt8.toNat_toUInt32, UInt32.reduceToNat,
    Nat.shiftLeft_eq, Nat.reduceMod, UInt8.toNat_ofNat', hmod hp, hmod hq, hmod hr, hmod hs]
  rw [@Nat.mod_eq_of_lt (p * 2 ^ 18) _ (by omega), @Nat.mod_eq_of_lt (q * 2 ^ 12) _ (by omega),
    @Nat.mod_eq_of_lt (r * 2 ^ 6) _ (by omega), or_eq_add (k := 18) (by omega),
    show p * 2 ^ 18 + q * 2 ^ 12 = (p * 64 + q) * 2 ^ 12 by omega,
    or_eq_add (k := 12) (by omega),
    show (p * 64 + q) * 2 ^ 12 + r * 2 ^ 6 = ((p * 64 + q) * 64 + r) * 2 ^ 6 by omega,
    or_eq_add (k := 6) (by omega)]
  omega

/-- The groups of six bits of three bytes. -/
def sixBits (chunk : List UInt8) : List Nat :=
  let n := (chunk.getD 0 0).toNat * 65536 + (chunk.getD 1 0).toNat * 256 + (chunk.getD 2 0).toNat
  [n / 262144 % 64, n / 4096 % 64, n / 64 % 64, n % 64].take (chunk.length + 1)

/-- The letter of a number below 64. -/
def letter (n : Nat) : Char := alphabet.getD n 'A'

/-- A group is written letter by letter. -/
theorem encodeChunk_eq (chunk : List UInt8) : encodeChunk chunk = (sixBits chunk).map letter := by
  have hand : ∀ x : UInt32, (x &&& 63).toNat = x.toNat % 64 := by
    intro x
    rw [UInt32.toNat_and]
    exact Nat.and_two_pow_sub_one_eq_mod x.toNat 6
  simp only [encodeChunk, sixBits, List.map_take, List.map_cons, List.map_nil, letter, hand,
    UInt32.toNat_shiftRight, toNat_three, UInt32.reduceToNat, Nat.shiftRight_eq_div_pow,
    Nat.reduceMod, Nat.reducePow, Nat.div_one]

theorem mem_sixBits {chunk : List UInt8} {n : Nat} (h : n ∈ sixBits chunk) : n < 64 := by
  have := List.mem_of_mem_take h
  simp only [List.mem_cons, List.not_mem_nil, or_false] at this
  omega

/-- The three bytes of a number of 24 bits. -/
theorem bytes_of_toNat {n : UInt32} {a b c : UInt8}
    (h : n.toNat = a.toNat * 65536 + b.toNat * 256 + c.toNat) :
    (n >>> 16).toUInt8 = a ∧ (n >>> 8).toUInt8 = b ∧ n.toUInt8 = c := by
  have ha := a.toNat_lt
  have hb := b.toNat_lt
  have hc := c.toNat_lt
  simp only [← UInt8.toNat_inj, UInt32.toNat_toUInt8, UInt32.toNat_shiftRight, h,
    UInt32.reduceToNat, Nat.shiftRight_eq_div_pow, Nat.reduceMod]
  omega

/-- A mask of low bits sees nothing of a multiple. -/
theorem and_eq_zero {n : UInt32} {k : Nat} {m : UInt32} (hm : m.toNat = 2 ^ k - 1)
    (h : n.toNat % 2 ^ k = 0) : n &&& m = 0 := by
  rw [← UInt32.toNat_inj, UInt32.toNat_and, hm, Nat.and_two_pow_sub_one_eq_mod, h]
  rfl

/-- A group whose bits are those of up to three bytes decodes to them. -/
theorem decodeChunk_eq_ok {vals : List UInt8} {a b c : UInt8} {k : Nat} (hk : 1 ≤ k)
    (hlen : vals.length = k + 1)
    (hn : ((vals.getD 0 0).toUInt32 <<< 18 ||| (vals.getD 1 0).toUInt32 <<< 12 |||
      (vals.getD 2 0).toUInt32 <<< 6 ||| (vals.getD 3 0).toUInt32).toNat =
        a.toNat * 65536 + b.toNat * 256 + c.toNat)
    (hb : k = 1 → b = 0) (hc : k ≤ 2 → c = 0) : decodeChunk vals = .ok ([a, b, c].take k) := by
  obtain ⟨h1, h2, h3⟩ := bytes_of_toNat hn
  unfold decodeChunk
  dsimp only
  rw [if_neg (by omega), if_neg, h1, h2, h3, hlen, Nat.add_sub_cancel]
  rintro (⟨h, hne⟩ | ⟨h, hne⟩)
  · obtain rfl := hb (by omega)
    obtain rfl := hc (by omega)
    exact hne (and_eq_zero (k := 16) rfl (by rw [hn, UInt8.toNat_zero]; omega))
  · obtain rfl := hc (by omega)
    exact hne (and_eq_zero (k := 8) rfl (by rw [hn, UInt8.toNat_zero]; omega))

/-- Every group of up to three bytes comes back from its six-bit groups. -/
theorem decodeChunk_sixBits {chunk : List UInt8} (h : chunk ≠ []) (hlen : chunk.length ≤ 3) :
    decodeChunk ((sixBits chunk).map .ofNat) = .ok chunk := by
  match chunk, h, hlen with
  | [a], _, _ =>
    have ha := a.toNat_lt
    refine decodeChunk_eq_ok (a := a) (b := 0) (c := 0) (k := 1) le_rfl rfl
      ((toNat_four (r := 0) (s := 0) ?_ ?_ ?_ ?_).trans ?_) (fun _ => rfl) fun _ => rfl
    · exact Nat.mod_lt _ (by decide)
    · exact Nat.mod_lt _ (by decide)
    · decide
    · decide
    · simp only [List.getD_cons_zero, List.getD_cons_succ, List.getD_nil, UInt8.toNat_zero]
      omega
  | [a, b], _, _ =>
    have ha := a.toNat_lt
    have hb := b.toNat_lt
    refine decodeChunk_eq_ok (a := a) (b := b) (c := 0) (k := 2) (by decide) rfl
      ((toNat_four (s := 0) ?_ ?_ ?_ ?_).trans ?_) (by simp) fun _ => rfl
    · exact Nat.mod_lt _ (by decide)
    · exact Nat.mod_lt _ (by decide)
    · exact Nat.mod_lt _ (by decide)
    · decide
    · simp only [List.getD_cons_zero, List.getD_cons_succ, List.getD_nil, UInt8.toNat_zero]
      omega
  | [a, b, c], _, _ =>
    have ha := a.toNat_lt
    have hb := b.toNat_lt
    have hc := c.toNat_lt
    refine decodeChunk_eq_ok (a := a) (b := b) (c := c) (k := 3) (by decide) rfl
      ((toNat_four ?_ ?_ ?_ ?_).trans ?_) (by simp) (by simp)
    · exact Nat.mod_lt _ (by decide)
    · exact Nat.mod_lt _ (by decide)
    · exact Nat.mod_lt _ (by decide)
    · exact Nat.mod_lt _ (by decide)
    · simp only [List.getD_cons_zero, List.getD_cons_succ]
      omega

/-- A letter is one byte that stands for its place in the alphabet. -/
theorem utf8_letter {n : Nat} (h : n < 64) :
    ∃ b, utf8 [letter n] = [b] ∧ val b = some (.ofNat n) := by
  have hall : ∀ n < 64, (utf8 [letter n]).length = 1 ∧
      (utf8 [letter n]).head?.bind val = some (.ofNat n) := by decide +kernel
  obtain ⟨hlen, hval⟩ := hall n h
  obtain ⟨b, hb⟩ := List.length_eq_one_iff.mp hlen
  refine ⟨b, hb, ?_⟩
  rw [hb] at hval
  exact hval

/-- Only bytes of ASCII have a value. -/
theorem lt_of_val_eq_some {b v : UInt8} (h : val b = some v) : b < 0x80 := by
  unfold val at h
  split_ifs at h <;> (simp only [UInt8.le_iff_toNat_le, UInt8.lt_iff_toNat_lt,
    ← UInt8.toNat_inj, UInt8.reduceToNat] at *; omega)

/-- The letters of six-bit groups are read back as the groups. -/
theorem mapM_val {ns : List Nat} (h : ∀ n ∈ ns, n < 64) :
    (bytes (.ofList (ns.map letter))).mapM
      (fun c => ((val c).map Except.ok).getD (.error (DecodeError.invalidChar c))) =
      .ok (ns.map .ofNat) := by
  rw [bytes_ofList]
  induction ns with
  | nil => rfl
  | cons n ns ih =>
    rw [List.forall_mem_cons] at h
    obtain ⟨b, hb, hval⟩ := utf8_letter h.1
    rw [utf8_cons, utf8_nil, List.append_nil] at hb
    rw [List.map_cons, utf8_cons, hb, List.singleton_append, List.mapM_cons, ih h.2, hval]
    rfl

/-- A group of bytes has one letter more. -/
theorem length_sixBits (chunk : List UInt8) (h : chunk.length ≤ 3) :
    (sixBits chunk).length = chunk.length + 1 := by
  simp [sixBits, h]

/-- The six-bit groups of all chunks fall into groups of four again. -/
theorem mapM_decodeChunk (input : List UInt8) :
    (chunksFour (((chunksThree input).flatMap sixBits).map .ofNat)).mapM decodeChunk =
      .ok (chunksThree input) := by
  fun_induction chunksThree input with
  | case1 => rfl
  | case2 a b c rest ih =>
    obtain ⟨p, q, r, s, hs⟩ : ∃ p q r s, sixBits [a, b, c] = [p, q, r, s] := ⟨_, _, _, _, rfl⟩
    have hfirst := @decodeChunk_sixBits [a, b, c] (by simp) (by simp)
    rw [hs] at hfirst
    simp only [List.flatMap_cons, hs, List.map_cons, List.map_nil,
      List.cons_append, List.nil_append, chunksFour, List.mapM_cons, ih] at hfirst ⊢
    rw [hfirst]
    rfl
  | case3 rest hne hlong =>
    have hlen : rest.length ≤ 3 := by
      match rest, hlong with
      | [], _ | [_], _ | [_, _], _ => simp
      | a :: b :: c :: rest, hlong => exact absurd rfl (hlong a b c rest)
    have hgroups : chunksFour ((sixBits rest).map UInt8.ofNat) = [(sixBits rest).map .ofNat] := by
      match rest, hne, hlong with
      | [], hne, _ => exact absurd rfl hne
      | [_], _, _ | [_, _], _, _ => rfl
      | a :: b :: c :: rest, _, hlong => exact absurd rfl (hlong a b c rest)
    rw [List.flatMap_singleton, hgroups, List.mapM_cons, decodeChunk_sixBits hne hlen]
    rfl

/-- The groups make up the input. -/
theorem flatten_chunksThree (input : List UInt8) : (chunksThree input).flatten = input := by
  fun_induction chunksThree input with
  | case1 => rfl
  | case2 a b c rest ih => simp [ih]
  | case3 rest => simp

/-- The letters of all groups, one after the other. -/
theorem encode_eq (input : List UInt8) :
    encode input = .ofList (((chunksThree input).flatMap sixBits).map letter) := by
  rw [encode, List.map_flatMap, funext encodeChunk_eq]

/-- Decoding gives back the bytes that were encoded. -/
theorem decode_encode (input : List UInt8) : decode (encode input) = .ok input := by
  have hsix : ∀ n ∈ (chunksThree input).flatMap sixBits, n < 64 := by
    intro n hn
    obtain ⟨chunk, -, hmem⟩ := List.mem_flatMap.mp hn
    exact mem_sixBits hmem
  rw [encode_eq, decode, mapM_val hsix]
  show (do
    let groups ←
      (chunksFour (((chunksThree input).flatMap sixBits).map UInt8.ofNat)).mapM decodeChunk
    return groups.flatten) = _
  rw [mapM_decodeChunk]
  exact congrArg Except.ok (flatten_chunksThree input)

/-- Different bytes have different texts. -/
theorem encode_injective : Function.Injective encode := by
  intro input input' h
  have hdecode := decode_encode input
  rw [h, decode_encode] at hdecode
  exact (Except.ok.inj hdecode).symm

/-- A text is in ASCII. -/
theorem lt_of_mem_encode {input : List UInt8} {b : UInt8} (h : b ∈ bytes (encode input)) :
    b < 0x80 := by
  rw [encode_eq, bytes_ofList, utf8, List.flatMap_map] at h
  obtain ⟨n, hn, hb⟩ := List.mem_flatMap.mp h
  obtain ⟨chunk, -, hmem⟩ := List.mem_flatMap.mp hn
  obtain ⟨b', hb', hval⟩ := utf8_letter (mem_sixBits hmem)
  rw [utf8_cons, utf8_nil, List.append_nil] at hb'
  rw [hb', List.mem_singleton] at hb
  exact hb ▸ lt_of_val_eq_some hval

theorem decodeFixed_encode {n : Nat} (v : Vector UInt8 n) :
    decodeFixed n (encode v.toList) = some v := by
  rw [decodeFixed, decode_encode]
  simp [Vector.toList]

end B64

end Averin
