import Mathlib.Data.List.Basic
import Mathlib.Tactic

/-!
# Length-prefix framing

Big-endian numbers of fixed width and byte strings with a length in front. A sequence
of framed fields can be read back from its concatenation, so no two different
sequences share their bytes.
-/

namespace Averin

/-- The last `width` bytes of `n`, most significant first. -/
def beBytes : (width : Nat) → (n : Nat) → List UInt8
  | 0, _ => []
  | width + 1, n => beBytes width (n / 256) ++ [.ofNat (n % 256)]

/-- A byte string after its length, which is cut to `width` bytes. -/
def framed (width : Nat) (b : List UInt8) : List UInt8 := beBytes width b.length ++ b

@[simp] theorem length_beBytes (width n : Nat) : (beBytes width n).length = width := by
  induction width generalizing n with
  | zero => rfl
  | succ width ih => rw [beBytes, List.length_append, ih, List.length_singleton]

/-- The bytes determine a number that fits the width. -/
theorem eq_of_beBytes_eq {width m n : Nat} (hm : m < 256 ^ width) (hn : n < 256 ^ width)
    (h : beBytes width m = beBytes width n) : m = n := by
  induction width generalizing m n with
  | zero => omega
  | succ width ih =>
    rw [beBytes, beBytes] at h
    obtain ⟨hq, hr⟩ := List.append_inj h (by simp)
    rw [pow_succ] at hm hn
    have hq' : m / 256 = n / 256 := ih (by omega) (by omega) hq
    have hr' : m % 256 = n % 256 := by
      have := congrArg (List.map UInt8.toNat) hr
      simpa using this
    omega

/-- A signed 64-bit number is determined by its eight bytes. -/
theorem eq_of_be8_eq {m n : Int} (hm : -2 ^ 63 ≤ m ∧ m < 2 ^ 63) (hn : -2 ^ 63 ≤ n ∧ n < 2 ^ 63)
    (h : beBytes 8 (m % 2 ^ 64).toNat = beBytes 8 (n % 2 ^ 64).toNat) : m = n := by
  have := eq_of_beBytes_eq (by omega) (by omega) h
  omega

/-- A field that nothing follows is determined, however long it is. -/
theorem framed_injective (width : Nat) : Function.Injective (framed width) := by
  intro a b h
  exact (List.append_inj h (by simp)).2

/-- A framed field can be split off, whatever follows it. -/
theorem framed_append_inj {width : Nat} {a b r r' : List UInt8} (ha : a.length < 256 ^ width)
    (hb : b.length < 256 ^ width) (h : framed width a ++ r = framed width b ++ r') :
    a = b ∧ r = r' := by
  simp only [framed, List.append_assoc] at h
  obtain ⟨hlen, hrest⟩ := List.append_inj h (by simp)
  exact List.append_inj hrest (eq_of_beBytes_eq ha hb hlen)

end Averin
