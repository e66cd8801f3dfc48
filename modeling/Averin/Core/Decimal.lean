import Mathlib.Data.String.Basic
import Mathlib.Tactic

/-!
# Decimal texts

An integer is written with the digits it needs, and a decimal text is read to an integer of 64
signed bits.
-/

namespace Averin

/-- A number is written by its digits. -/
theorem repr_toList (m : Nat) : (Nat.repr m).toList = Nat.toDigits 10 m := by
  rw [Nat.repr, String.toList_ofList]

/-- A negative number is written with a sign. -/
theorem repr_negSucc_toList (m : Nat) :
    (Int.repr (.negSucc m)).toList = '-' :: Nat.toDigits 10 (m + 1) := by
  rw [show Int.repr (.negSucc m) = "-" ++ Nat.repr (m + 1) from rfl, String.toList_append,
    repr_toList]
  rfl

/-- The digits of a number are digits. -/
theorem isDigit_of_mem {m : Nat} {c : Char} (h : c ∈ Nat.toDigits 10 m) : c.isDigit = true :=
  Nat.isDigit_of_mem_toDigits (by decide) (by decide) h

theorem toDigits_inj {m n : Nat} (h : Nat.toDigits 10 m = Nat.toDigits 10 n) : m = n := by
  rw [← @Nat.ofDigitChars_ten_toDigits m, h, Nat.ofDigitChars_ten_toDigits]

/-- The decimal text of an integer tells the integer. -/
theorem int_repr_inj {a b : Int} (h : (Int.repr a).toList = (Int.repr b).toList) : a = b := by
  have hsign : ∀ m n : Nat, Nat.toDigits 10 m ≠ '-' :: Nat.toDigits 10 (n + 1) := by
    intro m n heq
    have hdigit := isDigit_of_mem (heq ▸ List.mem_cons_self)
    revert hdigit
    decide
  cases a with
  | ofNat m =>
    cases b with
    | ofNat n => rw [toDigits_inj ((repr_toList m).symm.trans (h.trans (repr_toList n)))]
    | negSucc n =>
      exact absurd ((repr_toList m).symm.trans (h.trans (repr_negSucc_toList n))) (hsign m n)
  | negSucc m =>
    rw [repr_negSucc_toList] at h
    cases b with
    | ofNat n => exact absurd ((repr_toList n).symm.trans h.symm) (hsign n m)
    | negSucc n =>
      rw [repr_negSucc_toList] at h
      rw [Nat.succ.inj (toDigits_inj (List.cons.inj h).2)]

/-- `strconv.ParseInt` in base ten and 64 bits. -/
def parseInt64 (s : String) : Option Int64 :=
  let negative := s.toList.head? = some '-'
  let digits := if negative ∨ s.toList.head? = some '+' then s.toList.tail else s.toList
  if digits = [] ∨ ¬ digits.all Char.isDigit then none
  else
    let un := Nat.ofDigitChars 10 digits 0
    if negative then if un ≤ 2 ^ 63 then some (.ofInt (-un)) else none
    else if un < 2 ^ 63 then some (.ofInt un) else none

/-- The digits in front of the rest of a text. -/
def dropDigits (s : List Char) : List Char := s.dropWhile Char.isDigit

/-- `isValidNumber` of the JSON decoder: a sign, an integer without zeros in front, a fraction and
an exponent. -/
def isValidNumber (s : String) : Bool :=
  let s := if s.toList.head? = some '-' then s.toList.tail else s.toList
  match s with
  | [] => false
  | d :: s =>
    if ¬ d.isDigit then false
    else
      let s := if d = '0' then s else dropDigits s
      let s := match s with
        | '.' :: d :: rest => if d.isDigit then dropDigits rest else s
        | _ => s
      match s with
      | e :: rest@(c :: rest') =>
        if e = 'e' ∨ e = 'E' then
          if c = '+' ∨ c = '-' then rest' ≠ [] && dropDigits rest' = []
          else dropDigits rest = []
        else false
      | s => s = []

end Averin
