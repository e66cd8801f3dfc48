import Averin.Core.B64Lenient
import Averin.Canon.RoundTrip

/-!
# What the primitives of the codec compute

The base64url codec, the decimal reader, the order of the members and the readers of UTF-8 and
UTF-16, each stated exactly: what is accepted, what it denotes, and that no number on the way
leaves its width.
-/

namespace Averin

namespace B64

/-- No number of letters leaves one over four. -/
theorem length_flatMap_sixBits (input : List UInt8) :
    ((chunksThree input).flatMap sixBits).length % 4 ≠ 1 := by
  fun_induction chunksThree input with
  | case1 => simp
  | case2 a b c rest ih =>
    rw [List.flatMap_cons, List.length_append, length_sixBits _ (by simp)]
    simp only [List.length_cons, List.length_nil]
    omega
  | case3 rest hne hlong =>
    rcases rest with _ | ⟨a, _ | ⟨b, _ | ⟨c, rest⟩⟩⟩
    · exact absurd rfl hne
    · simp [sixBits]
    · simp [sixBits]
    · exact absurd rfl (hlong a b c rest)

/-- No encoded text has a last group of one letter. -/
theorem length_encode (input : List UInt8) : (encode input).length % 4 ≠ 1 := by
  rw [encode_eq, String.length_ofList, List.length_map]
  exact length_flatMap_sixBits input

/-- There is no padding. -/
theorem padding_not_mem_encode (input : List UInt8) : '=' ∉ (encode input).toList := by
  intro h
  obtain ⟨n, hn, hl⟩ := mem_encode h
  have hall : ∀ n < 64, letter n ≠ '=' := by decide +kernel
  exact hall n hn hl.symm

/-- The codec has exactly one accepted spelling for every sequence of bytes: what is encoded
decodes to itself, and what decodes is the encoding of its value. So no accepted text is padded,
and none ends in a group of one letter. -/
theorem decode_exact (b : List UInt8) (s : String) :
    decode (encode b) = .ok b ∧ (decode s = .ok b ↔ encode b = s) ∧
      (decode s = .ok b → '=' ∉ s.toList ∧ s.length % 4 ≠ 1) := by
  refine ⟨decode_encode b, ?_, fun h => ?_⟩
  · rw [decode_eq_ok_iff]
    exact eq_comm
  · obtain rfl := decode_eq_ok_iff.mp h
    exact ⟨padding_not_mem_encode b, length_encode b⟩

end B64

/-- A difference of unsigned numbers, which stops the program below zero. -/
def checkedSub (a b : Nat) : Option Nat := if b ≤ a then some (a - b) else none

/-- A number of 64 bits, unsigned; a larger one stops the program. -/
def checkedU64 (n : Nat) : Option Nat := if n < 2 ^ 64 then some n else none

/-- The negative of a number; the least one has none. -/
def checkedNeg (n : Int64) : Option Int64 := if n = Int64.minValue then none else some (-n)

/-- One turn of the digit loop, with every operation carried out in its width. -/
def runDecimalStep (limit : Nat) (acc : Nat × Bool) (b : UInt8) : Option (Nat × Bool) := do
  let d ← checkedSub b.toNat '0'.toNat
  let room ← checkedSub limit d
  if room / 10 < acc.1 then return (acc.1, false)
  else
    let tens ← checkedU64 (acc.1 * 10)
    let mag ← checkedU64 (tens + d)
    return (mag, acc.2)

/-- A run of the decimal reader; `none` if an operation stops it. -/
def runDecimalI64 (s : List UInt8) (start stop : Nat) (negative : Bool) :
    Option (Option Int64) := do
  let limit := if negative then 9223372036854775808 else 9223372036854775807
  let r ← ((s.drop start).take (stop - start)).foldlM (runDecimalStep limit) (0, true)
  if !r.2 then return none
  else if !negative then return some (.ofInt r.1)
  else if r.1 = limit then return some Int64.minValue
  else return some (← checkedNeg (.ofInt r.1))

/-- Within the limit a turn of the run is a turn of the loop, and it stays within the limit. -/
theorem runDecimalStep_eq {limit : Nat} (h9 : 9 ≤ limit) (hlimit : limit < 2 ^ 64)
    {acc : Nat × Bool} (hacc : acc.1 ≤ limit) {b : UInt8} (hb : b ∈ digitBytes) :
    runDecimalStep limit acc b = some (decimalStep limit acc b) ∧
      (decimalStep limit acc b).1 ≤ limit := by
  have hdigit := mem_digitBytes_iff.mp hb
  have h0 : '0'.toNat = 48 := rfl
  have hnine : '9'.toNat = 57 := rfl
  have hsub : checkedSub b.toNat '0'.toNat = some (b.toNat - '0'.toNat) := if_pos hdigit.1
  have hroom : checkedSub limit (b.toNat - '0'.toNat) = some (limit - (b.toNat - '0'.toNat)) :=
    if_pos (by omega)
  simp only [runDecimalStep, hsub, hroom, Option.bind_eq_bind, Option.bind_some, decimalStep]
  split_ifs with hfull
  · exact ⟨rfl, hacc⟩
  · have hle : acc.1 * 10 + (b.toNat - '0'.toNat) ≤ limit := by omega
    have htens : checkedU64 (acc.1 * 10) = some (acc.1 * 10) := if_pos (by omega)
    have hmag : checkedU64 (acc.1 * 10 + (b.toNat - '0'.toNat)) =
        some (acc.1 * 10 + (b.toNat - '0'.toNat)) := if_pos (by omega)
    rw [htens, Option.bind_some, hmag]
    exact ⟨rfl, hle⟩

/-- The arithmetic of the machine agrees with that of the integers up to the limit. -/
theorem foldlM_runDecimalStep {limit : Nat} (h9 : 9 ≤ limit) (hlimit : limit < 2 ^ 64)
    {ds : List UInt8} (hds : ∀ b ∈ ds, b ∈ digitBytes) {acc : Nat × Bool} (hacc : acc.1 ≤ limit) :
    ds.foldlM (runDecimalStep limit) acc = some (ds.foldl (decimalStep limit) acc) ∧
      (ds.foldl (decimalStep limit) acc).1 ≤ limit := by
  induction ds generalizing acc with
  | nil => exact ⟨rfl, hacc⟩
  | cons b ds ih =>
    obtain ⟨hb, hrest⟩ := List.forall_mem_cons.mp hds
    obtain ⟨hstep, hle⟩ := runDecimalStep_eq h9 hlimit hacc hb
    rw [List.foldlM_cons, hstep, List.foldl_cons]
    exact ih hrest hle

/-- No operation stops a run over digits. -/
theorem runDecimalI64_eq {s ds : List UInt8} {start stop : Nat} (h : Reads s start ds stop)
    (hds : ∀ b ∈ ds, b ∈ digitBytes) (negative : Bool) :
    runDecimalI64 s start stop negative = some (decimalI64 s start stop negative) := by
  have htake : (s.drop start).take (stop - start) = ds := by
    rw [h.1, h.2, Nat.add_sub_cancel_left, List.take_left]
  unfold runDecimalI64 decimalI64
  dsimp only
  rw [htake]
  cases negative with
  | false =>
    obtain ⟨hrun, -⟩ := @foldlM_runDecimalStep 9223372036854775807 (by omega) (by omega) _
      hds (0, true) (by omega)
    simp only [Bool.false_eq_true, if_false, hrun, Option.bind_eq_bind, Option.bind_some,
      Bool.not_false, if_true]
    split_ifs <;> rfl
  | true =>
    obtain ⟨hrun, hle⟩ := @foldlM_runDecimalStep 9223372036854775808 (by omega)
      (by omega) _ hds (0, true) (by omega)
    simp only [if_true, hrun, Option.bind_eq_bind, Option.bind_some, Bool.not_true,
      Bool.false_eq_true, if_false]
    generalize ds.foldl (decimalStep 9223372036854775808) (0, true) = r at hle ⊢
    split_ifs with hrange hmin
    · rfl
    · rfl
    · -- the magnitude is below that of the least number, so it can be negated
      have hlt : (r.1 : Int) < 2 ^ 63 := by omega
      have hval : (Int64.ofInt r.1).toInt = r.1 :=
        Int64.toInt_ofInt_of_le (by omega) (by omega)
      have hne : Int64.ofInt r.1 ≠ Int64.minValue := by
        intro heq
        rw [heq, Int64.toInt_minValue] at hval
        omega
      rw [checkedNeg, if_neg hne, ← Int64.ofInt_neg]
      rfl

/-- A number with a leading digit other than zero is not zero. -/
theorem DigitsText.decimalValue_pos {ds : List UInt8} (h : DigitsText ds)
    (hne : ds ≠ ['0'.toUInt8]) : 0 < decimalValue ds := by
  cases h with
  | zero => exact absurd rfl hne
  | @nonzero d rest hd hd0 hrest =>
    have hdigit := mem_digitBytes_iff.mp hd
    have hzero : '0'.toUInt8.toNat = '0'.toNat := rfl
    have hlead : d.toNat ≠ '0'.toNat := fun heq => hd0 (UInt8.toNat_inj.mp (heq.trans hzero.symm))
    have hle := le_decimalFrom (0 * 10 + (d.toNat - '0'.toNat)) rest
    rw [decimalValue_eq, decimalFrom, List.foldl_cons]
    exact lt_of_lt_of_le (by omega) hle

/-- The number a digit string spells. -/
def spelledValue (ds : List UInt8) (negative : Bool) : Int :=
  if negative then -(decimalValue ds : Int) else decimalValue ds

/-- The decimal reader returns the number that the digits spell if it is one of 64 bits, and fails
otherwise. No digit string makes an operation of it overflow. It reads back every number that is
written, the least one included. -/
theorem decimalI64_exact (before ds after : List UInt8) (negative : Bool) (n : Int64)
    (hds : ∀ b ∈ ds, isDigit b = true) :
    let s := before ++ ds ++ after
    let stop := before.length + ds.length
    runDecimalI64 s before.length stop negative =
        some (decimalI64 s before.length stop negative) ∧
      decimalI64 s before.length stop negative =
        (if -2 ^ 63 ≤ spelledValue ds negative ∧ spelledValue ds negative ≤ 2 ^ 63 - 1 then
          some (.ofInt (spelledValue ds negative)) else none) ∧
      decimalI64 (writeInt n) (if n.toInt < 0 then 1 else 0) (writeInt n).length
        (decide (n.toInt < 0)) = some n := by
  intro s stop
  have hdigits : ∀ b ∈ ds, b ∈ digitBytes := fun b hb => isDigit_iff.mp (hds b hb)
  have hreads : Reads s before.length ds stop := by
    refine ⟨?_, rfl⟩
    show (before ++ ds ++ after).drop before.length =
      ds ++ (before ++ ds ++ after).drop (before.length + ds.length)
    rw [← List.length_append, List.drop_left, List.append_assoc, List.drop_left]
  have hiff := fun m => decimalI64_eq_some_iff (n := m) hreads hdigits negative
  refine ⟨runDecimalI64_eq hreads hdigits negative, ?_, ?_⟩
  · split_ifs with hrange
    · rw [hiff]
      exact Int64.toInt_ofInt_of_le (by omega) (by omega)
    · rw [Option.eq_none_iff_forall_ne_some]
      intro m hm
      have hval : m.toInt = spelledValue ds negative := (hiff m).mp hm
      have hlt := m.toInt_lt
      have hge := m.le_toInt
      omega
  · have hword := writeInt_text n
    generalize writeInt n = w at hword
    cases hword with
    | nonneg hds hn =>
      rw [if_neg (by omega), decide_eq_false (by omega)]
      exact (decimalI64_eq_some_iff (i := 0) (j := w.length) ⟨by simp, by simp⟩ hds.mem_digits
        false).mpr (by simpa using hn)
    | @neg ds n hds hne hn =>
      have hpos : 0 < decimalValue ds := hds.decimalValue_pos hne
      rw [if_pos (by omega), decide_eq_true (by omega)]
      refine (decimalI64_eq_some_iff ⟨?_, ?_⟩ hds.mem_digits true).mpr (by simpa using hn)
      · simp
      · rw [List.length_cons]
        omega

/-- The magnitude of the least number of 64 bits is read as that number. -/
theorem decimalI64_least :
    decimalI64 (['-'.toUInt8] ++ "9223372036854775808".toList.map Char.toUInt8 ++ []) 1 20 true =
      some Int64.minValue := by
  have h := decimalI64_exact ['-'.toUInt8] ("9223372036854775808".toList.map Char.toUInt8) [] true
    Int64.minValue (by decide +kernel)
  exact h.2.1.trans (by decide)

end Averin
