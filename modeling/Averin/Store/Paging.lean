import Averin.Core.Wrapping
import Averin.Store.Project

/-!
# Reading records page by page

The store in memory keeps records in the order they came and gives out pages of them, the newest
first or from an ordinal on. All counts are integers of 64 bits, which wrap.
-/

namespace Averin

/-- The most bytes that one allocation can have. -/
def maxAlloc : Nat := 2 ^ 48

/-- The bytes of a record in a slice: three strings, two slices and an ordinal. -/
def recordSize : Nat := 104

/-- The records of a project: as many as one allocation holds. -/
structure RecordSlice where
  items : List Record
  fits : recordSize * items.length ≤ maxAlloc

namespace RecordSlice

variable (recs : RecordSlice)

/-- Making a slice panics if its capacity is negative or does not fit. -/
def canMake (capacity : Int) : Bool := 0 ≤ capacity && recordSize * capacity ≤ maxAlloc

/-- An index outside the slice panics. -/
def index (i : Int) : Option Record := if 0 ≤ i then recs.items[i.toNat]? else none

/-- Up to `limit` records without the newest `offset`, the newest first; `none` is a panic. -/
def recordsPage (limit offset : Int) : Option (List Record) :=
  if limit ≤ 0 then some []
  else
    let offset := if offset < 0 then 0 else offset
    let total : Int := recs.items.length
    let start := if total < offset then total else offset
    let stop := wrapInt64 (offset + limit)
    let stop := if total < stop then total else stop
    if canMake (wrapInt64 (stop - start)) then
      (List.range (stop - start).toNat).mapM fun i : Nat => recs.index (total - 1 - (start + i))
    else none

/-- Up to `limit` records after the ordinal `after` with their ordinals, the oldest first; `none`
is a panic. -/
def recordsAfter (after limit : Int) : Option (List (Int × Record)) :=
  if limit ≤ 0 then some []
  else
    let after := if after < 0 then 0 else after
    let total : Int := recs.items.length
    if total ≤ after then some []
    else
      let stop := wrapInt64 (after + limit)
      let stop := if total < stop ∨ stop < after then total else stop
      -- A slice expression panics unless its bounds are ordered and within the slice.
      if 0 ≤ after ∧ after ≤ stop ∧ stop ≤ total then
        some (((recs.items.take stop.toNat).drop after.toNat).zipIdx.map fun r =>
          (wrapInt64 (after + r.2 + 1), r.1))
      else none

theorem length_lt : (recs.items.length : Int) < 2 ^ 48 := by
  have hfits := recs.fits
  unfold recordSize maxAlloc at hfits
  omega

variable {recs}

/-- A slice is made when its size fits. -/
theorem canMake_iff {capacity : Int} :
    canMake capacity = true ↔ 0 ≤ capacity ∧ recordSize * capacity ≤ maxAlloc := by
  simp [canMake]

/-- Position `i` from the newest record. -/
theorem index_eq {i : Nat} (h : i < recs.items.length) :
    recs.index (recs.items.length - 1 - i) = recs.items.reverse[i]? := by
  rw [index, if_pos (by omega), List.getElem?_reverse h]
  congr 1
  omega

/-- A page that stays within the records is read without a panic. -/
theorem mapM_index {start n : Nat} (h : start + n ≤ recs.items.length) :
    ((List.range n).mapM fun i : Nat => recs.index (recs.items.length - 1 - (start + i))) =
      some ((recs.items.reverse.drop start).take n) := by
  induction n with
  | zero => rfl
  | succ n ih =>
    have hlt : start + n < recs.items.reverse.length := by
      rw [List.length_reverse]
      omega
    have hread := @index_eq recs (start + n) (by omega)
    rw [List.getElem?_eq_getElem hlt] at hread
    push_cast at hread
    rw [List.range_succ, List.mapM_append, ih (by omega), List.mapM_cons, List.mapM_nil, hread,
      List.take_add_one, List.getElem?_drop, List.getElem?_eq_getElem hlt]
    rfl

/-- Without a sum over the end a page is exactly what stands at its positions. -/
theorem recordsPage_eq {limit offset : Int} (hlimit : 0 < limit) (hoffset : 0 ≤ offset)
    (hsum : offset + limit < 2 ^ 63) :
    recs.recordsPage limit offset =
      some ((recs.items.reverse.drop offset.toNat).take limit.toNat) := by
  have hlength := recs.length_lt
  have hfits := recs.fits
  obtain ⟨start, hstart⟩ : ∃ start : Nat, (if (recs.items.length : Int) < offset then
      (recs.items.length : Int) else offset) = start := by
    split_ifs
    · exact ⟨_, rfl⟩
    · exact ⟨offset.toNat, by omega⟩
  obtain ⟨n, hn⟩ : ∃ n : Nat, (if (recs.items.length : Int) < offset + limit then
      (recs.items.length : Int) else offset + limit) = start + n := by
    refine ⟨((if (recs.items.length : Int) < offset + limit then
      (recs.items.length : Int) else offset + limit) - start).toNat, ?_⟩
    split_ifs at hstart ⊢ <;> omega
  have hle : start + n ≤ recs.items.length := by
    split_ifs at hn <;> omega
  have hcap : canMake (wrapInt64 (start + n - start)) = true := by
    rw [add_sub_cancel_left, wrapInt64_of_fits (by omega), canMake_iff]
    refine ⟨by omega, ?_⟩
    have hmul := Nat.mul_le_mul_left recordSize (show n ≤ recs.items.length by omega)
    exact_mod_cast hmul.trans hfits
  have hpage : recs.recordsPage limit offset = some ((recs.items.reverse.drop start).take n) := by
    unfold recordsPage
    rw [if_neg (by omega)]
    simp only [if_neg (not_lt.mpr hoffset)]
    rw [@wrapInt64_of_fits (offset + limit) (by omega), hstart, hn, if_pos hcap,
      add_sub_cancel_left, Int.toNat_natCast, mapM_index hle]
  rw [hpage]
  congr 1
  by_cases hpast : (recs.items.length : Int) < offset
  · rw [List.drop_eq_nil_of_le (show recs.items.reverse.length ≤ offset.toNat by
      rw [List.length_reverse]; omega)]
    rw [if_pos hpast] at hstart
    rw [List.drop_eq_nil_of_le (by rw [List.length_reverse]; omega), List.take_nil, List.take_nil]
  · rw [if_neg hpast] at hstart
    obtain rfl : start = offset.toNat := by omega
    by_cases hend : (recs.items.length : Int) < offset + limit
    · rw [if_pos hend] at hn
      rw [List.take_of_length_le, List.take_of_length_le] <;>
        rw [List.length_drop, List.length_reverse] <;> omega
    · rw [if_neg hend] at hn
      congr 1
      omega

/-- A sum over the end panics. -/
theorem recordsPage_eq_none {limit offset : Int} (hlimit : 0 < limit ∧ limit ≤ 1000)
    (hoffset : 0 ≤ offset ∧ offset < 2 ^ 63) (hsum : 2 ^ 63 ≤ offset + limit) :
    recs.recordsPage limit offset = none := by
  have hlength := recs.length_lt
  unfold recordsPage
  rw [if_neg (by omega)]
  simp only [if_neg (not_lt.mpr hoffset.1)]
  rw [@wrapInt64_of_over (offset + limit) (by omega),
    if_pos (show (recs.items.length : Int) < offset by omega),
    if_neg (show ¬(recs.items.length : Int) < offset + limit - 2 ^ 64 by omega), if_neg]
  rw [canMake_iff]
  rintro ⟨hnonneg, hsize⟩
  -- The capacity is negative, or so far below that it wraps to one that is too large.
  by_cases hlow : -2 ^ 63 ≤ offset + limit - 2 ^ 64 - recs.items.length
  · rw [wrapInt64_of_fits (by omega)] at hnonneg
    omega
  · rw [wrapInt64_of_under (by omega)] at hsize
    unfold recordSize maxAlloc at hsize
    omega

/-- A page is what stands at its positions and no panic exactly if its sum stays within the integers
of 64 bits, and then the pages of one length give the whole history, the newest first. -/
theorem recordsPage_exact {limit : Int} (hlimit : 1 ≤ limit ∧ limit ≤ 1000) :
    (∀ offset : Int, 0 ≤ offset ∧ offset < 2 ^ 63 →
      (recs.recordsPage limit offset =
        some ((recs.items.reverse.drop offset.toNat).take limit.toNat) ↔
          offset + limit ≤ 2 ^ 63 - 1)) ∧
    ∀ n : Nat, n * limit ≤ 2 ^ 63 - 1 →
      ((List.range n).mapM fun k : Nat => recs.recordsPage limit (k * limit)).map List.flatten =
        some (recs.items.reverse.take (n * limit.toNat)) := by
  refine ⟨?_, ?_⟩
  · intro offset hoffset
    constructor
    · intro hpage
      by_contra hover
      rw [recordsPage_eq_none (by omega) hoffset (by omega)] at hpage
      cases hpage
    · intro hsum
      exact recordsPage_eq (by omega) hoffset.1 (by omega)
  · intro n
    induction n with
    | zero =>
      intro _
      simp
    | succ n ih =>
      intro hsum
      push_cast at hsum
      rw [add_mul, one_mul] at hsum
      have hnonneg : 0 ≤ n * limit := mul_nonneg (by omega) (by omega)
      have hpage : recs.recordsPage limit (n * limit) =
          some ((recs.items.reverse.drop (n * limit.toNat)).take limit.toNat) := by
        rw [recordsPage_eq (by omega) hnonneg (by omega)]
        congr 3
        rw [Int.toNat_mul (by omega) (by omega), Int.toNat_natCast]
      obtain ⟨pages, hpages, hflat⟩ := Option.map_eq_some_iff.mp (ih (by omega))
      rw [List.range_succ, List.mapM_append, hpages, List.mapM_cons, List.mapM_nil, hpage]
      simp only [Option.bind_eq_bind, Option.bind_some, Option.pure_def, Option.map_some,
        List.flatten_append, List.flatten_cons, List.flatten_nil, List.append_nil, hflat]
      rw [← List.take_add, Nat.succ_mul]

/-- No record. -/
def emptySlice : RecordSlice := ⟨[], Nat.zero_le _⟩

/-- A record of a session. -/
def pagedRow (contentHash : String) : Record := ⟨.obj [], contentHash, "s", [], []⟩

/-- Two records. -/
def pairSlice : RecordSlice := ⟨[pagedRow "a", pagedRow "b"], by decide⟩

/-- The first page holds the newer record, the last sum that fits is read, and two pages of one
record hold both. -/
theorem recordsPage_exact_pair :
    pairSlice.recordsPage 1 0 = some [pagedRow "b"] ∧
      pairSlice.recordsPage 1 (2 ^ 63 - 2) = some [] ∧
      ((List.range 2).mapM fun k : Nat => pairSlice.recordsPage 1 (k * 1)).map List.flatten =
        some [pagedRow "b", pagedRow "a"] := by
  obtain ⟨hpage, htiles⟩ := @recordsPage_exact pairSlice 1 (by omega)
  refine ⟨(hpage 0 (by omega)).mpr (by omega), ?_, htiles 2 (by omega)⟩
  rw [(hpage (2 ^ 63 - 2) (by omega)).mpr (by omega), List.drop_eq_nil_of_le, List.take_nil]
  decide

/-- The last offset that the handler admits panics. -/
theorem page_at_last_offset : emptySlice.recordsPage 1 (2 ^ 63 - 1) = none :=
  recordsPage_eq_none (by omega) (by omega) (by omega)

end RecordSlice

end Averin
