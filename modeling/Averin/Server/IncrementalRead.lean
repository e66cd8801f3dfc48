import Averin.Canon.Object
import Averin.Core.Outcome
import Averin.Store.Paging

/-!
# Reading records from an ordinal on

A reader asks for the records after the last ordinal that it holds, the oldest first, and follows
the answers. The server answers only if a page holds exactly the next ordinals.
-/

namespace Averin

/-- The rows of a project in the order of their ordinals, which are integers of 64 bits. -/
structure OrdTable where
  rows : List (Int × Record)
  sorted : rows.Pairwise fun r s => r.1 < s.1
  ranged : ∀ r ∈ rows, -2 ^ 63 ≤ r.1 ∧ r.1 < 2 ^ 63

namespace OrdTable

variable (t : OrdTable)

/-- The largest ordinal, or zero without a row. -/
def recordCount : Int := (t.rows.getLast?.map Prod.fst).getD 0

/-- The first `limit` rows whose ordinal exceeds `after`. -/
def recordsAfter (after limit : Int) : List (Int × Record) :=
  if limit ≤ 0 then []
  else
    let after := if after < 0 then 0 else after
    (t.rows.filter fun r => after < r.1).take limit.toNat

/-- The text of the record with an ordinal. -/
def recordAt (ord : Int) : Option CanonValue :=
  (t.rows.find? fun r => r.1 == ord).map fun r => r.2.json

variable {t}

/-- No ordinal exceeds the count. -/
theorem le_recordCount {r : Int × Record} (h : r ∈ t.rows) : r.1 ≤ t.recordCount := by
  obtain ⟨init, last, hrows⟩ := (List.eq_nil_or_concat' t.rows).resolve_left (List.ne_nil_of_mem h)
  have hsorted := t.sorted
  unfold recordCount
  rw [hrows, List.pairwise_append] at hsorted
  rw [hrows, List.mem_append] at h
  rw [hrows, List.getLast?_append, List.getLast?_singleton, Option.some_or, Option.map_some,
    Option.getD_some]
  rcases h with hinit | hlast
  · exact (hsorted.2.2 r hinit last List.mem_cons_self).le
  · rw [List.mem_singleton.mp hlast]

/-- A row is the only one with its ordinal. -/
theorem recordAt_of_mem {r : Int × Record} (h : r ∈ t.rows) : t.recordAt r.1 = some r.2.json := by
  unfold recordAt
  cases hfind : t.rows.find? fun s => s.1 == r.1 with
  | none =>
    have hno := List.find?_eq_none.mp hfind r h
    rw [beq_self_eq_true] at hno
    exact absurd rfl hno
  | some s =>
    have hs := List.mem_of_find?_eq_some hfind
    have hord : s.1 = r.1 := by simpa using List.find?_some hfind
    obtain rfl : s = r := by
      by_contra hne
      rcases List.Pairwise.forall_of_forall_of_flip
        (R := fun a b : Int × Record => a = b ∨ a.1 ≠ b.1) (fun a _ => Or.inl rfl)
        (t.sorted.imp fun hlt => Or.inr (ne_of_lt hlt))
        (t.sorted.imp fun hlt => Or.inr (ne_of_gt hlt)) hs h with heq | hord'
      · exact hne heq
      · exact hord' hord
    rfl

/-- A text under an ordinal is a row's. -/
theorem mem_of_recordAt {ord : Int} {json : CanonValue} (h : t.recordAt ord = some json) :
    ∃ r ∈ t.rows, r.1 = ord ∧ r.2.json = json := by
  unfold recordAt at h
  obtain ⟨r, hfind, rfl⟩ := Option.map_eq_some_iff.mp h
  exact ⟨r, List.mem_of_find?_eq_some hfind, by simpa using List.find?_some hfind, rfl⟩

/-- A page has rows of the table only. -/
theorem mem_of_mem_recordsAfter {r : Int × Record} {after limit : Int} (hafter : 0 ≤ after)
    (h : r ∈ t.recordsAfter after limit) : r ∈ t.rows ∧ after < r.1 := by
  unfold recordsAfter at h
  by_cases hlimit : limit ≤ 0
  · rw [if_pos hlimit] at h
    cases h
  · rw [if_neg hlimit, if_neg (by omega)] at h
    have hmem := List.mem_filter.mp (List.mem_of_mem_take h)
    exact ⟨hmem.1, of_decide_eq_true hmem.2⟩

/-- A page is in order. -/
theorem recordsAfter_sorted (after limit : Int) :
    (t.recordsAfter after limit).Pairwise fun r s => r.1 < s.1 := by
  unfold recordsAfter
  by_cases hlimit : limit ≤ 0
  · rw [if_pos hlimit]
    exact List.Pairwise.nil
  · rw [if_neg hlimit]
    exact (t.sorted.filter _).take

end OrdTable

/-- What a query for the records after an ordinal asks for. -/
structure IncrementalReadParams where
  after : Int
  limit : Int
  atSeq : Option Int

/-- The rows and the checkpoints that one read sees. -/
structure ReadSnapshot where
  table : OrdTable
  checks : List Checkpoint

/-- What a reader gets to know of a checkpoint. -/
structure ReadCheckpoint where
  seq : Int
  hash : String
  recordCount : Int

/-- The answer to a read. -/
structure IncrementalResponse where
  records : List CanonValue
  total : Int
  after : Int
  nextAfter : Int
  more : Bool
  latestCheckpoint : Option ReadCheckpoint
  atSeq : Option ReadCheckpoint

/-- A checkpoint without a readable count is no frontier. -/
def toReadCheckpoint (cp : Checkpoint) : Except String ReadCheckpoint :=
  match intOf cp.json "record_count" with
  | some count =>
    if 0 ≤ count then .ok ⟨cp.seq, cp.checkpointHash, count⟩
    else .error s!"checkpoint {cp.seq} has no readable record_count"
  | none => .error s!"checkpoint {cp.seq} has no readable record_count"

/-- From position `i` of a page on, each row has the ordinal of its position after `after`. -/
def checkOrdinalsFrom (after : Int) : Nat → List (Int × Record) → Except String Unit
  | _, [] => .ok ()
  | i, r :: page =>
    let want := wrapInt64 (after + i + 1)
    if r.1 ≠ want then
      .error (s!"store: record ordinals are not contiguous: expected ordinal {want} at position " ++
        s!"{i} after ordinal {after}, store returned {r.1} (a record is missing or the store is " ++
        "not insert-only)")
    else checkOrdinalsFrom after (i + 1) page

/-- A page holds exactly the ordinals that follow `after`, in order. -/
def checkPageOrdinals (page : List (Int × Record)) (after : Int) : Except String Unit :=
  checkOrdinalsFrom after 0 page

/-- A page has no gap, and a short page ends at the largest ordinal. -/
def ordinalGap (after : Int) (page : List (Int × Record)) (total limit : Int) :
    Except String Unit :=
  match checkPageOrdinals page after with
  | .error e => .error s!"record ordinal gap: {e}"
  | .ok () =>
    if limit ≤ page.length ∨ page.length = 0 ∧ total ≤ after then .ok ()
    else
      let stop := wrapInt64 (after + page.length)
      if stop ≠ total then
        .error (s!"record ordinal gap: the page ends at ordinal {stop} but the store holds " ++
          s!"{total} records (a record is missing)")
      else .ok ()

/-- The records after an ordinal, the oldest first, or the error that is answered. -/
def handleIncrementalRead (snap : ReadSnapshot) (p : IncrementalReadParams) :
    Except String IncrementalResponse := do
  let total := snap.table.recordCount
  let page := snap.table.recordsAfter p.after p.limit
  let latest ← snap.checks.getLast?.mapM toReadCheckpoint
  let sealedAt ← (snap.checks.filter fun cp => p.atSeq == some cp.seq).mapM toReadCheckpoint
  ordinalGap p.after page total p.limit
  let next := wrapInt64 (p.after + page.length)
  return { records := page.map fun r => r.2.json, total := total, after := p.after,
           nextAfter := next, more := next < total, latestCheckpoint := latest,
           atSeq := sealedAt.getLast? }

variable {t : OrdTable}

/-- Rows above their position whose ordinals pass the check have consecutive ordinals: a sum that
wraps would be negative. -/
theorem ordinals_of_check {after : Int} :
    ∀ {page : List (Int × Record)} {i : Nat}, checkOrdinalsFrom after i page = .ok () →
      (∀ r ∈ page, r.1 < 2 ^ 63) → 0 ≤ after + i → after + i < 2 ^ 63 →
      (∀ r ∈ page, after + i < r.1) → page.Pairwise (fun r s => r.1 < s.1) →
      page.map Prod.fst = (List.range page.length).map fun k : Nat => after + i + k + 1
  | [], _, _, _, _, _, _, _ => rfl
  | r :: page, i, h, hrange, hnonneg, hlt, habove, hsorted => by
    rw [checkOrdinalsFrom] at h
    split_ifs at h with hwant
    have hr := hrange r List.mem_cons_self
    have hafter := habove r List.mem_cons_self
    have hord : r.1 = after + i + 1 := by
      by_cases hfits : after + i + 1 < 2 ^ 63
      · rw [wrapInt64_of_fits (by omega)] at hwant
        exact not_not.mp hwant
      · rw [wrapInt64_of_over (by omega)] at hwant
        omega
    have hsplit := List.pairwise_cons.mp hsorted
    have hrest := ordinals_of_check h (fun s hs => hrange s (List.mem_cons_of_mem r hs))
      (by push_cast; omega) (by push_cast; omega)
      (fun s hs => by have hlt := hsplit.1 s hs; push_cast; omega) hsplit.2
    rw [List.map_cons, hrest, List.length_cons, List.range_succ_eq_map, List.map_cons, List.map_map,
      hord]
    congr 1
    · simp
    · apply List.map_congr_left
      intro k _
      simp only [Function.comp_apply]
      push_cast
      omega

/-- A page of a table that passes the check holds exactly the ordinals that follow. -/
theorem ordinals_of_checkPage {after limit : Int} (hafter : 0 ≤ after ∧ after < 2 ^ 63)
    (h : checkPageOrdinals (t.recordsAfter after limit) after = .ok ()) :
    (t.recordsAfter after limit).map Prod.fst =
      (List.range (t.recordsAfter after limit).length).map fun k : Nat => after + k + 1 := by
  have hords := ordinals_of_check h
    (fun r hr => (t.ranged r (OrdTable.mem_of_mem_recordsAfter hafter.1 hr).1).2)
    (by push_cast; omega) (by push_cast; omega)
    (fun r hr => by
      have hlt := (OrdTable.mem_of_mem_recordsAfter hafter.1 hr).2
      push_cast
      omega)
    (OrdTable.recordsAfter_sorted after limit)
  simpa using hords

/-- No gap is reported only for a page whose ordinals pass the check. -/
theorem checkPage_of_ordinalGap {after total limit : Int} {page : List (Int × Record)}
    (h : ordinalGap after page total limit = .ok ()) : checkPageOrdinals page after = .ok () := by
  unfold ordinalGap at h
  cases hcheck : checkPageOrdinals page after with
  | error e =>
    rw [hcheck] at h
    cases h
  | ok => rfl

/-- What an answer says, and that its page has no gap. -/
theorem handleIncrementalRead_eq_ok {snap : ReadSnapshot} {p : IncrementalReadParams}
    {resp : IncrementalResponse} (h : handleIncrementalRead snap p = .ok resp) :
    checkPageOrdinals (snap.table.recordsAfter p.after p.limit) p.after = .ok () ∧
    resp.records = (snap.table.recordsAfter p.after p.limit).map (fun r => r.2.json) ∧
    resp.total = snap.table.recordCount ∧
    resp.nextAfter = wrapInt64 (p.after + (snap.table.recordsAfter p.after p.limit).length) ∧
    resp.more = decide (resp.nextAfter < resp.total) := by
  unfold handleIncrementalRead at h
  simp only [] at h
  obtain ⟨latest, _, h⟩ := bind_eq_ok_iff.mp h
  obtain ⟨sealedAt, _, h⟩ := bind_eq_ok_iff.mp h
  obtain ⟨_, hgap, h⟩ := bind_eq_ok_iff.mp h
  obtain rfl := Except.ok.inj h
  exact ⟨checkPage_of_ordinalGap hgap, rfl, rfl, rfl, rfl⟩

/-- A reader from the first ordinal on: what it received, where it reads next, and whether its last
answer said that there is more, with the table of that answer. Between two reads the table may only
grow; a read that is refused gives nothing. -/
inductive ReadSoFar : OrdTable → List CanonValue → Int → Bool → Prop where
  | start (t : OrdTable) : ReadSoFar t [] 0 true
  | read {t : OrdTable} {received : List CanonValue} {after : Int} {more : Bool}
      {snap : ReadSnapshot} {p : IncrementalReadParams} {resp : IncrementalResponse} :
      ReadSoFar t received after more → t.rows ⊆ snap.table.rows → p.after = after →
      handleIncrementalRead snap p = .ok resp →
      ReadSoFar snap.table (received ++ resp.records) resp.nextAfter resp.more

/-- A reader holds the records of the ordinals from one up to where it reads next. -/
structure HoldsBelow (t : OrdTable) (received : List CanonValue) (after : Int) : Prop where
  range : 0 ≤ after ∧ after < 2 ^ 63
  all : received.map some = (List.range after.toNat).map fun i : Nat => t.recordAt (i + 1)

/-- A table that grows holds what it held. -/
theorem HoldsBelow.mono {t' : OrdTable} {received : List CanonValue} {after : Int}
    (h : HoldsBelow t received after) (hsub : t.rows ⊆ t'.rows) : HoldsBelow t' received after := by
  refine ⟨h.range, ?_⟩
  rw [h.all]
  apply List.map_congr_left
  intro i hi
  -- Each ordinal below is that of a row, because it was received.
  have hsome : t.recordAt (i + 1) ∈ received.map some := by
    rw [h.all]
    exact List.mem_map_of_mem hi
  obtain ⟨json, _, hjson⟩ := List.mem_map.mp hsome
  obtain ⟨r, hr, hord, rfl⟩ := OrdTable.mem_of_recordAt hjson.symm
  rw [← hord, OrdTable.recordAt_of_mem hr, OrdTable.recordAt_of_mem (hsub hr)]

/-- A reader never holds more than the table. -/
theorem HoldsBelow.le_recordCount {received : List CanonValue} {after : Int}
    (h : HoldsBelow t received after) (hpos : 0 < after) : after ≤ t.recordCount := by
  have hsome : t.recordAt after ∈ received.map some := by
    rw [h.all]
    refine List.mem_map.mpr ⟨after.toNat - 1, List.mem_range.mpr (by omega), ?_⟩
    congr 1
    omega
  obtain ⟨json, _, hjson⟩ := List.mem_map.mp hsome
  obtain ⟨r, hr, hord, _⟩ := OrdTable.mem_of_recordAt hjson.symm
  rw [← hord]
  exact OrdTable.le_recordCount hr

/-- A read that is answered keeps what the reader holds and adds its page. -/
theorem HoldsBelow.read {snap : ReadSnapshot} {p : IncrementalReadParams}
    {resp : IncrementalResponse}
    {received : List CanonValue} (h : HoldsBelow snap.table received p.after)
    (hread : handleIncrementalRead snap p = .ok resp) :
    HoldsBelow snap.table (received ++ resp.records) resp.nextAfter := by
  obtain ⟨hcheck, hrecords, _, hnext, _⟩ := handleIncrementalRead_eq_ok hread
  have hords := ordinals_of_checkPage h.range hcheck
  generalize hpage : snap.table.recordsAfter p.after p.limit = page at hcheck hrecords hnext hords
  have hmem : ∀ r ∈ page, r ∈ snap.table.rows := by
    intro r hr
    rw [← hpage] at hr
    exact (OrdTable.mem_of_mem_recordsAfter h.range.1 hr).1
  have hfits : p.after + page.length < 2 ^ 63 := by
    have hrange := h.range
    cases hn : page.length with
    | zero => omega
    | succ n =>
      have hlast : p.after + n + 1 ∈ page.map Prod.fst := by
        rw [hords, hn]
        exact List.mem_map.mpr ⟨n, List.mem_range.mpr (Nat.lt_succ_self n), rfl⟩
      obtain ⟨r, hr, hord⟩ := List.mem_map.mp hlast
      have hlt := (snap.table.ranged r (hmem r hr)).2
      push_cast
      omega
  rw [wrapInt64_of_fits (by have hrange := h.range; omega)] at hnext
  have hrange := h.range
  refine ⟨by omega, ?_⟩
  have hjsons : page.map (fun r => some r.2.json) =
      (page.map Prod.fst).map snap.table.recordAt := by
    rw [List.map_map]
    apply List.map_congr_left
    intro r hr
    exact (OrdTable.recordAt_of_mem (hmem r hr)).symm
  rw [List.map_append, h.all, hrecords, List.map_map, hnext,
    show (p.after + page.length).toNat = p.after.toNat + page.length by omega, List.range_add,
    List.map_append, List.map_map]
  congr 1
  rw [show ((some : CanonValue → Option CanonValue) ∘ fun r : Int × Record => r.2.json) =
    fun r => some r.2.json from rfl, hjsons, hords, List.map_map]
  apply List.map_congr_left
  intro k _
  simp only [Function.comp_apply]
  congr 1
  push_cast
  omega

/-- However a reader got to its place, it holds all records up to it. -/
theorem ReadSoFar.holds {received : List CanonValue} {after : Int} {more : Bool}
    (h : ReadSoFar t received after more) : HoldsBelow t received after := by
  induction h with
  | start t => exact ⟨by omega, rfl⟩
  | read _ hsub hafter hread ih =>
    obtain rfl := hafter
    exact (ih.mono hsub).read hread

/-- An answer without more was read to the largest ordinal or beyond. -/
theorem ReadSoFar.recordCount_le {received : List CanonValue} {after : Int} {more : Bool}
    (h : ReadSoFar t received after more) (hmore : more = false) : t.recordCount ≤ after := by
  cases h with
  | start => cases hmore
  | read _ _ _ hread =>
    obtain ⟨_, _, htotal, _, hflag⟩ := handleIncrementalRead_eq_ok hread
    rw [hflag, decide_eq_false_iff_not, htotal] at hmore
    omega

/-- Records with the ordinals that follow `k`. -/
def rowsFrom : Nat → List Record → List (Int × Record)
  | _, [] => []
  | k, r :: records => (k + 1, r) :: rowsFrom (k + 1) records

theorem rowsFrom_length (k : Nat) (records : List Record) :
    (rowsFrom k records).length = records.length := by
  induction records generalizing k with
  | nil => rfl
  | cons r records ih => rw [rowsFrom, List.length_cons, List.length_cons, ih]

theorem rowsFrom_drop (k n : Nat) (records : List Record) :
    (rowsFrom k records).drop n = rowsFrom (k + n) (records.drop n) := by
  induction records generalizing k n with
  | nil => rw [rowsFrom, List.drop_nil, List.drop_nil, rowsFrom]
  | cons r records ih =>
    cases n with
    | zero => rfl
    | succ n => rw [rowsFrom, List.drop_succ_cons, List.drop_succ_cons, ih, Nat.add_right_comm,
        Nat.add_assoc]

theorem rowsFrom_take (k n : Nat) (records : List Record) :
    (rowsFrom k records).take n = rowsFrom k (records.take n) := by
  induction records generalizing k n with
  | nil => rw [rowsFrom, List.take_nil, List.take_nil, rowsFrom]
  | cons r records ih =>
    cases n with
    | zero => rfl
    | succ n => rw [rowsFrom, List.take_succ_cons, List.take_succ_cons, ih, rowsFrom]

/-- An ordinal lies in its range. -/
theorem mem_rowsFrom {k : Nat} {records : List Record} {r : Int × Record}
    (h : r ∈ rowsFrom k records) : (k : Int) < r.1 ∧ r.1 ≤ k + records.length := by
  induction records generalizing k with
  | nil => cases h
  | cons s records ih =>
    rw [List.length_cons]
    rcases List.mem_cons.mp h with rfl | hrest
    · push_cast
      omega
    · have hbounds := ih hrest
      push_cast at hbounds ⊢
      omega

/-- Rows that are numbered are in order. -/
theorem rowsFrom_sorted (k : Nat) (records : List Record) :
    (rowsFrom k records).Pairwise fun r s => r.1 < s.1 := by
  induction records generalizing k with
  | nil => exact List.Pairwise.nil
  | cons r records ih =>
    refine List.pairwise_cons.mpr ⟨?_, ih (k + 1)⟩
    intro s hs
    have hlt := (mem_rowsFrom hs).1
    push_cast at hlt
    exact hlt

/-- The rows above an ordinal are those from its position on. -/
theorem rowsFrom_filter (k : Nat) (after : Int) (records : List Record) :
    ((rowsFrom k records).filter fun r => after < r.1) =
      (rowsFrom k records).drop (after - k).toNat := by
  induction records generalizing k with
  | nil => rw [rowsFrom, List.filter_nil, List.drop_nil]
  | cons r records ih =>
    by_cases hlt : after < k + 1
    · rw [show (after - k).toNat = 0 by omega, List.drop_zero]
      apply List.filter_eq_self.mpr
      intro s hs
      have hbound := (mem_rowsFrom hs).1
      exact decide_eq_true (by omega)
    · rw [rowsFrom, List.filter_cons_of_neg (by simpa using hlt), ih,
        show (after - k).toNat = (after - (k + 1 : Nat)).toNat + 1 by push_cast; omega,
        List.drop_succ_cons]

/-- Numbering a slice from an ordinal on does not overflow. -/
theorem zipIdx_map_ordinals {a j : Nat} {records : List Record}
    (h : a + j + records.length < 2 ^ 63) :
    ((records.zipIdx j).map fun r => (wrapInt64 ((a : Int) + r.2 + 1), r.1)) =
      rowsFrom (a + j) records := by
  induction records generalizing j with
  | nil => rfl
  | cons r records ih =>
    rw [List.length_cons] at h
    rw [List.zipIdx_cons, List.map_cons, rowsFrom, ih (by omega),
      wrapInt64_of_fits (by omega)]
    push_cast
    rfl

namespace RecordSlice

/-- The store in memory as a table: the ordinal of a record is its position plus one. -/
def table (recs : RecordSlice) : OrdTable where
  rows := rowsFrom 0 recs.items
  sorted := rowsFrom_sorted 0 recs.items
  ranged := by
    intro r hr
    have hbounds := mem_rowsFrom hr
    have hlength := recs.length_lt
    push_cast at hbounds
    omega

variable {recs : RecordSlice}

/-- For all integers of 64 bits the store in memory gives the page of its table. -/
theorem recordsAfter_eq {after limit : Int} (hafter : -2 ^ 63 ≤ after ∧ after < 2 ^ 63)
    (hlimit : -2 ^ 63 ≤ limit ∧ limit < 2 ^ 63) :
    recs.recordsAfter after limit = some (recs.table.recordsAfter after limit) := by
  have hlength := recs.length_lt
  unfold recordsAfter OrdTable.recordsAfter
  by_cases hnone : limit ≤ 0
  · rw [if_pos hnone, if_pos hnone]
  rw [if_neg hnone, if_neg hnone]
  obtain ⟨a, ha⟩ : ∃ a : Nat, (if after < 0 then 0 else after) = a := by
    split_ifs
    · exact ⟨0, rfl⟩
    · exact ⟨after.toNat, by omega⟩
  have hlt : (a : Int) < 2 ^ 63 := by
    split_ifs at ha <;> omega
  simp only [ha]
  have hfilter := rowsFrom_filter 0 a recs.items
  rw [Nat.cast_zero, sub_zero, Int.toNat_natCast, rowsFrom_drop, Nat.zero_add] at hfilter
  rw [show recs.table.rows = rowsFrom 0 recs.items from rfl, hfilter]
  by_cases hpast : (recs.items.length : Int) ≤ a
  · rw [if_pos hpast, List.drop_eq_nil_of_le (by omega), rowsFrom, List.take_nil]
  rw [if_neg hpast]
  -- The sum that wraps is below `after`, so the page then ends with the records.
  obtain ⟨stop, hstop, hstop'⟩ : ∃ stop : Nat,
      (if (recs.items.length : Int) < wrapInt64 (a + limit) ∨ wrapInt64 (a + limit) < a then
        (recs.items.length : Int) else wrapInt64 (a + limit)) = stop ∧
      stop = min recs.items.length (a + limit.toNat) := by
    by_cases hfits : (a : Int) + limit < 2 ^ 63
    · rw [wrapInt64_of_fits (by omega)]
      refine ⟨min recs.items.length (a + limit.toNat), ?_, rfl⟩
      split_ifs <;> omega
    · rw [wrapInt64_of_over (by omega), if_pos (by omega)]
      refine ⟨recs.items.length, rfl, ?_⟩
      omega
  rw [hstop, if_pos (by omega), Int.toNat_natCast, Int.toNat_natCast]
  have hnumbered := @zipIdx_map_ordinals a 0 ((recs.items.take stop).drop a) (by
    rw [List.length_drop, List.length_take]
    omega)
  rw [hnumbered, rowsFrom_take, List.drop_take, Nat.add_zero]
  congr 2
  by_cases hend : a + limit.toNat ≤ recs.items.length
  · rw [show stop - a = limit.toNat by omega]
  · rw [List.take_of_length_le, List.take_of_length_le] <;> rw [List.length_drop] <;> omega

end RecordSlice

/-- A table without a gap, whose ordinals are the positions of its rows. -/
def OrdTable.Gapless (t : OrdTable) : Prop := t.rows = rowsFrom 0 (t.rows.map Prod.snd)

/-- The records of the rows are the records. -/
theorem map_snd_rowsFrom (k : Nat) (records : List Record) :
    (rowsFrom k records).map Prod.snd = records := by
  induction records generalizing k with
  | nil => rfl
  | cons r records ih => rw [rowsFrom, List.map_cons, ih]

/-- The store in memory leaves no gap. -/
theorem RecordSlice.table_gapless (recs : RecordSlice) : recs.table.Gapless := by
  unfold OrdTable.Gapless
  rw [show recs.table.rows = rowsFrom 0 recs.items from rfl, map_snd_rowsFrom]

/-- The last ordinal is the number of records. -/
theorem getLast?_rowsFrom (k : Nat) (records : List Record) :
    ((rowsFrom k records).getLast?.map Prod.fst).getD k = (k : Int) + records.length := by
  induction records generalizing k with
  | nil => exact (Int.add_zero _).symm
  | cons r records ih =>
    have hrest := ih (k + 1)
    rw [rowsFrom, List.length_cons]
    cases records with
    | nil => simp [rowsFrom]
    | cons s records =>
      rw [rowsFrom] at hrest ⊢
      rw [List.getLast?_cons_cons]
      have hsome : (((↑(k + 1) + 1 : Int), s) :: rowsFrom (k + 1 + 1) records).getLast? ≠ none := by
        simp
      obtain ⟨last, hlast⟩ := Option.ne_none_iff_exists'.mp hsome
      rw [hlast, Option.map_some, Option.getD_some] at hrest ⊢
      rw [hrest]
      push_cast
      omega

/-- Rows that are numbered without a gap pass the check. -/
theorem checkOrdinalsFrom_rowsFrom (a i : Nat) (records : List Record)
    (h : a + i + records.length < 2 ^ 63) :
    checkOrdinalsFrom a i (rowsFrom (a + i) records) = .ok () := by
  induction records generalizing i with
  | nil => rfl
  | cons r records ih =>
    rw [List.length_cons] at h
    have hwant : wrapInt64 ((a : Int) + i + 1) = (a + i : Nat) + 1 := by
      rw [wrapInt64_of_fits (by omega)]
      push_cast
      rfl
    rw [rowsFrom, checkOrdinalsFrom]
    dsimp only
    rw [hwant, if_neg (by simp)]
    exact ih (i + 1) (by omega)

namespace OrdTable.Gapless

variable {t : OrdTable}

/-- The largest ordinal is the number of rows. -/
theorem recordCount_eq (h : t.Gapless) : t.recordCount = t.rows.length := by
  have hlast := getLast?_rowsFrom 0 (t.rows.map Prod.snd)
  rw [← h, List.length_map, Nat.cast_zero, zero_add] at hlast
  exact hlast

/-- The number of rows has sixty-four bits. -/
theorem length_lt (h : t.Gapless) : t.rows.length < 2 ^ 63 := by
  cases hlast : t.rows.getLast? with
  | none =>
    rw [List.getLast?_eq_none_iff] at hlast
    rw [hlast]
    exact Nat.two_pow_pos 63
  | some r =>
    have hcount := h.recordCount_eq
    have hranged := (t.ranged r (List.mem_of_getLast? hlast)).2
    rw [recordCount, hlast, Option.map_some, Option.getD_some] at hcount
    omega

variable {after limit : Int}

/-- A page is numbered on from the ordinal it follows. -/
theorem recordsAfter_eq (h : t.Gapless) (hafter : 0 ≤ after) (hlimit : 0 < limit) :
    t.recordsAfter after limit =
      rowsFrom after.toNat (((t.rows.map Prod.snd).drop after.toNat).take limit.toNat) := by
  obtain ⟨a, rfl⟩ := Int.eq_ofNat_of_zero_le hafter
  unfold Gapless at h
  generalize t.rows.map Prod.snd = records at h ⊢
  unfold recordsAfter
  rw [if_neg (by omega), if_neg (by omega), h]
  dsimp only
  rw [rowsFrom_filter]
  simp only [Nat.cast_zero, sub_zero, Int.toNat_natCast]
  rw [rowsFrom_drop, Nat.zero_add, rowsFrom_take]

/-- A page is full, or has the rows that are left. -/
theorem length_recordsAfter (h : t.Gapless) (hafter : 0 ≤ after) (hlimit : 0 < limit) :
    (t.recordsAfter after limit).length = min limit.toNat (t.rows.length - after.toNat) := by
  rw [h.recordsAfter_eq hafter hlimit, rowsFrom_length, List.length_take, List.length_drop,
    List.length_map]

/-- A page ends at the limit or at the largest ordinal. -/
theorem nextAfter_eq (h : t.Gapless) (hafter : 0 ≤ after ∧ after ≤ t.recordCount)
    (hlimit : 0 < limit) : wrapInt64 (after + (t.recordsAfter after limit).length) =
      min t.recordCount (after + limit) := by
  have hfits := h.length_lt
  rw [h.recordCount_eq] at hafter ⊢
  rw [h.length_recordsAfter hafter.1 hlimit, wrapInt64_of_fits (by omega)]
  omega

/-- A page passes for one without a gap. -/
theorem ordinalGap_eq (h : t.Gapless) (hafter : 0 ≤ after ∧ after ≤ t.recordCount)
    (hlimit : 0 < limit) :
    ordinalGap after (t.recordsAfter after limit) t.recordCount limit = .ok () := by
  have hfits := h.length_lt
  have hlength := h.length_recordsAfter hafter.1 hlimit
  have hstop := h.nextAfter_eq hafter hlimit
  have hcheck : checkPageOrdinals (t.recordsAfter after limit) after = .ok () := by
    rw [h.recordsAfter_eq hafter.1 hlimit]
    obtain ⟨a, rfl⟩ := Int.eq_ofNat_of_zero_le hafter.1
    rw [h.recordCount_eq] at hafter
    refine checkOrdinalsFrom_rowsFrom a 0 _ ?_
    rw [List.length_take, List.length_drop, List.length_map, Int.toNat_natCast]
    omega
  unfold ordinalGap
  rw [hcheck]
  dsimp only
  rw [h.recordCount_eq] at hafter hstop ⊢
  split_ifs with hfull hend
  · rfl
  · exfalso
    rw [hstop] at hend
    rw [hlength] at hfull
    omega
  · rfl

end OrdTable.Gapless

/-- A table without a gap is answered with its page, which ends at the limit or at the largest
ordinal. -/
theorem handleIncrementalRead_gapless {snap : ReadSnapshot} {p : IncrementalReadParams}
    (hgap : snap.table.Gapless) (hchecks : ∀ cp ∈ snap.checks, ∃ c, toReadCheckpoint cp = .ok c)
    (hafter : 0 ≤ p.after ∧ p.after ≤ snap.table.recordCount) (hlimit : 0 < p.limit) :
    ∃ resp, handleIncrementalRead snap p = .ok resp ∧
      resp.records = (snap.table.recordsAfter p.after p.limit).map (fun r => r.2.json) ∧
      resp.total = snap.table.recordCount ∧
      resp.nextAfter = min snap.table.recordCount (p.after + p.limit) ∧
      (resp.more = true ↔ resp.nextAfter < snap.table.recordCount) := by
  obtain ⟨latest, hlatest⟩ : ∃ c, snap.checks.getLast?.mapM toReadCheckpoint = .ok c := by
    cases hlast : snap.checks.getLast? with
    | none => exact ⟨none, rfl⟩
    | some cp =>
      obtain ⟨c, hc⟩ := hchecks cp (List.mem_of_getLast? hlast)
      exact ⟨some c, by simp only [Option.mapM_some, hc]; rfl⟩
  obtain ⟨sealedAt, hsealed⟩ :
      ∃ cs, (snap.checks.filter fun cp => p.atSeq == some cp.seq).mapM toReadCheckpoint =
        .ok cs := by
    apply mapM_isOk
    intro cp hcp
    exact hchecks cp (List.mem_of_mem_filter hcp)
  have hanswer : handleIncrementalRead snap p = .ok
      { records := (snap.table.recordsAfter p.after p.limit).map fun r => r.2.json
        total := snap.table.recordCount
        after := p.after
        nextAfter := wrapInt64 (p.after + (snap.table.recordsAfter p.after p.limit).length)
        more := wrapInt64 (p.after + (snap.table.recordsAfter p.after p.limit).length) <
          snap.table.recordCount
        latestCheckpoint := latest
        atSeq := sealedAt.getLast? } := by
    unfold handleIncrementalRead
    simp only [hlatest, hsealed, hgap.ordinalGap_eq hafter hlimit]
    rfl
  exact ⟨_, hanswer, rfl, rfl, hgap.nextAfter_eq hafter hlimit, decide_eq_true_iff⟩

/-- A reader that follows the answers until there is no more received the record of each ordinal
from one to the total, once and in order. A table without a gap is answered with its page, and the
store in memory gives the page of such a table. -/
theorem incrementalRead_complete :
    (∀ {t : OrdTable} {received : List CanonValue} {after : Int},
      ReadSoFar t received after false →
      received.map some = (List.range t.recordCount.toNat).map fun i : Nat => t.recordAt (i + 1)) ∧
    (∀ (snap : ReadSnapshot) (p : IncrementalReadParams), snap.table.Gapless →
      (∀ cp ∈ snap.checks, ∃ c, toReadCheckpoint cp = .ok c) →
      0 ≤ p.after ∧ p.after ≤ snap.table.recordCount → 0 < p.limit →
      ∃ resp, handleIncrementalRead snap p = .ok resp ∧
        resp.records = (snap.table.recordsAfter p.after p.limit).map (fun r => r.2.json) ∧
        resp.total = snap.table.recordCount ∧
        resp.nextAfter = min snap.table.recordCount (p.after + p.limit) ∧
        (resp.more = true ↔ resp.nextAfter < snap.table.recordCount)) ∧
    ∀ (recs : RecordSlice), recs.table.Gapless ∧ ∀ after limit : Int,
      -2 ^ 63 ≤ after ∧ after < 2 ^ 63 → -2 ^ 63 ≤ limit ∧ limit < 2 ^ 63 →
      recs.recordsAfter after limit = some (recs.table.recordsAfter after limit) := by
  refine ⟨?_, fun snap p hgap hchecks hafter hlimit =>
    handleIncrementalRead_gapless hgap hchecks hafter hlimit,
    fun recs => ⟨recs.table_gapless, fun after limit => RecordSlice.recordsAfter_eq⟩⟩
  intro t received after h
  have hholds := h.holds
  have hle := h.recordCount_le rfl
  have hnonneg := hholds.range.1
  have hat : t.recordCount.toNat = after.toNat := by
    by_cases hpos : 0 < after
    · have hge := hholds.le_recordCount hpos
      omega
    · omega
  rw [hat]
  exact hholds.all

/-- A record with a number for its text. -/
def numberedRecord (n : Int64) : Record where
  json := .int n
  contentHash := "h"
  sessionId := "s"
  parents := []
  disclosures := []

/-- A store that holds two records, and the same one with a third. -/
def twoRows : RecordSlice where
  items := [numberedRecord 7, numberedRecord 8]
  fits := of_decide_eq_true rfl

/-- The same one with a third record. -/
def threeRows : RecordSlice where
  items := [numberedRecord 7, numberedRecord 8, numberedRecord 9]
  fits := of_decide_eq_true rfl

/-- A reader that takes one record, and then the others, of which one was added meanwhile. The page
it takes last is also that of a sum that wraps. -/
theorem incrementalRead_complete_pages :
    [CanonValue.int 7, .int 8, .int 9].map some =
      (List.range threeRows.table.recordCount.toNat).map
        (fun i : Nat => threeRows.table.recordAt (i + 1)) ∧
    (∃ resp, handleIncrementalRead ⟨threeRows.table, []⟩ ⟨1, 1, none⟩ = .ok resp ∧
      resp.nextAfter = 2) ∧
    threeRows.recordsAfter 1 (2 ^ 63 - 1) =
      some (threeRows.table.recordsAfter 1 (2 ^ 63 - 1)) := by
  have hfits : ∀ n : Int, 0 ≤ n → n < 2 ^ 63 → wrapInt64 n = n :=
    fun n hn hlt => wrapInt64_of_fits ⟨by omega, hlt⟩
  have hfirst : handleIncrementalRead ⟨twoRows.table, []⟩ ⟨0, 1, none⟩ =
      .ok ⟨[.int 7], 2, 0, 1, true, none, none⟩ := by
    simp [handleIncrementalRead, OrdTable.recordCount, OrdTable.recordsAfter, RecordSlice.table,
      twoRows, numberedRecord, rowsFrom, ordinalGap, checkPageOrdinals, checkOrdinalsFrom, hfits]
  have hrest : handleIncrementalRead ⟨threeRows.table, []⟩ ⟨1, 100, none⟩ =
      .ok ⟨[.int 8, .int 9], 3, 1, 3, false, none, none⟩ := by
    simp [handleIncrementalRead, OrdTable.recordCount, OrdTable.recordsAfter, RecordSlice.table,
      threeRows, numberedRecord, rowsFrom, ordinalGap, checkPageOrdinals, checkOrdinalsFrom,
      hfits]
  have hread : ReadSoFar twoRows.table [.int 7] 1 true :=
    @ReadSoFar.read twoRows.table [] 0 true ⟨twoRows.table, []⟩ ⟨0, 1, none⟩
      ⟨[.int 7], 2, 0, 1, true, none, none⟩ (.start twoRows.table) (List.Subset.refl _) rfl
      hfirst
  have hgrown : twoRows.table.rows ⊆ threeRows.table.rows := by
    intro r hr
    simp only [RecordSlice.table, twoRows, threeRows, rowsFrom, List.mem_cons,
      List.not_mem_nil, or_false] at hr ⊢
    exact hr.elim Or.inl fun h => Or.inr (Or.inl h)
  have hdone : ReadSoFar threeRows.table [.int 7, .int 8, .int 9] 3 false :=
    @ReadSoFar.read twoRows.table [.int 7] 1 true ⟨threeRows.table, []⟩ ⟨1, 100, none⟩
      ⟨[.int 8, .int 9], 3, 1, 3, false, none, none⟩ hread hgrown rfl hrest
  have hcount : threeRows.table.recordCount = 3 := rfl
  obtain ⟨hfollow, hanswer, hmem⟩ := incrementalRead_complete
  refine ⟨hfollow hdone, ?_, (hmem threeRows).2 1 (2 ^ 63 - 1) (by omega) (by omega)⟩
  obtain ⟨resp, hresp, -, -, hnext, -⟩ := hanswer ⟨threeRows.table, []⟩ ⟨1, 1, none⟩
    (hmem threeRows).1 (fun cp hcp => by cases hcp) (by dsimp only; rw [hcount]; omega)
    (by decide)
  exact ⟨resp, hresp, hnext⟩

end Averin
