import Averin.Dag.Exact
import Averin.Segment.Months

/-!
# Counting the uncommitted records

A split that reaches its end reports how many records no checkpoint commits, as the number of
records less the size of the last closure. The closure also holds the hashes that name no record,
so it can be the larger one, and then the subtraction stops the program.
-/

namespace Averin

open Std (TreeMap)

/-- The steps of a split before the last check: the segments, and the size of the last
closure. -/
def splitCounted (N : Normalizer) (bundle : CanonValue) :
    Except SplitError (List (String × CanonValue) × Nat) := do
  let records := arrayOf bundle "records"
  let cps := arrayOf bundle "checkpoints"
  require (cps ≠ []) .noCheckpoints
  let cps := cps.insertionSort fun a b => seqOf a ≤ seqOf b
  let byHash ← indexFirst records 0 ∅
  let groups ← groupByMonth cps []
  splitMonths N bundle records byHash groups [] none 0

/-- A run of the split. The count in its last refusal is computed before it is reported, and
`none` is a run that stops there. The positions that the walk reads are in range. -/
def splitRun (N : Normalizer) (bundle : CanonValue) :
    Option (Except SplitError (List (String × CanonValue))) :=
  let records := arrayOf bundle "records"
  match splitCounted N bundle with
  | .error e => some (.error e)
  | .ok (out, total) =>
    if total = records.length then some (.ok out)
    else (subUsize records.length total).map fun _ => .error (.uncommitted records.length total)

variable {N : Normalizer} {bundle : CanonValue} {records cps : List CanonValue}
  {byHash : TreeMap String Nat} {groups : List (String × List CanonValue)}

/-- Splitting is counting and comparing. -/
theorem splitBundle_eq : splitBundle N bundle = splitCounted N bundle >>= fun r => do
    require (r.2 = (arrayOf bundle "records").length)
      (.uncommitted (arrayOf bundle "records").length r.2)
    return r.1 := by
  simp only [splitBundle, splitCounted, bind_assoc]

/-- A run that is not stopped answers as the split does. -/
theorem splitBundle_of_splitRun {r : Except SplitError (List (String × CanonValue))}
    (h : splitRun N bundle = some r) : splitBundle N bundle = r := by
  rw [splitBundle_eq]
  unfold splitRun at h
  cases hc : splitCounted N bundle with
  | error e =>
    rw [hc] at h
    exact Option.some.inj h
  | ok counted =>
    obtain ⟨out, total⟩ := counted
    rw [hc] at h
    simp only at h
    split_ifs at h with htotal
    · obtain rfl := Option.some.inj h
      simp [bind, Except.bind, require, htotal, pure, Except.pure]
    · obtain ⟨_, -, rfl⟩ := Option.map_eq_some_iff.mp h
      simp [bind, Except.bind, require, htotal]

theorem splitRun_eq_none_iff_counted : splitRun N bundle = none ↔
    ∃ out total, splitCounted N bundle = .ok (out, total) ∧
      (arrayOf bundle "records").length < total := by
  unfold splitRun
  cases splitCounted N bundle with
  | error e => simp
  | ok counted =>
    obtain ⟨out, total⟩ := counted
    simp only [Except.ok.injEq, Prod.mk.injEq]
    by_cases htotal : total = (arrayOf bundle "records").length
    · rw [if_pos htotal]
      simp only [reduceCtorEq, false_iff]
      rintro ⟨_, _, ⟨-, rfl⟩, hlt⟩
      omega
    · rw [if_neg htotal, Option.map_eq_none_iff, subUsize, ite_eq_right_iff]
      constructor
      · intro hle
        refine ⟨out, total, ⟨rfl, rfl⟩, ?_⟩
        by_contra hlt
        simpa using hle (by omega)
      · rintro ⟨_, _, ⟨-, rfl⟩, hlt⟩ hle
        omega

/-- Every checkpoint is dated, and none in an earlier month than one before it. -/
structure Dated (cps : List CanonValue) : Prop where
  dated : ∀ c ∈ cps, ∃ m, createdMonth c = .ok m
  forward : cps.Pairwise fun a b => ∀ m n, createdMonth a = .ok m → createdMonth b = .ok n → m ≤ n

/-- A checkpoint that a segment can start from. -/
structure IsBase (cp : CanonValue) : Prop where
  seq : (checkpointSeq cp).isSome = true
  hash : (strOf cp "checkpoint_hash").isSome = true

/-- A month end counts its closure, and can be a base unless it is the last. -/
structure IsMonthEnd (records : List CanonValue) (byHash : TreeMap String Nat) (cp : CanonValue)
    (later : List CanonValue) : Prop where
  counted : recordCount cp = some ((closure records byHash cp).length : Int)
  based : later ≠ [] → IsBase cp

/-- The keys of the last segment. -/
def segmentKeys (bundle : CanonValue) (members : List (String × CanonValue)) : List String :=
  (segmentMembers bundle members [] [] true .null).map (·.1)

/-- Every checkpoint has a month. -/
theorem MonthGroups.dated (h : MonthGroups cps groups) : Dated cps := by
  constructor
  · intro c hc
    rw [← h.flat, List.mem_flatMap] at hc
    obtain ⟨g, hg, hcg⟩ := hc
    exact ⟨g.1, h.month g hg c hcg⟩
  · rw [← h.flat, List.pairwise_flatMap]
    constructor
    · intro g hg
      refine List.pairwise_of_forall_mem_list fun a ha b hb m n hm hn => ?_
      rw [h.month g hg a ha] at hm
      rw [h.month g hg b hb] at hn
      rw [← Except.ok.inj hm, ← Except.ok.inj hn]
    · refine h.increasing.imp_of_mem fun {g g'} hg hg' hlt a ha b hb m n hm hn => ?_
      rw [h.month g hg a ha] at hm
      rw [h.month g' hg' b hb] at hn
      rw [← Except.ok.inj hm, ← Except.ok.inj hn]
      exact hlt.le

/-- Checkpoints are grouped exactly when they are dated. -/
theorem groupByMonth_isOk_iff {rest : List CanonValue} (h : MonthGroups cps groups) :
    (∃ groups', groupByMonth rest groups = .ok groups') ↔ Dated (cps ++ rest) := by
  constructor
  · rintro ⟨groups', hg⟩
    exact (groupByMonth_eq_ok h hg).dated
  · intro hd
    induction rest generalizing cps groups with
    | nil => exact ⟨groups, rfl⟩
    | cons cp rest ih =>
      obtain ⟨month, hm⟩ := hd.dated cp (by simp)
      obtain ⟨mid, hadd⟩ : ∃ mid, addToMonth groups month cp = .ok mid := by
        unfold addToMonth
        cases hlast : groups.getLast? with
        | none => exact ⟨_, rfl⟩
        | some g =>
          obtain ⟨last, group⟩ := g
          have hmem : (last, group) ∈ groups := List.mem_of_getLast? hlast
          obtain ⟨c, hc⟩ := List.exists_mem_of_ne_nil _ (h.nonempty _ hmem)
          have hle : last ≤ month := by
            refine (List.pairwise_append.mp hd.forward).2.2 c ?_ cp (by simp) _ _
              (h.month _ hmem c hc) hm
            rw [← h.flat]
            exact List.mem_flatMap_of_mem hmem hc
          simp only [if_neg (not_lt.mpr hle)]
          split_ifs
          · exact ⟨_, rfl⟩
          · exact ⟨_, rfl⟩
      have := ih (addToMonth_eq_ok h hm hadd) (by simpa using hd)
      simpa only [groupByMonth, hm, hadd, bind, Except.bind] using this

/-- A base is read when it is one and has its count. -/
theorem baseFields_isOk_iff {b : CanonValue} :
    (∃ fields, baseFields N (some b) = .ok fields) ↔
      IsBase b ∧ (recordCount b).isSome = true := by
  simp only [baseFields, bind_eq_ok_iff, orFail_eq_ok_iff]
  constructor
  · rintro ⟨_, seq, hseq, hash, hhash, count, hcount, -⟩
    exact ⟨⟨by simp [hseq], by simp [hhash]⟩, by simp [hcount]⟩
  · rintro ⟨⟨hseq, hhash⟩, hcount⟩
    obtain ⟨seq, hseq⟩ := Option.isSome_iff_exists.mp hseq
    obtain ⟨hash, hhash⟩ := Option.isSome_iff_exists.mp hhash
    obtain ⟨count, hcount⟩ := Option.isSome_iff_exists.mp hcount
    exact ⟨_, seq, hseq, hash, hhash, count, hcount, rfl⟩

/-- The keys of a segment are among those of the last. -/
theorem segmentMembers_keys_sublist {members : List (String × CanonValue)}
    {mine checkpoints : List CanonValue} {isLast : Bool} {block : CanonValue} :
    ((segmentMembers bundle members mine checkpoints isLast block).map (·.1)).Sublist
      (segmentKeys bundle members) := by
  simp only [segmentKeys, segmentMembers, List.map_append]
  refine ((((List.Sublist.refl _).append ?_).append ?_).append ?_).append ?_
  · cases isLast <;> simp
  · simp
  · split_ifs <;> simp
  · simp

/-- The keys of the last segment. -/
theorem segmentMembers_keys_last {members : List (String × CanonValue)}
    {mine checkpoints : List CanonValue} {block : CanonValue} :
    (segmentMembers bundle members mine checkpoints true block).map (·.1) =
      segmentKeys bundle members := by
  simp only [segmentKeys, segmentMembers, List.map_append, List.map_cons, List.map_nil]
  congr 2
  split_ifs <;> simp

/-- The members of a bundle can stand in its last segment. -/
def KeysDiffer (N : Normalizer) (bundle : CanonValue) : Prop :=
  ∃ members, bundle = .obj members ∧ ((segmentKeys bundle members).map (nfc N)).Nodup

section Segment

variable {month : String} {base : Option CanonValue} {group mine : List CanonValue}

/-- A segment is built when its keys differ and its base is read. -/
theorem segmentBundle_isOk (hkeys : KeysDiffer N bundle)
    (hbase : ∃ fields, baseFields N base = .ok fields) (isLast : Bool) :
    ∃ segment, segmentBundle N bundle month base group mine isLast = .ok segment := by
  obtain ⟨members, hobj, hnodup⟩ := hkeys
  obtain ⟨fields, hfields⟩ := hbase
  have hasObj : bundle.asObject = some members := by rw [hobj]; rfl
  simp only [segmentBundle, bind_eq_ok_iff, orFail_eq_ok_iff, mapError_eq_ok_iff]
  refine ⟨_, fields, hfields, members, hasObj, _, object_eq_ok_iff.mpr ⟨?_, rfl⟩,
    object_eq_ok_iff.mpr ⟨?_, rfl⟩⟩
  · simp only [List.map_cons, List.map_nil]
    rw [nfc_of_isAscii N (by decide), nfc_of_isAscii N (by decide), nfc_of_isAscii N (by decide),
      nfc_of_isAscii N (by decide), nfc_of_isAscii N (by decide)]
    decide
  · have hcomp : (fun m : String × CanonValue => nfc N m.1) = nfc N ∘ Prod.fst := rfl
    rw [hcomp, ← List.map_map]
    exact hnodup.sublist (segmentMembers_keys_sublist.map _)

/-- A segment that is built has distinct keys. -/
theorem keysDiffer_of_segmentBundle {segment : CanonValue}
    (h : segmentBundle N bundle month base group mine true = .ok segment) :
    KeysDiffer N bundle := by
  obtain ⟨_, members, _, -, hobj, -, hseg⟩ := segmentBundle_eq_ok h
  refine ⟨members, hobj, ?_⟩
  have := (object_eq_ok_iff.mp hseg).1
  rw [← segmentMembers_keys_last, List.map_map]
  exact this

end Segment

/-- The segments of all months are built exactly when the members of the bundle can stand in the
last, and every month end counts its closure and can be the next base. -/
theorem splitMonths_isOk_iff (h : MonthGroups cps groups) {prev : List String}
    {base : Option CanonValue} {n : Nat} :
    (∃ out total, splitMonths N bundle records byHash groups prev base n = .ok (out, total)) ↔
      (groups ≠ [] → (∃ fields, baseFields N base = .ok fields) ∧ KeysDiffer N bundle) ∧
        ∀ l c r, cps = l ++ c :: r → EndsMonth c r → IsMonthEnd records byHash c r := by
  induction groups generalizing cps prev base n with
  | nil =>
    obtain rfl := h.flat
    simp [splitMonths]
  | cons g groups ih =>
    obtain ⟨month, group⟩ := g
    obtain ⟨init, last, rfl⟩ : ∃ init last, group = init ++ [last] := by
      rcases group.eq_nil_or_concat with rfl | ⟨init, last, rfl⟩
      · exact absurd rfl (h.nonempty (month, []) (by simp))
      · exact ⟨init, last, by simp⟩
    have hrest : MonthGroups (groups.flatMap (·.2)) groups :=
      ⟨rfl, fun g hg => h.nonempty g (by simp [hg]), fun g hg => h.month g (by simp [hg]),
        (List.pairwise_cons.mp h.increasing).2⟩
    have hnil : groups.flatMap (·.2) ≠ [] ↔ groups ≠ [] := by
      rw [not_iff_not, List.flatMap_eq_nil_iff]
      constructor
      · intro hall
        refine List.eq_nil_iff_forall_not_mem.mpr fun g hg => hrest.nonempty g hg (hall g hg)
      · rintro rfl
        simp
    rw [← h.flat, List.flatMap_cons, h.forall_end_cons_iff]
    simp only [splitMonths, bind_eq_ok_iff, orFail_eq_ok_iff, require_eq_ok_iff,
      List.getLast?_append, List.getLast?_singleton, Option.some_or, Option.some.injEq,
      exists_eq_left', exists_const]
    constructor
    · rintro ⟨out, total, expect, hexpect, hcount, segment, hsegment, ⟨rest, total'⟩, hmonths, -⟩
      have hcounted : recordCount last = some ((closure records byHash last).length : Int) := by
        rw [hexpect, hcount]
      obtain ⟨hbase, hends⟩ := (ih hrest).mp ⟨rest, total', hmonths⟩
      obtain ⟨fields, _, _, hfields, -⟩ := segmentBundle_eq_ok hsegment
      refine ⟨fun _ => ⟨⟨fields, hfields⟩, ?_⟩, ⟨hcounted, fun hne => ?_⟩, fun l => hends l⟩
      · cases groups with
        | nil => exact keysDiffer_of_segmentBundle hsegment
        | cons g groups => exact (hbase (List.cons_ne_nil _ _)).2
      · exact (baseFields_isOk_iff.mp (hbase (hnil.mp hne)).1).1
    · rintro ⟨hbase, ⟨hcounted, hbased⟩, hends⟩
      obtain ⟨hfields, hkeys⟩ := hbase (List.cons_ne_nil _ _)
      obtain ⟨segment, hsegment⟩ := segmentBundle_isOk hkeys hfields groups.isEmpty
      have hnext : groups ≠ [] → ∃ fields, baseFields N (some last) = .ok fields := by
        intro hne
        exact baseFields_isOk_iff.mpr ⟨hbased (hnil.mpr hne), by rw [hcounted]; rfl⟩
      obtain ⟨rest, total, hmonths⟩ :=
        (ih hrest).mpr ⟨fun hne => ⟨hnext hne, hkeys⟩, fun l => hends l⟩
      exact ⟨_, _, _, hcounted, rfl, segment, hsegment, _, hmonths, rfl⟩

/-- The checkpoints in the order in which they are split. -/
def splitOrder (bundle : CanonValue) : List CanonValue :=
  (arrayOf bundle "checkpoints").insertionSort fun a b => seqOf a ≤ seqOf b

/-- A bundle with no other fault, whose latest checkpoint commits more hashes than there are
records. -/
structure Overcounted (N : Normalizer) (bundle : CanonValue) (byHash : TreeMap String Nat) :
    Prop where
  indexed : indexFirst (arrayOf bundle "records") 0 ∅ = .ok byHash
  keys : KeysDiffer N bundle
  dated : Dated (splitOrder bundle)
  ends : ∀ l c r, splitOrder bundle = l ++ c :: r → EndsMonth c r →
    IsMonthEnd (arrayOf bundle "records") byHash c r
  exceeds : ∃ last, (splitOrder bundle).getLast? = some last ∧
    (arrayOf bundle "records").length < (closure (arrayOf bundle "records") byHash last).length

/-- There are checkpoints to split by. -/
theorem splitOrder_ne_nil : splitOrder bundle ≠ [] ↔ arrayOf bundle "checkpoints" ≠ [] := by
  rw [not_iff_not, ← List.length_eq_zero_iff, ← List.length_eq_zero_iff, splitOrder,
    List.length_insertionSort]

/-- The number that is kept is the size of the last closure. -/
theorem splitMonths_total_eq (h : MonthGroups cps groups) {out : List (String × CanonValue)}
    {total : Nat} (hs : splitMonths N bundle records byHash groups [] none 0 = .ok (out, total))
    (hends : ∀ l c r, cps = l ++ c :: r → EndsMonth c r → IsMonthEnd records byHash c r)
    (hne : cps ≠ []) :
    ∃ last, cps.getLast? = some last ∧ total = (closure records byHash last).length := by
  have hgne : groups ≠ [] := by
    rintro rfl
    exact hne h.flat.symm
  have hg := List.getLast?_eq_getLast_of_ne_nil hgne
  obtain ⟨last, hlast, hcount⟩ := splitMonths_total hs hg
  rw [← h.getLast? hg] at hlast
  obtain ⟨init, heq⟩ := List.getLast?_eq_some_iff.mp hlast
  have hend := hends init last [] heq (by simp [EndsMonth])
  refine ⟨last, hlast, ?_⟩
  have := Option.some.inj (hcount.symm.trans hend.counted)
  omega

/-- A split runs to an answer exactly when the bundle has another fault or its latest checkpoint
commits no more hashes than there are records. -/
theorem splitRun_ne_none_iff (N : Normalizer) (bundle : CanonValue) :
    splitRun N bundle ≠ none ↔ ¬ ∃ byHash, Overcounted N bundle byHash := by
  rw [not_iff_not, splitRun_eq_none_iff_counted]
  simp only [splitCounted, bind_eq_ok_iff, require_eq_ok_iff, exists_const]
  rw [← splitOrder_ne_nil]
  constructor
  · rintro ⟨out, total, ⟨hne, byHash, hindex, groups, hgroups, hmonths⟩, hlt⟩
    have hg : MonthGroups (splitOrder bundle) groups := groupByMonth_eq_ok .nil hgroups
    have hgne : groups ≠ [] := by
      rintro rfl
      exact hne hg.flat.symm
    obtain ⟨hkeys, hends⟩ := (splitMonths_isOk_iff hg).mp ⟨out, total, hmonths⟩
    obtain ⟨last, hlast, rfl⟩ := splitMonths_total_eq hg hmonths hends hne
    exact ⟨byHash, hindex, (hkeys hgne).2, hg.dated, hends, last, hlast, hlt⟩
  · rintro ⟨byHash, hindex, hkeys, hdated, hends, last, hlast, hlt⟩
    have hne : splitOrder bundle ≠ [] := by
      intro hnil
      simp [hnil] at hlast
    obtain ⟨groups, hgroups⟩ := (groupByMonth_isOk_iff .nil).mpr hdated
    have hg : MonthGroups (splitOrder bundle) groups := groupByMonth_eq_ok .nil hgroups
    have hfirst : ∃ fields, baseFields N none = .ok fields := ⟨_, rfl⟩
    obtain ⟨out, total, hmonths⟩ :=
      (splitMonths_isOk_iff hg).mpr ⟨fun _ => ⟨hfirst, hkeys⟩, hends⟩
    obtain ⟨last', hlast', rfl⟩ := splitMonths_total_eq hg hmonths hends hne
    obtain rfl := Option.some.inj (hlast.symm.trans hlast')
    exact ⟨out, _, ⟨hne, byHash, hindex, groups, hgroups, hmonths⟩, hlt⟩

/-- One checkpoint of an empty history, whose frontier names a record that is not there. -/
def danglingBundle : CanonValue :=
  plainBundle [] [datedCheckpoint 0 "h0" .null 1 "2026-01-31" ["x"]]

/-- A bundle can stop the program. -/
theorem splitRun_dangling : splitRun .identity danglingBundle = none := rfl

end Averin
