import Averin.Canon.RoundTrip
import Averin.Segment.Split

/-!
# Which month carries a record

A month carries what its last checkpoint commits and the last one of the month before does not,
so a record is carried wherever the commitment of the month ends to it rises. That is once, and
in the month of the first checkpoint that commits it, exactly when no month end drops a record
that was committed before.
-/

namespace Averin

open Std (TreeMap)

/-- The checkpoints in groups of one month each, the months increasing. -/
structure MonthGroups (cps : List CanonValue) (groups : List (String × List CanonValue)) :
    Prop where
  flat : groups.flatMap (·.2) = cps
  nonempty : ∀ g ∈ groups, g.2 ≠ []
  month : ∀ g ∈ groups, ∀ c ∈ g.2, createdMonth c = .ok g.1
  increasing : groups.Pairwise (·.1 < ·.1)

variable {cps : List CanonValue} {groups : List (String × List CanonValue)}

theorem MonthGroups.nil : MonthGroups [] [] := ⟨rfl, by simp, by simp, .nil⟩

/-- A checkpoint of a later month starts a group. -/
theorem MonthGroups.append_month (h : MonthGroups cps groups) {month : String} {cp : CanonValue}
    (hm : createdMonth cp = .ok month) (hlt : ∀ g ∈ groups, g.1 < month) :
    MonthGroups (cps ++ [cp]) (groups ++ [(month, [cp])]) := by
  refine ⟨?_, ?_, ?_, ?_⟩
  · rw [List.flatMap_append, h.flat]
    rfl
  · rw [List.forall_mem_append]
    exact ⟨h.nonempty, by simp⟩
  · rw [List.forall_mem_append]
    exact ⟨h.month, by simpa using hm⟩
  · rw [List.pairwise_append]
    exact ⟨h.increasing, by simp, by simpa using hlt⟩

/-- A checkpoint of the last month joins its group. -/
theorem MonthGroups.append_last {init : List (String × List CanonValue)} {month : String}
    {group : List CanonValue} (h : MonthGroups cps (init ++ [(month, group)])) {cp : CanonValue}
    (hm : createdMonth cp = .ok month) :
    MonthGroups (cps ++ [cp]) (init ++ [(month, group ++ [cp])]) := by
  have hnonempty := h.nonempty
  have hmonth := h.month
  have hinc := h.increasing
  rw [List.forall_mem_append] at hnonempty hmonth
  rw [List.pairwise_append] at hinc
  refine ⟨?_, ?_, ?_, ?_⟩
  · rw [← h.flat]
    simp
  · rw [List.forall_mem_append]
    exact ⟨hnonempty.1, by simp⟩
  · rw [List.forall_mem_append]
    refine ⟨hmonth.1, ?_⟩
    rw [List.forall_mem_singleton, List.forall_mem_append]
    exact ⟨hmonth.2 (month, group) (by simp), by simpa using hm⟩
  · rw [List.pairwise_append]
    exact ⟨hinc.1, by simp, by simpa using hinc.2.2⟩

/-- A checkpoint goes to its month. -/
theorem addToMonth_eq_ok (h : MonthGroups cps groups) {month : String} {cp : CanonValue}
    (hm : createdMonth cp = .ok month) {groups' : List (String × List CanonValue)}
    (ha : addToMonth groups month cp = .ok groups') : MonthGroups (cps ++ [cp]) groups' := by
  rcases groups.eq_nil_or_concat with rfl | ⟨init, ⟨last, group⟩, rfl⟩
  · obtain rfl := Except.ok.inj ha
    exact h.append_month hm (by simp)
  · simp only [addToMonth, List.concat_eq_append, List.getLast?_append, List.getLast?_singleton,
      Option.some_or] at ha
    rw [List.concat_eq_append] at h
    split_ifs at ha with heq hlt
    · obtain rfl := Except.ok.inj ha
      rw [List.dropLast_concat]
      exact h.append_last (heq ▸ hm)
    · obtain rfl := Except.ok.inj ha
      refine h.append_month hm (List.forall_mem_append.mpr ⟨fun g hg => ?_, ?_⟩)
      · have hgl := (List.pairwise_append.mp h.increasing).2.2 g hg (last, group) (by simp)
        exact lt_of_lt_of_le hgl (not_lt.mp hlt)
      · simpa using lt_of_le_of_ne (not_lt.mp hlt) heq

/-- Grouping keeps the order and the months. -/
theorem groupByMonth_eq_ok {rest : List CanonValue} (h : MonthGroups cps groups)
    {groups' : List (String × List CanonValue)} (hg : groupByMonth rest groups = .ok groups') :
    MonthGroups (cps ++ rest) groups' := by
  induction rest generalizing cps groups with
  | nil =>
    obtain rfl := Except.ok.inj hg
    rwa [List.append_nil]
  | cons cp rest ih =>
    simp only [groupByMonth, bind_eq_ok_iff] at hg
    obtain ⟨month, hm, mid, hadd, hrest⟩ := hg
    have := ih (addToMonth_eq_ok h hm hadd) hrest
    rwa [List.append_assoc] at this

/-- The labels at which a flag is set that was not set at the label before. -/
def rises {μ : Type} : (prev : Bool) → List (μ × Bool) → List μ
  | _, [] => []
  | prev, (m, b) :: rest => if b && !prev then m :: rises b rest else rises b rest

variable {p : CanonValue → Bool}

/-- Whether the last checkpoint of a month has the property. -/
def endFlag (p : CanonValue → Bool) (g : String × List CanonValue) : String × Bool :=
  (g.1, g.2.getLast?.any p)

/-- A rise is one of the elements. -/
theorem mem_of_mem_rises {μ : Type} {l : List (μ × Bool)} {prev : Bool} {m : μ}
    (h : m ∈ rises prev l) : m ∈ l.map (·.1) := by
  induction l generalizing prev with
  | nil => cases h
  | cons x l ih =>
    obtain ⟨k, b⟩ := x
    rw [rises] at h
    rw [List.map_cons, List.mem_cons]
    split_ifs at h
    · exact (List.mem_cons.mp h).imp_right ih
    · exact Or.inr (ih h)

/-- A flag that ends up set has risen. -/
theorem rises_false_ne_nil {μ : Type} {l : List (μ × Bool)}
    (h : ∃ x ∈ l.getLast?, x.2 = true) : rises false l ≠ [] := by
  induction l with
  | nil => simp at h
  | cons x l ih =>
    obtain ⟨k, b⟩ := x
    rw [rises]
    cases b with
    | true => simp
    | false =>
      cases l with
      | nil => simp at h
      | cons y l =>
        rw [List.getLast?_cons_cons] at h
        simpa using ih h

/-- From the first group with the property on, every month end has it. -/
def Stays (p : CanonValue → Bool) : (seen : Bool) → List (String × List CanonValue) → Prop
  | _, [] => True
  | seen, g :: rest =>
    ((seen || g.2.any p) = true → g.2.getLast?.any p = true) ∧ Stays p (seen || g.2.any p) rest

/-- The month of the first group with the property. -/
def firstMonth (p : CanonValue → Bool) (groups : List (String × List CanonValue)) :
    Option String :=
  (groups.find? fun g => g.2.any p).map (·.1)

/-- What holds of the last holds of some. -/
theorem any_of_getLast?_any {l : List CanonValue} (h : l.getLast?.any p = true) :
    l.any p = true := by
  cases hl : l.getLast? with
  | none => simp [hl] at h
  | some c =>
    rw [hl] at h
    exact List.any_eq_true.mpr ⟨c, List.mem_of_getLast? hl, h⟩

/-- Once set, the flag does not rise again exactly when it stays. -/
theorem rises_true_eq_nil_iff
    (hlast : ∀ g ∈ groups.getLast?, g.2.getLast?.any p = true) :
    rises true (groups.map (endFlag p)) = [] ↔ Stays p true groups := by
  induction groups with
  | nil => simp [rises, Stays]
  | cons g groups ih =>
    simp only [List.map_cons, endFlag, rises, Stays, Bool.true_or, Bool.not_true, Bool.and_false,
      Bool.false_eq_true, if_false, forall_const]
    cases hflag : g.2.getLast?.any p with
    | true =>
      rw [and_iff_right rfl]
      refine ih fun g' hg' => hlast g' ?_
      cases groups with
      | nil => simp at hg'
      | cons x groups => rwa [List.getLast?_cons_cons]
    | false =>
      simp only [Bool.false_eq_true, false_and, iff_false]
      cases groups with
      | nil =>
        have := hlast g rfl
        simp [hflag] at this
      | cons x groups =>
        refine rises_false_ne_nil ?_
        rw [List.getLast?_map]
        have hy := List.getLast?_eq_getLast_of_ne_nil (List.cons_ne_nil x groups)
        rw [hy]
        exact ⟨_, rfl, hlast _ (by rw [List.getLast?_cons_cons, hy]; rfl)⟩

/-- The flag rises once, in the month of the first checkpoint that has the property, exactly
when every month end from there on has it. -/
theorem rises_eq_firstMonth_iff (hinc : groups.Pairwise (·.1 < ·.1)) (hne : groups ≠ [])
    (hlast : ∀ g ∈ groups.getLast?, g.2.getLast?.any p = true) :
    rises false (groups.map (endFlag p)) = (firstMonth p groups).toList ↔
      Stays p false groups := by
  induction groups with
  | nil => exact absurd rfl hne
  | cons g groups ih =>
    obtain ⟨hg, hinc⟩ := List.pairwise_cons.mp hinc
    have htail : ∀ g' ∈ groups.getLast?, g'.2.getLast?.any p = true := by
      intro g' hg'
      cases groups with
      | nil => simp at hg'
      | cons x groups => exact hlast g' (by rwa [List.getLast?_cons_cons])
    simp only [List.map_cons, endFlag, rises, Stays, Bool.not_false, Bool.and_true, Bool.false_or,
      firstMonth]
    cases hany : g.2.any p with
    | false =>
      have hflag : g.2.getLast?.any p = false := by
        rw [← Bool.not_eq_true]
        exact fun h => by simp [any_of_getLast?_any h] at hany
      rw [List.find?_cons_of_neg (by simp [hany]), hflag, if_neg (by simp)]
      simp only [Bool.false_eq_true, false_implies, true_and]
      refine ih hinc ?_ htail
      rintro rfl
      have := hlast g rfl
      simp [hflag] at this
    | true =>
      rw [List.find?_cons_of_pos (by simp [hany])]
      simp only [Option.map_some, Option.toList_some, forall_const]
      cases hflag : g.2.getLast?.any p with
      | true =>
        rw [if_pos rfl, List.cons_eq_cons, and_iff_right rfl, and_iff_right rfl]
        exact rises_true_eq_nil_iff htail
      | false =>
        -- The only rise left is in a later month.
        simp only [Bool.false_eq_true, if_false, false_and, iff_false]
        intro heq
        have hmem : g.1 ∈ rises false (groups.map (endFlag p)) := by
          rw [heq]
          exact List.mem_singleton.mpr rfl
        obtain ⟨x, hx, hxg⟩ := List.mem_map.mp (mem_of_mem_rises hmem)
        obtain ⟨g', hg', rfl⟩ := List.mem_map.mp hx
        exact absurd hxg (hg g' hg').ne'

/-- No later checkpoint of the same month follows. -/
def EndsMonth (c : CanonValue) (later : List CanonValue) : Prop :=
  ∀ c' ∈ later.head?, createdMonth c' ≠ createdMonth c

/-- Every month end has the property that an earlier checkpoint has. -/
def EndsKeep (p : CanonValue → Bool) (before ordered : List CanonValue) : Prop :=
  ∀ l c r, ordered = l ++ c :: r → EndsMonth c r → (before ++ l).any p = true → p c = true

/-- The first month end is that of the first group. -/
theorem MonthGroups.forall_end_cons_iff
    {Q : List CanonValue → CanonValue → List CanonValue → Prop} {init : List CanonValue}
    {month : String} {last : CanonValue}
    (h : MonthGroups cps ((month, init ++ [last]) :: groups)) :
    (∀ l c r, init ++ [last] ++ groups.flatMap (·.2) = l ++ c :: r → EndsMonth c r → Q l c r) ↔
      Q init last (groups.flatMap (·.2)) ∧
        ∀ l c r, groups.flatMap (·.2) = l ++ c :: r → EndsMonth c r →
          Q (init ++ [last] ++ l) c r := by
  have hmonth := List.forall_mem_cons.mp h.month
  have hinc := List.pairwise_cons.mp h.increasing
  have hnonempty := List.forall_mem_cons.mp h.nonempty
  constructor
  · intro hall
    constructor
    · refine hall init last (groups.flatMap (·.2)) (by simp) fun c' hc' heq => ?_
      cases groups with
      | nil => simp at hc'
      | cons g groups =>
        have hg := hnonempty.2 g (by simp)
        rw [List.flatMap_cons, List.head?_append_of_ne_nil _ hg] at hc'
        have hm := (hmonth.2 g (by simp)) c' (List.mem_of_head? hc')
        rw [hm, hmonth.1 last (by simp)] at heq
        exact absurd (Except.ok.inj heq) (hinc.1 g (by simp)).ne'
    · intro l c r heq hends
      exact hall (init ++ [last] ++ l) c r (by rw [heq]; simp) hends
  · rintro ⟨hfirst, hrest⟩ l c r heq hends
    rcases List.append_eq_append_iff.mp heq with ⟨a, rfl, ha⟩ | ⟨a, hl, ha⟩
    · exact hrest a c r ha hends
    · cases a with
      | nil =>
        rw [List.append_nil] at hl
        have := hrest [] c r (by simpa using ha.symm) hends
        rwa [List.append_nil, hl] at this
      | cons x a =>
        obtain ⟨rfl, rfl⟩ := List.cons_eq_cons.mp ha
        cases a with
        | nil =>
          obtain ⟨rfl, hc⟩ := List.append_inj' hl rfl
          obtain rfl := List.singleton_inj.mp hc
          exact hfirst
        | cons y a =>
          -- The next checkpoint is of the same month.
          refine absurd ?_ (hends y rfl)
          have hin : ∀ z ∈ [c, y], z ∈ init ++ [last] := by
            intro z hz
            rw [hl]
            simp only [List.mem_cons, List.not_mem_nil, or_false] at hz
            rcases hz with rfl | rfl <;> simp
          rw [hmonth.1 c (hin c (by simp)), hmonth.1 y (hin y (by simp))]

/-- A first month keeps to its end. -/
theorem endsKeep_cons_iff {init : List CanonValue} {month : String} {last : CanonValue}
    {before : List CanonValue}
    (h : MonthGroups cps ((month, init ++ [last]) :: groups)) :
    EndsKeep p before (init ++ [last] ++ groups.flatMap (·.2)) ↔
      ((before ++ init).any p = true → p last = true) ∧
        EndsKeep p (before ++ (init ++ [last])) (groups.flatMap (·.2)) := by
  unfold EndsKeep
  rw [h.forall_end_cons_iff]
  simp only [List.append_assoc]

/-- Keeping to the ends is staying from month to month. -/
theorem stays_iff_endsKeep {before : List CanonValue} (h : MonthGroups cps groups) :
    Stays p (before.any p) groups ↔ EndsKeep p before cps := by
  induction groups generalizing before cps with
  | nil =>
    obtain rfl := h.flat
    simp [Stays, EndsKeep]
  | cons g groups ih =>
    obtain ⟨month, group⟩ := g
    obtain ⟨init, last, rfl⟩ : ∃ init last, group = init ++ [last] := by
      rcases group.eq_nil_or_concat with rfl | ⟨init, last, rfl⟩
      · exact absurd rfl (h.nonempty (month, []) (by simp))
      · exact ⟨init, last, by simp⟩
    have hrest : MonthGroups (groups.flatMap (·.2)) groups :=
      ⟨rfl, fun g hg => h.nonempty g (by simp [hg]), fun g hg => h.month g (by simp [hg]),
        (List.pairwise_cons.mp h.increasing).2⟩
    rw [← h.flat, List.flatMap_cons, endsKeep_cons_iff h, Stays, ← List.any_append, ih hrest]
    refine and_congr_left fun _ => ?_
    simp only [List.any_append, List.any_cons, List.any_nil, Bool.or_false,
      List.getLast?_append, List.getLast?_singleton, Option.some_or, Option.any_some]
    cases p last <;> simp

variable {records : List CanonValue} {byHash : TreeMap String Nat}

/-- The first positions are an index. -/
theorem indexFirst_eq_ok {i : Nat} {m m' : TreeMap String Nat}
    (h : indexFirst records i m = .ok m') :
    (∀ k, k ∈ m' ↔ k ∈ m ∨ ∃ rec ∈ records, recordHash rec = some k) ∧
      ∀ k j, m'[k]? = some j → m[k]? = some j ∨
        ∃ rec ∈ records, records[j - i]? = some rec ∧ recordHash rec = some k ∧ i ≤ j := by
  induction records generalizing i m with
  | nil =>
    obtain rfl := Except.ok.inj h
    exact ⟨by simp, fun k j hj => Or.inl hj⟩
  | cons rec rest ih =>
    simp only [indexFirst, bind_eq_ok_iff, orFail_eq_ok_iff] at h
    obtain ⟨hash, hhash, hrest⟩ := h
    replace hhash : recordHash rec = some hash := hhash
    obtain ⟨hmem, hget⟩ := ih hrest
    constructor
    · intro k
      rw [hmem, TreeMap.mem_insertIfNew, Std.compare_eq_iff_eq, List.exists_mem_cons_iff, hhash,
        Option.some.injEq]
      tauto
    · intro k j hj
      rcases hget k j hj with hk | ⟨r, hr, hpos, hh, hle⟩
      · rw [TreeMap.getElem?_insertIfNew] at hk
        split_ifs at hk with hnew
        · obtain rfl := Option.some.inj hk
          refine Or.inr ⟨rec, by simp, by simp, ?_, le_refl i⟩
          rw [hhash, Std.compare_eq_iff_eq.mp hnew.1]
        · exact Or.inl hk
      · refine Or.inr ⟨r, List.mem_cons_of_mem _ hr, ?_, hh, by omega⟩
        rw [show j - i = (j - (i + 1)) + 1 by omega, List.getElem?_cons_succ, hpos]

/-- What the first pass builds is an index. -/
theorem indexes_of_indexFirst (h : indexFirst records 0 ∅ = .ok byHash) :
    Indexes records byHash := by
  obtain ⟨hmem, hget⟩ := indexFirst_eq_ok h
  constructor
  · intro k
    rw [hmem]
    simp
  · intro k i hi
    rcases hget k i hi with hk | ⟨rec, hrec, hpos, hh, -⟩
    · simp at hk
    · exact ⟨rec, hrec, hpos, hh⟩

theorem filterMap_arrayOf_frontier (cp : CanonValue) :
    (arrayOf cp "frontier").filterMap CanonValue.asStr = frontierOf cp := by
  unfold arrayOf frontierOf
  cases (cp.get "frontier").bind CanonValue.asArray <;> rfl

/-- The walk of the split finds what the frontier commits. -/
theorem mem_closure_iff (hi : Indexes records byHash) (hr : RecordsBind records) {cp : CanonValue}
    {h : String} : h ∈ closure records byHash cp ↔ h ∈ ancestors records (frontierOf cp) := by
  rw [closure, filterMap_arrayOf_frontier, mem_committedSet_iff]
  have hstep : ParentOf records = fun c p => p ∈ keptParents records byHash c := by
    funext c p
    exact propext (hi.parentOf_iff hr)
  rw [ancestors, hstep]
  rfl

/-- The records of one month. -/
theorem mem_monthRecords_iff {committed prev : List String} {rec : CanonValue} {h : String}
    (hrec : rec ∈ records) (hh : recordHash rec = some h) :
    rec ∈ monthRecords records committed prev ↔ h ∈ committed ∧ h ∉ prev := by
  have hs : strOf rec "content_hash" = some h := hh
  simp [monthRecords, List.mem_filter, hrec, hs]

variable {N : Normalizer} {bundle : CanonValue}

/-- A segment that is built has its members. -/
theorem segmentBundle_eq_ok {month : String} {base : Option CanonValue}
    {group mine : List CanonValue} {isLast : Bool} {segment : CanonValue}
    (h : segmentBundle N bundle month base group mine isLast = .ok segment) :
    ∃ fields members block, baseFields N base = .ok fields ∧ bundle = .obj members ∧
      CanonValue.object N [("format", .str segmentFormat), ("month", .str (nfc N month)),
        ("base_seq", fields.1), ("base_checkpoint_hash", fields.2.1),
        ("base_record_count", .int (.ofInt fields.2.2))] = .ok block ∧
      CanonValue.object N (segmentMembers bundle members mine (base.toList ++ group) isLast
        block) = .ok segment := by
  simp only [segmentBundle, bind_eq_ok_iff, orFail_eq_ok_iff, mapError_eq_ok_iff] at h
  obtain ⟨fields, hfields, members, hmembers, block, hblock, hsegment⟩ := h
  refine ⟨fields, members, block, hfields, ?_, hblock, hsegment⟩
  cases bundle with
  | obj ms => exact congrArg CanonValue.obj (Option.some.inj hmembers)
  | _ => simp [CanonValue.asObject] at hmembers

/-- A segment carries the records it is given. -/
theorem arrayOf_records_segmentBundle {month : String} {base : Option CanonValue}
    {group mine : List CanonValue} {isLast : Bool} {segment : CanonValue}
    (h : segmentBundle N bundle month base group mine isLast = .ok segment) :
    arrayOf segment "records" = mine := by
  obtain ⟨fields, members, block, -, -, -, hobj⟩ := segmentBundle_eq_ok h
  rw [arrayOf, get_of_object hobj (x := .arr mine) (by decide) (by simp [segmentMembers])]
  rfl

open Classical in
/-- The segments that carry a record. -/
noncomputable def carriers (rec : CanonValue) (segments : List (String × CanonValue)) :
    List (String × CanonValue) :=
  segments.filter fun s => rec ∈ arrayOf s.2 "records"

/-- The hash is in the closure of a checkpoint. -/
def inClosure (records : List CanonValue) (byHash : TreeMap String Nat) (h : String)
    (cp : CanonValue) : Bool :=
  (closure records byHash cp).contains h

/-- A record is carried where the closures of the month ends rise to it. -/
theorem carriers_splitMonths {prev : List String} {base : Option CanonValue} {n total : Nat}
    {out : List (String × CanonValue)}
    (hs : splitMonths N bundle records byHash groups prev base n = .ok (out, total))
    {rec : CanonValue} {h : String} (hrec : rec ∈ records) (hh : recordHash rec = some h) :
    (carriers rec out).map (·.1) =
      rises (prev.contains h) (groups.map (endFlag (inClosure records byHash h))) := by
  induction groups generalizing prev base n out with
  | nil =>
    obtain ⟨rfl, -⟩ := Prod.mk.inj (Except.ok.inj hs)
    rfl
  | cons g groups ih =>
    obtain ⟨month, group⟩ := g
    simp only [splitMonths, bind_eq_ok_iff, orFail_eq_ok_iff, require_eq_ok_iff] at hs
    obtain ⟨last, hlast, expect, hexpect, _, hcount, segment, hsegment, ⟨rest, total'⟩, hrest,
      hret⟩ := hs
    obtain ⟨rfl, rfl⟩ := Prod.mk.inj (Except.ok.inj hret)
    have hcarried : rec ∈ arrayOf segment "records" ↔
        h ∈ closure records byHash last ∧ h ∉ prev := by
      rw [arrayOf_records_segmentBundle hsegment]
      exact mem_monthRecords_iff hrec hh
    rw [List.map_cons, endFlag, rises, hlast, Option.any_some, carriers, List.filter_cons]
    have hflag : inClosure records byHash h last = (closure records byHash last).contains h := rfl
    rw [hflag]
    by_cases hin : rec ∈ arrayOf segment "records"
    · obtain ⟨hc, hp⟩ := hcarried.mp hin
      have hnew : ((closure records byHash last).contains h && !prev.contains h) = true := by
        simp [hc, hp]
      rw [if_pos (by simpa using hin), if_pos hnew, List.map_cons]
      exact congrArg _ (ih hrest)
    · have hnew : ¬ ((closure records byHash last).contains h && !prev.contains h) = true := by
        simpa using hcarried.not.mp hin
      rw [if_neg (by simpa using hin), if_neg hnew]
      exact ih hrest

/-- The count that is kept is that of the last checkpoint. -/
theorem splitMonths_total {prev : List String} {base : Option CanonValue} {n total : Nat}
    {out : List (String × CanonValue)}
    (hs : splitMonths N bundle records byHash groups prev base n = .ok (out, total))
    {g : String × List CanonValue} (hg : groups.getLast? = some g) :
    ∃ last, g.2.getLast? = some last ∧ recordCount last = some (total : Int) := by
  induction groups generalizing prev base n out with
  | nil => simp at hg
  | cons g' groups ih =>
    obtain ⟨month, group⟩ := g'
    simp only [splitMonths, bind_eq_ok_iff, orFail_eq_ok_iff, require_eq_ok_iff] at hs
    obtain ⟨last, hlast, expect, hexpect, _, hcount, segment, -, ⟨rest, total'⟩, hrest,
      hret⟩ := hs
    obtain ⟨rfl, rfl⟩ := Prod.mk.inj (Except.ok.inj hret)
    cases groups with
    | nil =>
      obtain rfl := Option.some.inj hg
      obtain ⟨-, rfl⟩ := Prod.mk.inj (Except.ok.inj hrest)
      exact ⟨last, hlast, by rw [hexpect, hcount]⟩
    | cons x groups =>
      rw [List.getLast?_cons_cons] at hg
      exact ih hrest hg

/-- Sorting depends on the order of the elements only. -/
theorem insertionSort_congr {α : Type} {r s : α → α → Prop} [DecidableRel r] [DecidableRel s]
    {l : List α} (h : ∀ a ∈ l, ∀ b ∈ l, r a b ↔ s a b) :
    l.insertionSort r = l.insertionSort s := by
  have hinsert : ∀ (a : α) (l : List α), (∀ b ∈ l, r a b ↔ s a b) →
      l.orderedInsert r a = l.orderedInsert s a := by
    intro a l hl
    induction l with
    | nil => rfl
    | cons b l ih =>
      rw [List.forall_mem_cons] at hl
      rw [List.orderedInsert, List.orderedInsert, ih hl.2]
      simp only [hl.1]
  induction l with
  | nil => rfl
  | cons a l ih =>
    rw [List.insertionSort_cons, List.insertionSort_cons,
      ih fun b hb c hc => h b (List.mem_cons_of_mem _ hb) c (List.mem_cons_of_mem _ hc)]
    refine hinsert a _ fun b hb => h a (by simp) b ?_
    exact List.mem_cons_of_mem _ ((List.perm_insertionSort _ _).mem_iff.mp hb)

/-- What a split of an accepted history rests on. -/
structure SplitSpec (N : Normalizer) (bundle : CanonValue) (records ordered : List CanonValue)
    (segments : List (String × CanonValue)) (byHash : TreeMap String Nat)
    (groups : List (String × List CanonValue)) : Prop where
  split : ∃ total, splitMonths N bundle records byHash groups [] none 0 = .ok (segments, total)
  months : MonthGroups ordered groups
  nonempty : groups ≠ []
  indexes : Indexes records byHash
  distinct : (records.map recordHash).Nodup
  hashes : ∀ rec ∈ records, (recordHash rec).isSome = true
  /-- The closure of every checkpoint lies in the records, and that of the last is all. -/
  committed : ∀ c ∈ ordered, ancestors records (frontierOf c) ⊆ contentHashes records
  last : ∀ c ∈ ordered.getLast?, ancestors records (frontierOf c) = contentHashes records

/-- Records of distinct hashes are bound by them. -/
theorem recordsBind_of_nodup (h : (records.map recordHash).Nodup) : RecordsBind records := by
  intro r hr r' hr' k hh hh'
  rw [List.inj_on_of_nodup_map h hr hr' (hh.trans hh'.symm)]

/-- As many hashes as records leave no copies. -/
theorem nodup_of_size_eq {m : TreeMap String Nat} (hi : Indexes records m)
    (hall : ∀ rec ∈ records, (recordHash rec).isSome = true) (hsize : m.size = records.length) :
    (records.map recordHash).Nodup := by
  have hperm : (m.keys.map some).Perm (records.map recordHash).dedup := by
    refine (List.perm_ext_iff_of_nodup ?_ (List.nodup_dedup _)).mpr fun x => ?_
    · exact TreeMap.nodup_keys.map (Option.some_injective _)
    · rw [List.mem_dedup]
      simp only [List.mem_map, TreeMap.mem_keys, hi.mem_iff]
      constructor
      · rintro ⟨h, ⟨rec, hrec, hh⟩, rfl⟩
        exact ⟨rec, hrec, hh⟩
      · rintro ⟨rec, hrec, rfl⟩
        obtain ⟨h, hh⟩ := Option.isSome_iff_exists.mp (hall rec hrec)
        exact ⟨h, ⟨rec, hrec, hh⟩, hh.symm⟩
  have hlen := hperm.length_eq
  rw [List.length_map, TreeMap.length_keys, hsize] at hlen
  have heq := (List.dedup_sublist (records.map recordHash)).eq_of_length
    (by rw [← hlen, List.length_map])
  rw [← heq]
  exact List.nodup_dedup _

/-- The order of an accepted chain is the one the split uses. -/
theorem insertionSort_seqOf {checkpoints ordered : List CanonValue} {dag : Dag}
    (h : validateChain checkpoints dag = .ok ordered) :
    (checkpoints.insertionSort fun a b => seqOf a ≤ seqOf b) = ordered := by
  simp only [validateChain, bind_eq_ok_iff] at h
  obtain ⟨_, -, _, -, _, hfront, _, -, _, -, hret⟩ := h
  rw [← Except.ok.inj hret]
  have hseq : ∀ c ∈ checkpoints, ∃ n : Int, checkpointSeq c = some n := by
    intro c hc
    have hcheck := forM_eq_ok_iff.mp hfront c ((List.perm_insertionSort _ _).mem_iff.mpr hc)
    simp only [checkFrontier, bind_eq_ok_iff, intField_eq_ok_iff] at hcheck
    obtain ⟨n, hn, -⟩ := hcheck
    exact ⟨n, hn⟩
  refine insertionSort_congr fun a ha b hb => ?_
  obtain ⟨m, hm⟩ := hseq a ha
  obtain ⟨n, hn⟩ := hseq b hb
  have hka : seqKey a = m := by
    rw [seqKey, show (a.get "checkpoint_seq").bind CanonValue.asInt = some m from hm]
    rfl
  have hkb : seqKey b = n := by
    rw [seqKey, show (b.get "checkpoint_seq").bind CanonValue.asInt = some n from hn]
    rfl
  rw [hka, hkb, seqOf, seqOf, hm, hn]
  exact WithBot.coe_le_coe

/-- The last checkpoint of the last month is the latest. -/
theorem MonthGroups.getLast? (h : MonthGroups cps groups) {g : String × List CanonValue}
    (hg : groups.getLast? = some g) : cps.getLast? = g.2.getLast? := by
  obtain ⟨init, rfl⟩ := List.getLast?_eq_some_iff.mp hg
  have hne : g.2 ≠ [] := h.nonempty g (by simp)
  rw [← h.flat, List.flatMap_append, List.getLast?_append]
  have hlast : ([g].flatMap fun x => x.2).getLast? = g.2.getLast? := by simp
  rw [hlast, List.getLast?_eq_getLast_of_ne_nil hne]
  rfl

/-- A split of an accepted history has these facts: its records are distinct, since the last
checkpoint counts both the hashes of the index and all the records. -/
theorem exists_splitSpec {dag : Dag} {ordered : List CanonValue}
    {segments : List (String × CanonValue)}
    (hb : build (arrayOf bundle "records") = .ok dag)
    (hc : validateChain (arrayOf bundle "checkpoints") dag = .ok ordered)
    (hs : splitBundle N bundle = .ok segments) :
    ∃ byHash groups,
      SplitSpec N bundle (arrayOf bundle "records") ordered segments byHash groups := by
  simp only [splitBundle, bind_eq_ok_iff, require_eq_ok_iff] at hs
  obtain ⟨_, hne, byHash, hindex, groups, hgroups, ⟨out, total⟩, hsplit, _, htotal, hret⟩ := hs
  obtain rfl := Except.ok.inj hret
  have hdag := build_eq_ok hb
  obtain ⟨hperm, -, -, hfront, hlatest⟩ := validateChain_eq_ok hc
  have hmonths : MonthGroups ordered groups := by
    have := groupByMonth_eq_ok .nil hgroups
    rwa [List.nil_append, insertionSort_seqOf hc] at this
  have hgne : groups ≠ [] := by
    rintro rfl
    have hnil : ordered = [] := hmonths.flat.symm
    rw [hnil] at hperm
    exact hne hperm.nil_eq.symm
  have hhashes : ∀ rec ∈ arrayOf bundle "records", (recordHash rec).isSome = true := by
    intro rec hrec
    obtain ⟨ch, hch, -⟩ := hdag.hashes rec hrec
    rw [hch]
    rfl
  -- The latest checkpoint was counted by the chain check and by the split.
  have hg := List.getLast?_eq_getLast_of_ne_nil hgne
  obtain ⟨last, hlast, hcount⟩ := splitMonths_total hsplit hg
  rw [← hmonths.getLast? hg] at hlast
  obtain ⟨hheads, hsize⟩ := hlatest last hlast
  have hlen : dag.byHash.size = (arrayOf bundle "records").length := by
    have heq := Option.some.inj (hsize.symm.trans hcount)
    omega
  have hdistinct := nodup_of_size_eq hdag.indexes hhashes hlen
  have hbind := recordsBind_of_nodup hdistinct
  have hall : contentHashes (arrayOf bundle "records") = { h | h ∈ dag.byHash } := by
    ext h
    exact hdag.mem_byHash_iff.symm
  refine ⟨byHash, groups, ⟨total, hsplit⟩, hmonths, hgne, indexes_of_indexFirst hindex, hdistinct,
    hhashes, ?_, ?_⟩
  · rintro c hcm h ⟨f, hf, hreach⟩
    rw [hall]
    induction hreach with
    | refl => exact hfront c hcm f hf
    | tail _ hstep _ => exact hdag.keptParents_mem ((hdag.indexes.parentOf_iff hbind).mp hstep)
  · intro c hcm
    rw [hall]
    exact hdag.ancestors_heads hbind _ (hlatest c hcm).1

/-- The first checkpoint, in sequence order, whose frontier commits a hash. -/
def FirstCommits (records ordered : List CanonValue) (h : String) (c : CanonValue) : Prop :=
  h ∈ ancestors records (frontierOf c) ∧
    ∃ l r, ordered = l ++ c :: r ∧ ∀ c' ∈ l, h ∉ ancestors records (frontierOf c')

/-- Every record is carried by exactly one segment, that of the month of the first checkpoint
that commits it. -/
def MonthsPartition (records ordered : List CanonValue) (segments : List (String × CanonValue)) :
    Prop :=
  ∀ rec ∈ records, ∀ h, recordHash rec = some h →
    ∃ c month, FirstCommits records ordered h c ∧ createdMonth c = .ok month ∧
      (carriers rec segments).map (·.1) = [month]

/-- The last checkpoint of a month commits whatever an earlier checkpoint commits. -/
def MonthEndsCommit (records ordered : List CanonValue) : Prop :=
  ∀ l c r, ordered = l ++ c :: r → EndsMonth c r →
    ∀ c' ∈ l, ancestors records (frontierOf c') ⊆ ancestors records (frontierOf c)

/-- The first group with the property holds the first checkpoint with it. -/
theorem firstMonth_eq (h : MonthGroups cps groups) :
    firstMonth p groups = (cps.find? p).bind fun c => (createdMonth c).toOption := by
  rw [← h.flat]
  have hmonth := h.month
  clear h
  induction groups with
  | nil => rfl
  | cons g groups ih =>
    rw [List.forall_mem_cons] at hmonth
    rw [firstMonth, List.find?_cons, List.flatMap_cons, List.find?_append]
    cases hany : g.2.any p with
    | true =>
      obtain ⟨c, hc⟩ := Option.isSome_iff_exists.mp
        (List.find?_isSome.mpr (List.any_eq_true.mp hany))
      rw [hc, Option.some_or, Option.bind_some, hmonth.1 c (List.mem_of_find?_eq_some hc)]
      rfl
    | false =>
      have hnone : g.2.find? p = none := by
        rw [List.find?_eq_none]
        simpa using hany
      rw [hnone, Option.none_or]
      exact ih hmonth.2

/-- A record is in a closure when the checkpoint reaches it. -/
theorem SplitSpec.inClosure_iff {segments : List (String × CanonValue)}
    {ordered : List CanonValue} (hs : SplitSpec N bundle records ordered segments byHash groups)
    {h : String} {c : CanonValue} :
    inClosure records byHash h c = true ↔ h ∈ ancestors records (frontierOf c) := by
  rw [inClosure, List.contains_iff_mem,
    mem_closure_iff hs.indexes (recordsBind_of_nodup hs.distinct)]

/-- The first checkpoint that commits a hash is the first found. -/
theorem SplitSpec.firstCommits_iff {segments : List (String × CanonValue)}
    {ordered : List CanonValue} (hs : SplitSpec N bundle records ordered segments byHash groups)
    {h : String} {c : CanonValue} :
    FirstCommits records ordered h c ↔
      ordered.find? (inClosure records byHash h) = some c := by
  rw [List.find?_eq_some_iff_append, hs.inClosure_iff]
  simp only [FirstCommits, Bool.not_eq_true', ← Bool.not_eq_true, hs.inClosure_iff]

/-- One record is carried once, in its first month, when no month end drops it. -/
theorem SplitSpec.carried_once_iff {segments : List (String × CanonValue)}
    {ordered : List CanonValue} (hs : SplitSpec N bundle records ordered segments byHash groups)
    {rec : CanonValue} {h : String} (hrec : rec ∈ records) (hh : recordHash rec = some h) :
    (∃ c month, FirstCommits records ordered h c ∧ createdMonth c = .ok month ∧
      (carriers rec segments).map (·.1) = [month]) ↔
      EndsKeep (inClosure records byHash h) [] ordered := by
  obtain ⟨total, hsplit⟩ := hs.split
  have hcarried := carriers_splitMonths hsplit hrec hh
  rw [List.contains_nil] at hcarried
  have hlast : ∀ c ∈ ordered.getLast?, inClosure records byHash h c = true := by
    intro c hc
    rw [hs.inClosure_iff, hs.last c hc]
    exact ⟨rec, hrec, hh⟩
  have hends : ∀ g ∈ groups.getLast?, g.2.getLast?.any (inClosure records byHash h) = true := by
    intro g hg
    have hne := hs.months.nonempty g (List.mem_of_getLast? hg)
    have heq := List.getLast?_eq_getLast_of_ne_nil hne
    rw [heq, Option.any_some]
    exact hlast _ (by rw [hs.months.getLast? hg, heq]; rfl)
  have hkeep : Stays (inClosure records byHash h) ([].any (inClosure records byHash h)) groups ↔
      EndsKeep (inClosure records byHash h) [] ordered := stays_iff_endsKeep hs.months
  rw [List.any_nil] at hkeep
  rw [← hkeep, ← rises_eq_firstMonth_iff hs.months.increasing hs.nonempty hends, hcarried,
    firstMonth_eq hs.months]
  constructor
  · rintro ⟨c, month, hfirst, hmonth, heq⟩
    rw [heq, hs.firstCommits_iff.mp hfirst, Option.bind_some, hmonth]
    rfl
  · intro heq
    obtain ⟨g, hg⟩ : ∃ g, groups.getLast? = some g :=
      ⟨_, List.getLast?_eq_getLast_of_ne_nil hs.nonempty⟩
    have hne := hs.months.nonempty g (List.mem_of_getLast? hg)
    have hget := (hs.months.getLast? hg).trans (List.getLast?_eq_getLast_of_ne_nil hne)
    obtain ⟨c, hc⟩ := Option.isSome_iff_exists.mp (List.find?_isSome.mpr
      ⟨_, List.mem_of_getLast? hget, hlast _ hget⟩)
    have hmem : c ∈ groups.flatMap (·.2) := by
      rw [hs.months.flat]
      exact List.mem_of_find?_eq_some hc
    obtain ⟨g', hg', hcg⟩ := List.mem_flatMap.mp hmem
    have hmonth := hs.months.month g' hg' c hcg
    refine ⟨c, g'.1, hs.firstCommits_iff.mpr hc, hmonth, ?_⟩
    rw [heq, hc, Option.bind_some, hmonth]
    rfl

/-- The months of a split partition the records of an accepted history, each carried by the
month of the first checkpoint that commits it, exactly when every month end commits whatever
an earlier checkpoint commits. -/
theorem months_partition_iff (N : Normalizer) (bundle : CanonValue) (dag : Dag)
    (ordered : List CanonValue) (segments : List (String × CanonValue))
    (hb : build (arrayOf bundle "records") = .ok dag)
    (hc : validateChain (arrayOf bundle "checkpoints") dag = .ok ordered)
    (hs : splitBundle N bundle = .ok segments) :
    MonthsPartition (arrayOf bundle "records") ordered segments ↔
      MonthEndsCommit (arrayOf bundle "records") ordered := by
  obtain ⟨byHash, groups, hspec⟩ := exists_splitSpec hb hc hs
  constructor
  · intro hpart l c r heq hends c' hc' h hh
    have hmem : c' ∈ ordered := by
      rw [heq]
      exact List.mem_append_left _ hc'
    obtain ⟨rec, hrec, hhash⟩ := hspec.committed c' hmem hh
    have hkeep := (hspec.carried_once_iff hrec hhash).mp (hpart rec hrec h hhash)
    refine hspec.inClosure_iff.mp (hkeep l c r heq hends ?_)
    exact List.any_eq_true.mpr ⟨c', by simpa using hc', hspec.inClosure_iff.mpr hh⟩
  · intro hends rec hrec h hhash
    refine (hspec.carried_once_iff hrec hhash).mpr fun l c r heq hlast hany => ?_
    obtain ⟨c', hc', hin⟩ := List.any_eq_true.mp hany
    exact hspec.inClosure_iff.mpr
      (hends l c r heq hlast c' (by simpa using hc') (hspec.inClosure_iff.mp hin))

/-- A checkpoint with its chain fields and its date. -/
def datedCheckpoint (seq : Int64) (hash : String) (prev : CanonValue) (count : Int64)
    (createdTs : String) (frontier : List String) : CanonValue :=
  .obj [("checkpoint_seq", .int seq), ("checkpoint_hash", .str hash),
    ("prev_checkpoint_hash", prev), ("record_count", .int count), ("created_ts", .str createdTs),
    ("frontier", .arr (frontier.map .str))]

/-- A bundle with nothing but its history. -/
def plainBundle (records checkpoints : List CanonValue) : CanonValue :=
  .obj [("records", .arr records), ("checkpoints", .arr checkpoints)]

/-- The checkpoint of the first month. -/
def januaryCheckpoint : CanonValue :=
  datedCheckpoint 0 "h0" .null 1 "2026-01-31" [digest 'a']

/-- The checkpoint of the second month. -/
def februaryCheckpoint : CanonValue :=
  datedCheckpoint 1 "h1" (.str "h0") 2 "2026-02-28" [digest 'b']

/-- A record in January, and one that follows it in February. -/
def twoMonths : CanonValue :=
  plainBundle [bareRecord (digest 'a') [], bareRecord (digest 'b') [digest 'a']]
    [januaryCheckpoint, februaryCheckpoint]

/-- Each month ends with what it began with. -/
theorem twoMonths_endsCommit : MonthEndsCommit (arrayOf twoMonths "records")
    [januaryCheckpoint, februaryCheckpoint] := by
  intro l c r heq _ c' hc' h hh
  rcases l with _ | ⟨x, _ | ⟨y, l⟩⟩
  · cases hc'
  · obtain ⟨rfl, hrest⟩ := List.cons_eq_cons.mp heq
    obtain ⟨rfl, -⟩ := List.cons_eq_cons.mp hrest
    obtain rfl := List.mem_singleton.mp hc'
    obtain ⟨f, hf, hreach⟩ := hh
    obtain rfl := List.mem_singleton.mp hf
    refine ⟨digest 'b', List.mem_singleton.mpr rfl, hreach.head ?_⟩
    exact ⟨bareRecord (digest 'b') [digest 'a'], List.mem_cons_of_mem _ List.mem_cons_self, rfl,
      List.mem_singleton.mpr rfl⟩
  · have hlen := congrArg List.length heq
    simp only [List.length_append, List.length_cons, List.length_nil] at hlen
    omega

/-- A record in each of two months, which the months partition. -/
theorem months_partition_twoMonths :
    ∃ ordered segments, splitBundle .identity twoMonths = .ok segments ∧
      MonthsPartition (arrayOf twoMonths "records") ordered segments := by
  obtain ⟨dag, ordered, hb, hc⟩ := exists_of_accepted (arrayOf twoMonths "records")
    (arrayOf twoMonths "checkpoints") (by decide +kernel)
  obtain ⟨segments, hs⟩ : ∃ segments, splitBundle .identity twoMonths = .ok segments := ⟨_, rfl⟩
  have hordered : ordered = [januaryCheckpoint, februaryCheckpoint] := by
    rw [← insertionSort_seqOf hc]
    rfl
  exact ⟨ordered, segments, hs, (months_partition_iff .identity twoMonths dag ordered segments hb hc
    hs).mpr (hordered ▸ twoMonths_endsCommit)⟩

/-- Two records, of which the second month end commits only the other one. -/
def revisitedBundle : CanonValue :=
  plainBundle [bareRecord (digest 'a') [], bareRecord (digest 'b') []]
    [datedCheckpoint 0 "h0" .null 1 "2026-01-31" [digest 'a'],
      datedCheckpoint 1 "h1" (.str "h0") 1 "2026-02-28" [digest 'b'],
      datedCheckpoint 2 "h2" (.str "h1") 2 "2026-03-31" [digest 'a', digest 'b']]

/-- A record may be carried by two months. -/
theorem record_carried_twice :
    ∃ dag ordered segments, build (arrayOf revisitedBundle "records") = .ok dag ∧
      validateChain (arrayOf revisitedBundle "checkpoints") dag = .ok ordered ∧
      splitBundle .identity revisitedBundle = .ok segments ∧
      ¬ MonthsPartition (arrayOf revisitedBundle "records") ordered segments := by
  obtain ⟨dag, ordered, hb, hc⟩ := exists_of_accepted (arrayOf revisitedBundle "records")
    (arrayOf revisitedBundle "checkpoints") (by decide +kernel)
  obtain ⟨first, second, third, hs, hfirst, hthird⟩ : ∃ first second third,
      splitBundle .identity revisitedBundle =
        .ok [("2026-01", first), ("2026-02", second), ("2026-03", third)] ∧
      arrayOf first "records" = [bareRecord (digest 'a') []] ∧
      arrayOf third "records" = [bareRecord (digest 'a') []] := ⟨_, _, _, rfl, rfl, rfl⟩
  refine ⟨dag, ordered, _, hb, hc, hs, fun hpart => ?_⟩
  obtain ⟨c, month, -, -, hcarried⟩ := hpart (bareRecord (digest 'a') [])
    (show _ ∈ [bareRecord (digest 'a') [], bareRecord (digest 'b') []] by simp) (digest 'a') rfl
  have hlen := congrArg List.length hcarried
  rw [List.length_map, carriers, List.filter_cons_of_pos (by simp [hfirst]),
    List.length_cons, List.length_singleton, Nat.add_eq_right, List.length_eq_zero_iff,
    List.filter_eq_nil_iff] at hlen
  exact hlen ("2026-03", third) (by simp) (by simp [hthird])

end Averin
