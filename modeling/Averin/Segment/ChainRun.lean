import Averin.Segment.ChainState

/-!
# What a chain in order says

A chain is in order exactly when its months partition one history: they follow each other in time,
belong to one project, share no record, count on from each other, and find every parent, grant and
intent that they name in a month before.
-/

namespace Averin

namespace Month

variable (m : Month)

/-- The segment block of the report, empty without one. -/
def seg : CanonValue := (m.report.get "segment").getD .null

/-- The month of a report. -/
def month : String := monthOf m.seg

/-- The hash of the last checkpoint. -/
def headHash : Option String := strOf m.seg "head_checkpoint_hash"

/-- The records up to the last checkpoint. -/
def headRecordCount : Int := (intOf m.seg "head_record_count").getD 0

/-- The project a month states. -/
def project : Option String := strOf m.bundle "project_id"

/-- The member of the outcome payload of the record with this id. -/
def outcomeField (rid field : String) : Option String :=
  (m.records.find? fun r => strOf r "record_id" = some rid).bind (evStr · "use_outcome" field)

end Month

/-- The last intent with this id, as what an outcome has to bind. -/
def intentUnder (id : String) (intents : List (String × String × String)) :
    Option (String × String) :=
  (intents.reverse.find? fun i => i.1 = id).map Prod.snd

/-- The later intent of an identifier counts. -/
theorem intentUnder_append (id : String) (l l' : List (String × String × String)) :
    intentUnder id (l ++ l') = (intentUnder id l').or (intentUnder id l) := by
  rw [intentUnder, List.reverse_append, List.find?_append, Option.map_or]
  rfl

theorem lookup_foldl_intents (l : List (String × String × String))
    (t : Table String (String × String)) (id : String) :
    (l.foldl (fun t i => t.insert i.1 i.2) t).lookup id =
      (intentUnder id l).or (t.lookup id) := by
  induction l generalizing t with
  | nil => rfl
  | cons i l ih =>
    rw [List.foldl_cons, ih, Table.lookup_insert_eq, ← List.singleton_append, intentUnder_append,
      Option.or_assoc]
    congr 1
    by_cases h : i.1 = id
    · simp [intentUnder, h]
    · simp [intentUnder, h, Ne.symm h]

/-- What a month names of an earlier one is there: a record with this id, and for an outcome the
intent that it binds. -/
def Resolved (earlier : List Month) (m : Month) (u : CanonValue) : Prop :=
  ∃ kind rid reference, strOf u "kind" = some kind ∧ strOf u "record_id" = some rid ∧
    strOf u "ref" = some reference ∧ (∃ e ∈ earlier, reference ∈ e.ids) ∧
    (kind = "use_outcome" → ∃ intent,
      intentUnder reference (earlier.flatMap Month.intents) = some intent ∧
        m.outcomeField rid "grant_id" = some intent.1 ∧
        m.outcomeField rid "intent_hash" = some intent.2)

/-- A parent is a record of the month or of one before it, or in the frontier of the base. -/
def Known (earlier : List Month) (m : Month) (p : String) : Prop :=
  p ∈ m.hashes ∨ p ∈ m.baseFrontier ∨ ∃ e ∈ earlier, p ∈ e.hashes

/-- The months verify on their own and make up one history together. -/
structure Chained (ms : List Month) : Prop where
  verified : ∀ m ∈ ms, flagOf m.report "ok" = true
  segment : ∀ m ∈ ms, (m.report.get "segment").isSome
  pinned : ∀ m ∈ ms, strOf m.seg "link" ≠ some "base_unpinned"
  increasing : ms.Pairwise (·.month < ·.month)
  project : ms.Pairwise fun m m' => ∀ a ∈ m.project, ∀ b ∈ m'.project, a = b
  partition : ms.Pairwise fun m m' => m.hashes.Disjoint m'.hashes ∧ m.ids.Disjoint m'.ids
  counts : ms.IsChain fun prev m => prev.headHash.isSome → m.baseCount = prev.headRecordCount
  parents : ∀ earlier m later, ms = earlier ++ m :: later → ∀ p ∈ m.parents, Known earlier m p
  references : ∀ earlier m later, ms = earlier ++ m :: later →
    ∀ u ∈ arrayOf m.seg "unresolved_cross_month", Resolved earlier m u

/-- A month that continues the months before it. -/
structure Continues (ms : List Month) (m : Month) : Prop where
  verified : flagOf m.report "ok" = true
  segment : (m.report.get "segment").isSome
  pinned : strOf m.seg "link" ≠ some "base_unpinned"
  later : ∀ e ∈ ms, e.month < m.month
  project : ∀ e ∈ ms, ∀ a ∈ e.project, ∀ b ∈ m.project, a = b
  fresh : ∀ e ∈ ms, e.hashes.Disjoint m.hashes ∧ e.ids.Disjoint m.ids
  count : ∀ prev ∈ ms.getLast?, prev.headHash.isSome → m.baseCount = prev.headRecordCount
  parents : ∀ p ∈ m.parents, Known ms m p
  references : ∀ u ∈ arrayOf m.seg "unresolved_cross_month", Resolved ms m u

theorem Chained.nil : Chained [] := by
  constructor <;> simp

/-- Splitting a list before one of its items, from the end. -/
theorem forall_split_concat_iff {α : Type*} {l : List α} {a : α} {P : List α → α → Prop} :
    (∀ before x after, l ++ [a] = before ++ x :: after → P before x) ↔
      (∀ before x after, l = before ++ x :: after → P before x) ∧ P l a := by
  constructor
  · intro h
    refine ⟨fun before x after heq => h before x (after ++ [a]) ?_, h l a [] rfl⟩
    rw [heq, List.append_assoc, List.cons_append]
  · rintro ⟨h, ha⟩ before x after heq
    rcases after.eq_nil_or_concat with rfl | ⟨after, b, rfl⟩
    · obtain ⟨rfl, hx⟩ := List.append_inj' heq rfl
      obtain rfl := List.singleton_inj.mp hx
      exact ha
    · rw [List.concat_eq_append, ← List.cons_append, ← List.append_assoc] at heq
      exact h before x after (List.append_inj' heq rfl).1

/-- A relation on all pairs of a longer list. -/
theorem pairwise_concat_iff {α : Type*} {R : α → α → Prop} {l : List α} {a : α} :
    (l ++ [a]).Pairwise R ↔ l.Pairwise R ∧ ∀ e ∈ l, R e a := by
  simp [List.pairwise_append]

/-- A fact about all elements of a longer list. -/
theorem forall_mem_concat_iff {α : Type*} {p : α → Prop} {l : List α} {a : α} :
    (∀ x ∈ l ++ [a], p x) ↔ (∀ x ∈ l, p x) ∧ p a := by
  rw [List.forall_mem_append, List.forall_mem_singleton]

/-- A relation on neighbours of a longer list. -/
theorem isChain_concat_iff {α : Type*} {R : α → α → Prop} {l : List α} {a : α} :
    (l ++ [a]).IsChain R ↔ l.IsChain R ∧ ∀ x ∈ l.getLast?, R x a := by
  simp [List.isChain_append]

/-- A chain is continued by a month that continues it. -/
theorem chained_concat_iff {ms : List Month} {m : Month} :
    Chained (ms ++ [m]) ↔ Chained ms ∧ Continues ms m := by
  constructor
  · intro h
    have hverified := forall_mem_concat_iff.mp h.verified
    have hsegment := forall_mem_concat_iff.mp h.segment
    have hpinned := forall_mem_concat_iff.mp h.pinned
    have hincreasing := pairwise_concat_iff.mp h.increasing
    have hproject := pairwise_concat_iff.mp h.project
    have hpartition := pairwise_concat_iff.mp h.partition
    have hcounts := isChain_concat_iff.mp h.counts
    have hparents := forall_split_concat_iff.mp h.parents
    have hreferences := forall_split_concat_iff.mp h.references
    exact ⟨⟨hverified.1, hsegment.1, hpinned.1, hincreasing.1, hproject.1, hpartition.1,
      hcounts.1, hparents.1, hreferences.1⟩, ⟨hverified.2, hsegment.2, hpinned.2, hincreasing.2,
      hproject.2, hpartition.2, hcounts.2, hparents.2, hreferences.2⟩⟩
  · rintro ⟨h, hm⟩
    exact ⟨forall_mem_concat_iff.mpr ⟨h.verified, hm.verified⟩,
      forall_mem_concat_iff.mpr ⟨h.segment, hm.segment⟩,
      forall_mem_concat_iff.mpr ⟨h.pinned, hm.pinned⟩,
      pairwise_concat_iff.mpr ⟨h.increasing, hm.later⟩,
      pairwise_concat_iff.mpr ⟨h.project, hm.project⟩,
      pairwise_concat_iff.mpr ⟨h.partition, hm.fresh⟩,
      isChain_concat_iff.mpr ⟨h.counts, hm.count⟩,
      forall_split_concat_iff.mpr ⟨h.parents, hm.parents⟩,
      forall_split_concat_iff.mpr ⟨h.references, hm.references⟩⟩

/-- The chain remembers the months that it absorbed. -/
structure Absorbed (ms : List Month) (c : ChainState) : Prop where
  projectId : c.projectId = ms.findSome? Month.project
  seen : c.seen = ms.flatMap Month.hashes
  seenIds : c.seenIds = ms.flatMap Month.ids
  intents : ∀ id, c.intents.lookup id = intentUnder id (ms.flatMap Month.intents)
  lastMonth : c.lastMonth = ms.getLast?.map Month.month
  headHash : c.headHash = ms.getLast?.bind Month.headHash
  headRecordCount : ∀ m ∈ ms.getLast?, c.headRecordCount = m.headRecordCount
  months : c.months = ms.length

namespace ChainState

variable {ms : List Month} {m : Month} {c : ChainState} {N : Normalizer}

/-- What a month adds to the issues. -/
def issuesOf (c : ChainState) (m : Month) : List ChainIssue :=
  match m.report.get "segment" with
  | none => okIssues m ++ [.notSegment]
  | some seg => okIssues m ++ c.segmentIssues m seg

/-- The history grows without touching what the checks read. -/
theorem grow_frame (c : ChainState) (m : Month) (N : Normalizer) :
    (c.grow m N).projectId = c.projectId ∧ (c.grow m N).seen = c.seen ∧
      (c.grow m N).seenIds = c.seenIds ∧ (c.grow m N).intents = c.intents ∧
      (c.grow m N).months = c.months ∧ (c.grow m N).issues = c.issues ∧
      (c.grow m N).capOverride = c.capOverride ∧
      (c.grow m N).hasDisclosures = c.hasDisclosures ∧
      (c.grow m N).latestExtraBytes = c.latestExtraBytes := by
  unfold grow
  dsimp only
  split_ifs <;> exact ⟨rfl, rfl, rfl, rfl, rfl, rfl, rfl, rfl, rfl⟩

theorem absorb_segment {seg : CanonValue} (hseg : m.report.get "segment" = some seg) :
    c.absorb m N =
      (((c.report m (c.issuesOf m)).remember m N).grow m N).advance m seg := by
  rw [absorb, issuesOf, hseg]

/-- A month adds its own issues. -/
theorem issues_absorb : (c.absorb m N).issues =
    c.issues ++ (c.issuesOf m).map fun i => m.label ++ ": " ++ i.text := by
  cases hseg : m.report.get "segment" with
  | none =>
    rw [absorb, issuesOf, hseg]
    rfl
  | some seg =>
    rw [absorb_segment hseg]
    exact (grow_frame ((c.report m (c.issuesOf m)).remember m N) m N).2.2.2.2.2.1

/-- A fresh state has absorbed nothing. -/
theorem absorbed_fresh (cap : Option Nat) : Absorbed [] (fresh cap) := by
  refine ⟨rfl, rfl, rfl, fun id => rfl, rfl, rfl, ?_, rfl⟩
  simp

/-- Absorbing a month keeps the account. -/
theorem absorb_absorbed (h : Absorbed ms c) (hseg : (m.report.get "segment").isSome) :
    Absorbed (ms ++ [m]) (c.absorb m N) := by
  obtain ⟨seg, hseg⟩ := Option.isSome_iff_exists.mp hseg
  have hm : m.seg = seg := by rw [Month.seg, hseg, Option.getD_some]
  obtain ⟨hp, hs, hi, ht, hn, -, -, -, -⟩ :=
    grow_frame ((c.report m (c.issuesOf m)).remember m N) m N
  rw [absorb_segment hseg]
  constructor
  · have hone : [m].findSome? Month.project = m.project := by
      rw [List.findSome?_cons]
      cases m.project <;> rfl
    rw [List.findSome?_append, ← h.projectId, hone]
    exact hp
  · rw [List.flatMap_append, ← h.seen]
    exact hs.trans (by simp [remember, report])
  · rw [List.flatMap_append, ← h.seenIds]
    exact hi.trans (by simp [remember, report])
  · intro id
    rw [List.flatMap_append, intentUnder_append, ← h.intents, List.flatMap_singleton,
      ← lookup_foldl_intents]
    exact congrArg (AList.lookup id) ht
  · rw [List.getLast?_concat, Option.map_some, Month.month, hm]
    rfl
  · rw [List.getLast?_concat, Option.bind_some, Month.headHash, hm]
    rfl
  · intro m' hm'
    rw [List.getLast?_concat, Option.mem_some_iff] at hm'
    rw [← hm', Month.headRecordCount, hm]
    rfl
  · rw [List.length_append, ← h.months]
    exact congrArg (· + 1) hn

theorem absorbAll_concat (c : ChainState) (ms : List Month) (m : Month) :
    c.absorbAll N (ms ++ [m]) = (c.absorbAll N ms).absorb m N := by
  rw [absorbAll, List.foldl_append]
  rfl

/-- A run over segments remembers them all. -/
theorem absorbAll_absorbed (cap : Option Nat)
    (hseg : ∀ m ∈ ms, (m.report.get "segment").isSome) :
    Absorbed ms ((fresh cap).absorbAll N ms) := by
  induction ms using List.reverseRecOn with
  | nil => exact absorbed_fresh cap
  | append_singleton ms m ih =>
    rw [forall_mem_concat_iff] at hseg
    rw [absorbAll_concat]
    exact absorb_absorbed (ih hseg.1) hseg.2

theorem orderedSet_eq_nil_iff {l : List String} : orderedSet l = [] ↔ l = [] := by
  rw [orderedSet, ← List.length_eq_zero_iff, List.length_insertionSort, List.length_eq_zero_iff,
    List.dedup_eq_nil]

theorem okIssues_eq_nil_iff : okIssues m = [] ↔ flagOf m.report "ok" = true := by
  rw [okIssues]
  split_ifs with h <;> simp [h]

theorem linkIssues_eq_nil_iff {seg : CanonValue} :
    linkIssues seg = [] ↔ strOf seg "link" ≠ some "base_unpinned" := by
  rw [linkIssues]
  split_ifs with h <;> simp [h]

/-- In increasing months it is enough to compare with the last one. -/
theorem monthIssues_eq_nil_iff (h : Absorbed ms c) (hinc : ms.Pairwise (·.month < ·.month)) :
    c.monthIssues m.seg = [] ↔ ∀ e ∈ ms, e.month < m.month := by
  rw [monthIssues, h.lastMonth]
  rcases ms.eq_nil_or_concat with rfl | ⟨init, last, rfl⟩
  · simp
  · rw [List.concat_eq_append] at hinc ⊢
    rw [List.getLast?_concat, forall_mem_concat_iff]
    simp only [Option.map_some, ite_eq_right_iff, reduceCtorEq, imp_false, not_le]
    constructor
    · intro hlt
      exact ⟨fun e he => lt_trans ((pairwise_concat_iff.mp hinc).2 e he) hlt, hlt⟩
    · exact fun hall => hall.2

/-- The first project stated is every one that is stated, where all agree. -/
theorem findSome?_project
    (hagree : ms.Pairwise fun m m' => ∀ a ∈ m.project, ∀ b ∈ m'.project, a = b) :
    ∀ e ∈ ms, ∀ a ∈ e.project, ms.findSome? Month.project = some a := by
  induction ms with
  | nil => simp
  | cons e ms ih =>
    obtain ⟨hhead, htail⟩ := List.pairwise_cons.mp hagree
    intro e' he' a ha
    cases hp : e.project with
    | some a' =>
      rw [List.findSome?_cons_of_isSome (by simp [hp]), hp]
      rcases List.mem_cons.mp he' with rfl | he'
      · exact hp.symm.trans ha
      · rw [hhead e' he' a' hp a ha]
    | none =>
      rw [List.findSome?_cons_of_isNone (by simp [hp])]
      rcases List.mem_cons.mp he' with rfl | he'
      · cases hp.symm.trans ha
      · exact ih htail e' he' a ha

/-- Where the months before agree it is enough to compare with the first that states a project. -/
theorem projectIssues_eq_nil_iff (h : Absorbed ms c)
    (hagree : ms.Pairwise fun m m' => ∀ a ∈ m.project, ∀ b ∈ m'.project, a = b) :
    c.projectIssues m = [] ↔ ∀ e ∈ ms, ∀ a ∈ e.project, ∀ b ∈ m.project, a = b := by
  rw [projectIssues, h.projectId, show strOf m.bundle "project_id" = m.project from rfl]
  constructor
  · intro hnil e he a ha b hb
    rw [findSome?_project hagree e he a ha, Option.mem_def.mp hb] at hnil
    simpa using hnil
  · intro hall
    cases hf : ms.findSome? Month.project with
    | none => rfl
    | some a =>
      cases hb : m.project with
      | none => rfl
      | some b =>
        obtain ⟨e, he, ha⟩ := List.exists_of_findSome?_eq_some hf
        exact if_neg (not_not.mpr (hall e he a ha b hb))

/-- The counts agree where the month before has a head. -/
theorem countIssues_eq_nil_iff (h : Absorbed ms c) :
    c.countIssues m = [] ↔
      ∀ prev ∈ ms.getLast?, prev.headHash.isSome → m.baseCount = prev.headRecordCount := by
  rw [countIssues, h.headHash]
  cases hl : ms.getLast? with
  | none => simp
  | some prev =>
    rw [h.headRecordCount prev hl]
    simp

/-- The parents are those of the months before. -/
theorem parentIssues_eq_nil_iff (h : Absorbed ms c) :
    c.parentIssues m = [] ↔ ∀ p ∈ m.parents, Known ms m p := by
  have hnil : c.parentIssues m = [] ↔ c.dangling m = [] := by
    rw [parentIssues]
    split_ifs with hd <;> simp [hd]
  rw [hnil, dangling, orderedSet_eq_nil_iff, List.filter_eq_nil_iff]
  refine forall₂_congr fun p _ => ?_
  rw [h.seen, Known]
  simp only [Bool.and_eq_true, Bool.not_eq_true', List.contains_iff_mem, ← Bool.not_eq_true,
    List.mem_flatMap]
  rw [not_and_or, not_and_or, not_not, not_not, not_not, or_assoc]

/-- An outcome has its intent in the months before. -/
theorem outcomeIssues_eq_nil_iff (h : Absorbed ms c) {rid reference : String} :
    c.outcomeIssues m rid reference = [] ↔ ∃ intent,
      intentUnder reference (ms.flatMap Month.intents) = some intent ∧
        m.outcomeField rid "grant_id" = some intent.1 ∧
        m.outcomeField rid "intent_hash" = some intent.2 := by
  rw [outcomeIssues, h.intents]
  cases intentUnder reference (ms.flatMap Month.intents) with
  | none => simp
  | some intent =>
    simp only [Option.some.injEq, exists_eq_left', Month.outcomeField, ite_eq_right_iff,
      reduceCtorEq, imp_false, not_or, not_not]

theorem referenceIssues_eq_nil_iff (h : Absorbed ms c) {u : CanonValue} :
    c.referenceIssues m u = [] ↔ Resolved ms m u := by
  rw [referenceIssues, Resolved]
  cases hk : strOf u "kind" with
  | none => simp
  | some kind =>
    cases hr : strOf u "record_id" with
    | none => simp
    | some rid =>
      cases hf : strOf u "ref" with
      | none => simp
      | some reference =>
        have hmem : c.seenIds.contains reference = true ↔ ∃ e ∈ ms, reference ∈ e.ids := by
          rw [h.seenIds, List.contains_iff_mem, List.mem_flatMap]
        simp only [Option.some.injEq, exists_and_left, exists_eq_left', ← hmem,
          ← outcomeIssues_eq_nil_iff h]
        cases c.seenIds.contains reference with
        | false => simp
        | true =>
          by_cases hkind : kind = "use_outcome"
          · simp [hkind]
          · simp [hkind]

theorem crossIssues_eq_nil_iff (h : Absorbed ms c) : c.crossIssues m m.seg = [] ↔
    ∀ u ∈ arrayOf m.seg "unresolved_cross_month", Resolved ms m u := by
  rw [crossIssues, List.flatMap_eq_nil_iff]
  exact forall₂_congr fun u _ => referenceIssues_eq_nil_iff h

/-- No month repeats a record. -/
theorem reuseIssues_eq_nil_iff (h : Absorbed ms c) : c.reuseIssues m = [] ↔
    ∀ e ∈ ms, e.hashes.Disjoint m.hashes ∧ e.ids.Disjoint m.ids := by
  have hnil : c.reuseIssues m = [] ↔
      m.hashes.filter c.seen.contains = [] ∧ m.ids.filter c.seenIds.contains = [] := by
    rw [reuseIssues]
    simp only [orderedSet_eq_nil_iff]
    split_ifs with hd
    · simp only [hd, true_and]
    · simp only [hd]
  rw [hnil, h.seen, h.seenIds, List.filter_eq_nil_iff, List.filter_eq_nil_iff]
  simp only [List.contains_iff_mem, List.mem_flatMap, List.Disjoint]
  constructor
  · rintro ⟨hh, hi⟩ e he
    exact ⟨fun x hx hx' => hh x hx' ⟨e, he, hx⟩, fun x hx hx' => hi x hx' ⟨e, he, hx⟩⟩
  · intro hall
    refine ⟨?_, ?_⟩
    · rintro x hx' ⟨e, he, hx⟩
      exact (hall e he).1 hx hx'
    · rintro x hx' ⟨e, he, hx⟩
      exact (hall e he).2 hx hx'

/-- A month adds no issue exactly when it continues the months before it. -/
theorem issuesOf_eq_nil_iff (h : Absorbed ms c) (hms : Chained ms) :
    c.issuesOf m = [] ↔ Continues ms m := by
  rw [issuesOf]
  cases hseg : m.report.get "segment" with
  | none =>
    have hno : ¬ Continues ms m := by
      intro hf
      simpa [hseg] using hf.segment
    simp [hno]
  | some seg =>
    have hm : m.seg = seg := by rw [Month.seg, hseg, Option.getD_some]
    rw [← hm]
    simp only [segmentIssues, List.append_eq_nil_iff, okIssues_eq_nil_iff, linkIssues_eq_nil_iff,
      monthIssues_eq_nil_iff h hms.increasing, projectIssues_eq_nil_iff h hms.project,
      countIssues_eq_nil_iff h, parentIssues_eq_nil_iff h, crossIssues_eq_nil_iff h,
      reuseIssues_eq_nil_iff h]
    constructor
    · rintro ⟨hok, hlink, hmonth, hproject, hcount, hparents, hcross, hreuse⟩
      exact ⟨hok, by simp [hseg], hlink, hmonth, hproject, hreuse, hcount, hparents, hcross⟩
    · rintro ⟨hok, -, hlink, hmonth, hproject, hreuse, hcount, hparents, hcross⟩
      exact ⟨hok, hlink, hmonth, hproject, hcount, hparents, hcross, hreuse⟩

/-- No issue is noted in a run exactly when its months make up one history. -/
theorem issues_absorbAll_eq_nil_iff (cap : Option Nat) (N : Normalizer) (ms : List Month) :
    ((fresh cap).absorbAll N ms).issues = [] ↔ Chained ms := by
  induction ms using List.reverseRecOn with
  | nil => exact iff_of_true rfl .nil
  | append_singleton ms m ih =>
    rw [absorbAll_concat, issues_absorb, List.append_eq_nil_iff, ih, List.map_eq_nil_iff,
      chained_concat_iff]
    refine and_congr_right fun hms => ?_
    exact issuesOf_eq_nil_iff (absorbAll_absorbed cap hms.segment) hms

/-- A run is in order when it had a month and noted no issue. -/
theorem isOk_of_run (cap : Option Nat) (N : Normalizer) (ms : List Month) :
    ((fresh cap).absorbAll N ms).isOk = true ↔ ms ≠ [] ∧ Chained ms := by
  rw [isOk, Bool.and_eq_true, decide_eq_true_eq, List.isEmpty_iff, issues_absorbAll_eq_nil_iff]
  refine and_congr_left fun h => ?_
  rw [(absorbAll_absorbed cap h.segment).months, List.length_pos_iff]

/-- The chain is in order exactly when it has a month and its months make up one history. -/
theorem isOk_absorbAll_iff (cap : Option Nat) (N : Normalizer) (ms : List Month) :
    ((fresh cap).absorbAll N ms).isOk = true ↔ ms ≠ [] ∧ Chained ms :=
  isOk_of_run cap N ms

end ChainState

end Averin
