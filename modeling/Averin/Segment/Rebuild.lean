import Averin.Segment.ChainWhole
import Averin.Segment.Overcount

/-!
# A split history is rebuilt by the chain

The months of a split are fed to the chain, each with a report that is in order. Walking along the
month ends, the chain has seen exactly the records that the last of them commits, so every month
continues the ones before it, and in the end the concatenation is the history that was split.
-/

namespace Averin

open Std (TreeMap)

variable {N : Normalizer} {bundle : CanonValue} {records : List CanonValue}
  {byHash : TreeMap String Nat} {groups : List (String × List CanonValue)}

/-- Two disjoint parts of a list, taken one after the other. -/
theorem filter_append_filter_perm {α : Type*} {p q r : α → Bool} {xs : List α}
    (hor : ∀ x ∈ xs, q x = (p x || r x)) (hdisj : ∀ x ∈ xs, ¬ (p x = true ∧ r x = true)) :
    (xs.filter p ++ xs.filter r).Perm (xs.filter q) := by
  have h := List.filter_append_perm p (xs.filter q)
  rw [List.filter_filter, List.filter_filter] at h
  have hp : xs.filter p = xs.filter fun x => p x && q x := by
    refine List.filter_congr fun x hx => ?_
    rw [hor x hx]
    cases p x <;> simp
  have hr : xs.filter r = xs.filter fun x => (!p x) && q x := by
    refine List.filter_congr fun x hx => ?_
    have hno := hdisj x hx
    rw [hor x hx]
    cases hpx : p x <;> cases hrx : r x <;> simp_all
  rw [hp, hr]
  exact h

/-- Two items under one key of a list whose keys differ are the same. -/
theorem eq_of_nodup_filterMap {α β : Type*} {f : α → Option β} {l : List α}
    (h : (l.filterMap f).Nodup) {a b : α} {x : β} (ha : a ∈ l) (hb : b ∈ l) (hfa : f a = some x)
    (hfb : f b = some x) : a = b := by
  induction l with
  | nil => cases ha
  | cons c l ih =>
    have hmem : ∀ d ∈ l, f d = some x → x ∈ l.filterMap f :=
      fun d hd hfd => List.mem_filterMap.mpr ⟨d, hd, hfd⟩
    rcases List.mem_cons.mp ha with rfl | hal <;> rcases List.mem_cons.mp hb with rfl | hbl
    · rfl
    · rw [List.filterMap_cons_some hfa, List.nodup_cons] at h
      exact absurd (hmem b hbl hfb) h.1
    · rw [List.filterMap_cons_some hfb, List.nodup_cons] at h
      exact absurd (hmem a hal hfa) h.1
    · refine ih ?_ hal hbl
      cases hc : f c with
      | none => rwa [List.filterMap_cons_none hc] at h
      | some y =>
        rw [List.filterMap_cons_some hc, List.nodup_cons] at h
        exact h.2

/-- What was seen after a list. -/
theorem mem_newCheckpoints_snd {cs : List CanonValue} {seen : List String} {k : String} :
    k ∈ (newCheckpoints cs seen).2 ↔ k ∈ seen ∨ k ∈ checkpointHashes cs := by
  induction cs generalizing seen with
  | nil => simp [newCheckpoints, checkpointHashes]
  | cons c cs ih =>
    rw [newCheckpoints]
    cases hc : strOf c "checkpoint_hash" with
    | none =>
      rw [checkpointHashes_cons_none hc]
      exact ih
    | some h =>
      rw [checkpointHashes_cons_some hc, List.mem_cons]
      dsimp only
      split_ifs with hseen
      · rw [ih]
        constructor
        · exact fun hk => hk.imp_right Or.inr
        · rintro (hk | rfl | hk)
          · exact Or.inl hk
          · exact Or.inl hseen
          · exact Or.inr hk
      · rw [ih, List.mem_cons, or_assoc, or_left_comm]

/-- Checkpoints that are all new are all kept. -/
theorem newCheckpoints_of_fresh {cs : List CanonValue} {seen : List String}
    (hnodup : (checkpointHashes cs).Nodup) (hfresh : ∀ k ∈ checkpointHashes cs, k ∉ seen) :
    (newCheckpoints cs seen).1 = cs := by
  induction cs generalizing seen with
  | nil => rfl
  | cons c cs ih =>
    rw [newCheckpoints]
    cases hc : strOf c "checkpoint_hash" with
    | none =>
      rw [checkpointHashes_cons_none hc] at hnodup hfresh
      exact congrArg (c :: ·) (ih hnodup hfresh)
    | some k =>
      rw [checkpointHashes_cons_some hc] at hnodup hfresh
      obtain ⟨hk, hnodup⟩ := List.nodup_cons.mp hnodup
      rw [List.forall_mem_cons] at hfresh
      dsimp only
      rw [if_neg hfresh.1]
      refine congrArg (c :: ·) (ih hnodup fun k' hk' hmem => ?_)
      rcases List.mem_cons.mp hmem with rfl | hmem
      · exact hk hk'
      · exact hfresh.2 k' hk' hmem

/-- A month of a split, with a report that is in order and states the head that the month has,
with nothing left open. -/
structure MonthOf (s : String × CanonValue) (m : Month) : Prop where
  bundle : m.bundle = s.2
  ok : flagOf m.report "ok" = true
  segment : (m.report.get "segment").isSome
  pinned : strOf m.seg "link" ≠ some "base_unpinned"
  month : strOf m.seg "month" = some s.1
  head : ∀ last ∈ m.checkpoints.getLast?,
    strOf m.seg "head_checkpoint_hash" = strOf last "checkpoint_hash" ∧
      intOf m.seg "head_record_count" = intOf last "record_count"
  resolved : arrayOf m.seg "unresolved_cross_month" = []

/-- Whether a record is committed. -/
def committedBy (committed : List String) (rec : CanonValue) : Bool :=
  (strOf rec "content_hash").any committed.contains

/-- Whether a disclosure is of one of the records. -/
def discloses (records : List CanonValue) (d : CanonValue) : Bool :=
  (strOf d "record_id").any fun id => records.any fun rec => strOf rec "record_id" == some id

/-- The months walked so far have the records that the last month end commits, the disclosures of
those, and the checkpoints up to it. -/
structure MonthsWalked (bundle : CanonValue) (earlier : List Month) (prev : List String)
    (base : Option CanonValue) (done : List CanonValue) : Prop where
  chained : Chained earlier
  records : (earlier.flatMap Month.records).Perm
    ((arrayOf bundle "records").filter (committedBy prev))
  disclosures : (earlier.flatMap Month.disclosures).Perm ((arrayOf bundle "disclosures").filter
    (discloses ((arrayOf bundle "records").filter (committedBy prev))))
  checkpoints : wholeCheckpoints earlier = done
  project : ∀ e ∈ earlier, e.project = strOf bundle "project_id"
  head : ∀ e ∈ earlier.getLast?, ∃ b, base = some b ∧ intOf b "record_count" = e.headRecordCount
  base : ∀ b ∈ base, b ∈ done

/-- A member of no history is the bundle's. -/
theorem get_append_of_filter {members rest : List (String × CanonValue)} {k : String}
    (hk : isHistoryMember k = false) (hrest : ∀ p ∈ rest, isHistoryMember p.1 = true) :
    (CanonValue.obj (members.filter (fun p => !isHistoryMember p.1) ++ rest)).get k =
      (CanonValue.obj members).get k := by
  rw [CanonValue.get, CanonValue.get, CanonValue.member, CanonValue.member, List.find?_append,
    List.find?_filter]
  have hnone : rest.find? (·.1 == k) = none := by
    rw [List.find?_eq_none]
    intro p hp heq
    have := hrest p hp
    rw [beq_iff_eq.mp heq, hk] at this
    cases this
  rw [hnone, Option.or_none]
  congr 2
  funext p
  cases hp : p.1 == k with
  | false => simp
  | true => simp [beq_iff_eq.mp hp, hk]

/-- A member of the history is the rest's. -/
theorem get_append_of_history {members rest : List (String × CanonValue)} {k : String}
    (hk : isHistoryMember k = true) :
    (CanonValue.obj (members.filter (fun p => !isHistoryMember p.1) ++ rest)).get k =
      (CanonValue.obj rest).get k := by
  rw [CanonValue.get, CanonValue.get, CanonValue.member, CanonValue.member, List.find?_append]
  have hnone : (members.filter fun p => !isHistoryMember p.1).find? (·.1 == k) = none := by
    rw [List.find?_eq_none]
    intro p hp heq
    have := (List.mem_filter.mp hp).2
    rw [beq_iff_eq.mp heq, hk] at this
    cases this
  rw [hnone, Option.none_or]

/-- The members beside keys and the like. -/
def segmentRest (bundle : CanonValue) (mine checkpoints : List CanonValue) (isLast : Bool)
    (block : CanonValue) : List (String × CanonValue) :=
  (if isLast then headBoundKeys.filterMap fun k => (bundle.get k).map (k, ·) else []) ++
    ([("records", .arr mine), ("checkpoints", .arr checkpoints)] ++
      ((if (bundle.get "disclosures").isSome then
        [("disclosures", .arr (monthDisclosures bundle mine))] else []) ++ [("segment", block)]))

/-- A segment is the bundle without history, and its own. -/
theorem segmentMembers_eq {members : List (String × CanonValue)}
    {mine checkpoints : List CanonValue} {isLast : Bool} {block : CanonValue} :
    segmentMembers bundle members mine checkpoints isLast block =
      members.filter (fun p => !isHistoryMember p.1) ++
        segmentRest bundle mine checkpoints isLast block := by
  simp only [segmentMembers, segmentRest, List.append_assoc]

theorem isHistoryMember_of_mem_bound {p : String × CanonValue}
    (hp : p ∈ headBoundKeys.filterMap fun k => (bundle.get k).map (k, ·)) :
    isHistoryMember p.1 = true := by
  obtain ⟨k, hk, heq⟩ := List.mem_filterMap.mp hp
  obtain ⟨v, -, rfl⟩ := Option.map_eq_some_iff.mp heq
  simp only [headBoundKeys, List.mem_cons, List.not_mem_nil, or_false] at hk
  rcases hk with rfl | rfl <;> rfl

theorem isHistoryMember_of_mem_segmentRest {mine checkpoints : List CanonValue} {isLast : Bool}
    {block : CanonValue} {p : String × CanonValue}
    (hp : p ∈ segmentRest bundle mine checkpoints isLast block) : isHistoryMember p.1 = true := by
  simp only [segmentRest, List.mem_append, List.mem_cons, List.not_mem_nil, or_false] at hp
  rcases hp with hp | (rfl | rfl) | hp | rfl
  · split_ifs at hp
    · exact isHistoryMember_of_mem_bound hp
    · cases hp
  · rfl
  · rfl
  · split_ifs at hp
    · rw [List.mem_singleton.mp hp]
      rfl
    · cases hp
  · rfl

/-- What a segment of a bundle with normalized keys is made of. -/
structure SegmentReads (bundle : CanonValue) (base : Option CanonValue)
    (group mine : List CanonValue) (isLast : Bool) (m : Month) : Prop where
  records : m.records = mine
  checkpoints : m.checkpoints = base.toList ++ group
  disclosures : m.disclosures = monthDisclosures bundle mine
  hasDisclosures : (m.bundle.get "disclosures").isSome = (bundle.get "disclosures").isSome
  project : m.project = strOf bundle "project_id"
  baseCount : ∀ b ∈ base, some m.baseCount = intOf b "record_count"
  baseHash : ∀ b ∈ base, (strOf b "checkpoint_hash").isSome
  latest : m.latestMembers =
    (bundle.asObject.getD []).filter fun p => !isHistoryMember p.1
  bound : isLast = true →
    m.boundMembers = headBoundKeys.filterMap fun k => (bundle.get k).map (k, ·)

/-- A number that was read is written as itself. -/
theorem toInt_ofInt_of_asInt {v : CanonValue} {n : Int} (h : v.asInt = some n) :
    (Int64.ofInt n).toInt = n := by
  cases v with
  | int i =>
    obtain rfl := Option.some.inj h
    rw [Int64.ofInt_toInt]
  | _ => simp [CanonValue.asInt] at h

/-- A key among those that are there. -/
theorem find?_filterMap_keys (f : String → Option CanonValue) (k : String) (keys : List String) :
    (keys.filterMap fun k' => (f k').map (k', ·)).find? (·.1 == k) =
      if k ∈ keys then (f k).map (k, ·) else none := by
  induction keys with
  | nil => rfl
  | cons k' keys ih =>
    by_cases hk : k = k'
    · subst hk
      cases hf : f k with
      | none =>
        rw [List.filterMap_cons_none (by rw [hf]; rfl), ih, hf]
        simp
      | some v =>
        rw [List.filterMap_cons_some (b := (k, v)) (by rw [hf]; rfl),
          List.find?_cons_of_pos (by simp), if_pos List.mem_cons_self]
        rfl
    · have hskip : ((k' :: keys).filterMap fun k' => (f k').map (k', ·)).find? (·.1 == k) =
          (keys.filterMap fun k' => (f k').map (k', ·)).find? (·.1 == k) := by
        cases hf : f k' with
        | none => rw [List.filterMap_cons_none (by rw [hf]; rfl)]
        | some v =>
          rw [List.filterMap_cons_some (b := (k', v)) (by rw [hf]; rfl),
            List.find?_cons_of_neg (by simpa using Ne.symm hk)]
      rw [hskip, ih]
      simp [hk]

/-- The disclosures of a segment. -/
theorem get_disclosures_segmentRest {mine checkpoints : List CanonValue} {isLast : Bool}
    {block : CanonValue} :
    (CanonValue.obj (segmentRest bundle mine checkpoints isLast block)).get "disclosures" =
      if (bundle.get "disclosures").isSome then some (.arr (monthDisclosures bundle mine))
      else none := by
  have hbound : (if isLast then headBoundKeys.filterMap fun k => (bundle.get k).map (k, ·)
      else []).find? (·.1 == "disclosures") = none := by
    cases isLast with
    | false => rfl
    | true => exact find?_filterMap_keys bundle.get "disclosures" headBoundKeys
  rw [CanonValue.get, CanonValue.member, segmentRest, List.find?_append, hbound, Option.none_or]
  split_ifs <;> rfl

/-- What is bound to the head is in the last segment. -/
theorem get_bound_segmentRest {mine checkpoints : List CanonValue} {block : CanonValue} {k : String}
    (hk : k ∈ headBoundKeys) :
    (CanonValue.obj (segmentRest bundle mine checkpoints true block)).get k = bundle.get k := by
  have hnone : List.find? (·.1 == k)
      ([("records", CanonValue.arr mine), ("checkpoints", CanonValue.arr checkpoints)] ++
        ((if (bundle.get "disclosures").isSome then
          [("disclosures", CanonValue.arr (monthDisclosures bundle mine))] else []) ++
            [("segment", block)])) = none := by
    simp only [headBoundKeys, List.mem_cons, List.not_mem_nil, or_false] at hk
    rcases hk with rfl | rfl <;> split_ifs <;> rfl
  rw [CanonValue.get, CanonValue.member, segmentRest, List.find?_append, hnone, Option.or_none,
    if_pos rfl, find?_filterMap_keys, if_pos hk, Option.map_map]
  exact Option.map_id'

/-- A base states its count and its hash. -/
theorem baseFields_some {b : CanonValue} {fields : CanonValue × CanonValue × Int}
    (h : baseFields N (some b) = .ok fields) :
    recordCount b = some fields.2.2 ∧ (strOf b "checkpoint_hash").isSome := by
  simp only [baseFields, bind_eq_ok_iff, orFail_eq_ok_iff] at h
  obtain ⟨seq, -, hash, hhash, count, hcount, hret⟩ := h
  obtain rfl := Except.ok.inj hret
  exact ⟨hcount, by simp [hhash]⟩

/-- What is read of a segment is what it was built from. -/
theorem segmentReads {month : String} {base : Option CanonValue} {group mine : List CanonValue}
    {isLast : Bool} {segment : CanonValue} {m : Month}
    (hkeys : ∀ p ∈ bundle.asObject.getD [], nfc N p.1 = p.1)
    (h : segmentBundle N bundle month base group mine isLast = .ok segment)
    (hm : m.bundle = segment) : SegmentReads bundle base group mine isLast m := by
  obtain ⟨fields, members, block, hfields, rfl, hblock, hobj⟩ := segmentBundle_eq_ok h
  have hget : ∀ {k x}, isAscii k = true → (k, x) ∈ segmentMembers (.obj members) members mine
      (base.toList ++ group) isLast block → segment.get k = some x :=
    fun hk hx => get_of_object hobj hk hx
  have hsegment : segment = .obj (members.filter (fun p => !isHistoryMember p.1) ++
      segmentRest (.obj members) mine (base.toList ++ group) isLast block) := by
    rw [segmentMembers_eq] at hobj
    obtain ⟨-, rfl⟩ := object_eq_ok_iff.mp hobj
    congr 1
    conv_rhs => rw [← List.map_id (_ ++ _)]
    refine List.map_congr_left fun p hp => Prod.ext ?_ rfl
    rcases List.mem_append.mp hp with hp | hp
    · exact hkeys p (List.mem_of_mem_filter hp)
    · exact nfc_of_isHistoryMember N (isHistoryMember_of_mem_segmentRest hp)
  have hblockOf : m.bundle.get "segment" = some block := by
    rw [hm]
    exact hget (by decide) (by simp [segmentMembers])
  have hdisclosures : m.bundle.get "disclosures" =
      if ((CanonValue.obj members).get "disclosures").isSome then
        some (.arr (monthDisclosures (.obj members) mine)) else none := by
    rw [hm, hsegment, get_append_of_history rfl, get_disclosures_segmentRest]
  refine ⟨?_, ?_, ?_, ?_, ?_, ?_, ?_, ?_, ?_⟩
  · rw [Month.records, arrayOf, hm, hget (x := .arr mine) (by decide) (by simp [segmentMembers])]
    rfl
  · rw [Month.checkpoints, arrayOf, hm,
      hget (x := .arr (base.toList ++ group)) (by decide) (by simp [segmentMembers])]
    rfl
  · rw [Month.disclosures, arrayOf, hdisclosures]
    split_ifs with hd
    · rfl
    · rw [monthDisclosures, arrayOf, Option.not_isSome_iff_eq_none.mp hd]
      rfl
  · rw [hdisclosures]
    split_ifs with hd <;> simp [hd]
  · rw [Month.project, strOf, hm, hsegment, get_append_of_filter rfl
      fun p hp => isHistoryMember_of_mem_segmentRest hp]
    rfl
  · rintro b rfl
    have hcount := (baseFields_some hfields).1
    obtain ⟨v, -, hv⟩ := Option.bind_eq_some_iff.mp hcount
    rw [Month.baseCount, hblockOf, Option.bind_some, intOf,
      get_of_object hblock (x := .int (.ofInt fields.2.2)) (by decide) (by simp)]
    exact (congrArg some (toInt_ofInt_of_asInt hv)).trans hcount.symm
  · rintro b rfl
    exact (baseFields_some hfields).2
  · have hrest : (segmentRest (.obj members) mine (base.toList ++ group) isLast block).filter
        (fun p => !isHistoryMember p.1) = [] := by
      rw [List.filter_eq_nil_iff]
      intro p hp
      simp [isHistoryMember_of_mem_segmentRest hp]
    rw [Month.latestMembers, hm, hsegment]
    change (members.filter _ ++ _).filter _ = members.filter _
    rw [List.filter_append, hrest, List.append_nil, List.filter_filter]
    simp only [Bool.and_self]
  · rintro rfl
    rw [Month.boundMembers, hm, hsegment]
    refine List.filterMap_congr fun k hk => ?_
    rw [get_append_of_history (by
      simp only [headBoundKeys, List.mem_cons, List.not_mem_nil, or_false] at hk
      rcases hk with rfl | rfl <;> rfl), get_bound_segmentRest hk]

/-- What the walk rests on: records with distinct hashes and ids, and parents inside the history. -/
structure SplitHistory (bundle : CanonValue) (byHash : TreeMap String Nat) : Prop where
  indexes : Indexes (arrayOf bundle "records") byHash
  distinct : ((arrayOf bundle "records").map recordHash).Nodup
  hashes : ∀ rec ∈ arrayOf bundle "records", (recordHash rec).isSome = true
  ids : ((arrayOf bundle "records").filterMap (strOf · "record_id")).Nodup

/-- The next month of a split, with what it commits. -/
structure NextMonth (bundle : CanonValue) (byHash : TreeMap String Nat) (earlier : List Month)
    (prev : List String) (base : Option CanonValue) (done : List CanonValue) (m : Month)
    (label : String) (group : List CanonValue) (last : CanonValue) : Prop where
  isMonth : MonthOf (label, m.bundle) m
  lastOf : group.getLast? = some last
  grows : ∀ h ∈ prev, h ∈ closure (arrayOf bundle "records") byHash last
  inside : ∀ h ∈ closure (arrayOf bundle "records") byHash last,
    h ∈ contentHashes (arrayOf bundle "records")
  later : ∀ e ∈ earlier, e.month < label
  fresh : (checkpointHashes (done ++ group)).Nodup
  count : (intOf last "record_count").isSome

section Step

variable {earlier : List Month} {prev : List String} {base : Option CanonValue}
  {done group : List CanonValue} {m : Month} {label : String} {last : CanonValue} {isLast : Bool}

/-- The records of the month before it and of its own. -/
theorem committedBy_closure (hh : SplitHistory bundle byHash)
    (hn : NextMonth bundle byHash earlier prev base done m label group last) {rec : CanonValue}
    (hrec : rec ∈ arrayOf bundle "records") :
    committedBy (closure (arrayOf bundle "records") byHash last) rec = (committedBy prev rec ||
      (strOf rec "content_hash").any fun h =>
        (closure (arrayOf bundle "records") byHash last).contains h && !prev.contains h) := by
  obtain ⟨h, hhash⟩ := Option.isSome_iff_exists.mp (hh.hashes rec hrec)
  have hs : strOf rec "content_hash" = some h := hhash
  rw [committedBy, committedBy, hs, Option.any_some, Option.any_some, Option.any_some]
  by_cases hp : h ∈ prev
  · simp [hp, hn.grows h hp]
  · simp [hp]

/-- A record is committed before or now, not both. -/
theorem not_committedBy_and {rec : CanonValue} {committed : List String} :
    ¬ (committedBy prev rec = true ∧ ((strOf rec "content_hash").any fun h =>
      committed.contains h && !prev.contains h) = true) := by
  rw [committedBy]
  cases strOf rec "content_hash" with
  | none => simp
  | some h =>
    rw [Option.any_some, Option.any_some, Bool.and_eq_true, Bool.not_eq_true']
    rintro ⟨hp, -, hno⟩
    rw [hp] at hno
    cases hno

/-- A disclosure is of one of the records. -/
theorem discloses_iff {rs : List CanonValue} {d : CanonValue} : discloses rs d = true ↔
    ∃ id, strOf d "record_id" = some id ∧ ∃ rec ∈ rs, strOf rec "record_id" = some id := by
  simp only [discloses, Option.any_eq_true, List.any_eq_true, beq_iff_eq]

/-- The disclosures of a month are those of its records. -/
theorem monthDisclosures_eq (hh : SplitHistory bundle byHash) {mine : List CanonValue}
    (hmine : ∀ rec ∈ mine, rec ∈ arrayOf bundle "records") :
    monthDisclosures bundle mine = (arrayOf bundle "disclosures").filter (discloses mine) := by
  rw [monthDisclosures]
  refine List.filter_congr fun d _ => ?_
  rw [discloses]
  cases strOf d "record_id" with
  | none => rfl
  | some id =>
    rw [Option.any_some, Option.any_some]
    rw [Bool.eq_iff_iff, List.any_eq_true, List.any_eq_true]
    refine exists_congr fun rec => and_congr_right fun hrec => ?_
    obtain ⟨h, hhash⟩ := Option.isSome_iff_exists.mp (hh.hashes rec (hmine rec hrec))
    have hs : strOf rec "content_hash" = some h := hhash
    have hin : (mine.filterMap (strOf · "content_hash")).contains h = true := by
      rw [List.contains_iff_mem]
      exact List.mem_filterMap.mpr ⟨rec, hrec, hs⟩
    rw [hs, Option.any_some, hin, Bool.and_true]

/-- The month's own records, with the months before it, are what its end commits. -/
theorem records_perm (hh : SplitHistory bundle byHash)
    (hn : NextMonth bundle byHash earlier prev base done m label group last) :
    ((arrayOf bundle "records").filter (committedBy prev) ++
      monthRecords (arrayOf bundle "records") (closure (arrayOf bundle "records") byHash last)
        prev).Perm ((arrayOf bundle "records").filter
          (committedBy (closure (arrayOf bundle "records") byHash last))) :=
  filter_append_filter_perm (fun _ hrec => committedBy_closure hh hn hrec)
    fun _ _ => not_committedBy_and

/-- The disclosures of two months, in some order. -/
theorem disclosures_perm (hh : SplitHistory bundle byHash)
    (hn : NextMonth bundle byHash earlier prev base done m label group last) :
    ((arrayOf bundle "disclosures").filter
        (discloses ((arrayOf bundle "records").filter (committedBy prev))) ++
      (arrayOf bundle "disclosures").filter (discloses (monthRecords (arrayOf bundle "records")
        (closure (arrayOf bundle "records") byHash last) prev))).Perm
      ((arrayOf bundle "disclosures").filter (discloses ((arrayOf bundle "records").filter
        (committedBy (closure (arrayOf bundle "records") byHash last))))) := by
  refine filter_append_filter_perm (fun d _ => ?_) fun d _ => ?_
  · rw [Bool.eq_iff_iff, Bool.or_eq_true, discloses_iff, discloses_iff, discloses_iff]
    simp only [← (records_perm hh hn).mem_iff, List.mem_append, or_and_right, exists_or,
      and_or_left]
  · rw [discloses_iff, discloses_iff]
    rintro ⟨⟨id, hid, rec, hrec, hrid⟩, ⟨id', hid', rec', hrec', hrid'⟩⟩
    obtain rfl := Option.some.inj (hid.symm.trans hid')
    obtain ⟨hmem, hprev⟩ := List.mem_filter.mp hrec
    obtain ⟨hmem', hnew⟩ := List.mem_filter.mp hrec'
    obtain rfl := eq_of_nodup_filterMap hh.ids hmem hmem' hrid hrid'
    exact not_committedBy_and ⟨hprev, hnew⟩

/-- A record of a month walked is the bundle's. -/
theorem MonthsWalked.mem_records (h : MonthsWalked bundle earlier prev base done) {e : Month}
    (he : e ∈ earlier) {rec : CanonValue} (hrec : rec ∈ e.records) :
    rec ∈ arrayOf bundle "records" ∧ committedBy prev rec = true :=
  List.mem_filter.mp (h.records.mem_iff.mp (List.mem_flatMap.mpr ⟨e, he, hrec⟩))

/-- A parent of a record that the month end commits is in this month or in one before it. -/
theorem NextMonth.known_parent (hh : SplitHistory bundle byHash)
    (hn : NextMonth bundle byHash earlier prev base done m label group last)
    (h : MonthsWalked bundle earlier prev base done)
    (hr : SegmentReads bundle base group (monthRecords (arrayOf bundle "records")
      (closure (arrayOf bundle "records") byHash last) prev) isLast m) {rec : CanonValue}
    {k p : String} (hrec : rec ∈ arrayOf bundle "records") (hk : strOf rec "content_hash" = some k)
    (hin : k ∈ closure (arrayOf bundle "records") byHash last) (hp : p ∈ causalPrevHashes rec) :
    Known earlier m p := by
  have hbind := recordsBind_of_nodup hh.distinct
  have hpin : p ∈ closure (arrayOf bundle "records") byHash last := by
    rw [mem_closure_iff hh.indexes hbind] at hin ⊢
    obtain ⟨f, hf, hreach⟩ := hin
    exact ⟨f, hf, hreach.tail ⟨rec, hrec, hk, hp⟩⟩
  obtain ⟨rec', hrec', hhash⟩ := hn.inside p hpin
  have hs : strOf rec' "content_hash" = some p := hhash
  by_cases hprev : p ∈ prev
  · have hmem : rec' ∈ earlier.flatMap Month.records := by
      rw [h.records.mem_iff, List.mem_filter, committedBy, hs, Option.any_some]
      exact ⟨hrec', by simpa using hprev⟩
    obtain ⟨e, he, hre⟩ := List.mem_flatMap.mp hmem
    exact Or.inr (Or.inr ⟨e, he, List.mem_filterMap.mpr ⟨rec', hre, hs⟩⟩)
  · refine Or.inl (List.mem_filterMap.mpr ⟨rec', ?_, hs⟩)
    rw [hr.records]
    exact (mem_monthRecords_iff hrec' hhash).mpr ⟨hpin, hprev⟩

/-- The next month continues the months before it. -/
theorem MonthsWalked.continues (hh : SplitHistory bundle byHash)
    (h : MonthsWalked bundle earlier prev base done)
    (hn : NextMonth bundle byHash earlier prev base done m label group last)
    (hr : SegmentReads bundle base group (monthRecords (arrayOf bundle "records")
      (closure (arrayOf bundle "records") byHash last) prev) isLast m) : Continues earlier m := by
  have hmine : ∀ rec ∈ m.records, rec ∈ arrayOf bundle "records" ∧
      ((strOf rec "content_hash").any fun k =>
        (closure (arrayOf bundle "records") byHash last).contains k && !prev.contains k) =
          true := by
    intro rec hrec
    rw [hr.records] at hrec
    exact List.mem_filter.mp hrec
  refine ⟨hn.isMonth.ok, hn.isMonth.segment, hn.isMonth.pinned, ?_, ?_, ?_, ?_, ?_, ?_⟩
  · intro e he
    have hlabel : m.month = label := by
      rw [Month.month, monthOf, hn.isMonth.month]
      rfl
    rw [hlabel]
    exact hn.later e he
  · intro e he a ha b hb
    rw [Option.mem_def, h.project e he] at ha
    rw [Option.mem_def, hr.project] at hb
    exact Option.some.inj (ha.symm.trans hb)
  · intro e he
    constructor
    · intro x hx hx'
      obtain ⟨rec, hrec, hxr⟩ := List.mem_filterMap.mp hx
      obtain ⟨rec', hrec', hxr'⟩ := List.mem_filterMap.mp hx'
      have hprev := (h.mem_records he hrec).2
      have hnew := (hmine rec' hrec').2
      rw [committedBy, hxr] at hprev
      rw [hxr'] at hnew
      simp only [Option.any_some, Bool.and_eq_true, Bool.not_eq_true'] at hprev hnew
      rw [hprev] at hnew
      cases hnew.2
    · intro x hx hx'
      obtain ⟨rec, hrec, hxr⟩ := List.mem_filterMap.mp hx
      obtain ⟨rec', hrec', hxr'⟩ := List.mem_filterMap.mp hx'
      obtain ⟨hmem, hprev⟩ := h.mem_records he hrec
      obtain ⟨hmem', hnew⟩ := hmine rec' hrec'
      obtain rfl := eq_of_nodup_filterMap hh.ids hmem hmem' hxr hxr'
      exact not_committedBy_and ⟨hprev, hnew⟩
  · intro e he _
    obtain ⟨b, hb, hcount⟩ := h.head e he
    have := hr.baseCount b hb
    rw [hcount] at this
    exact Option.some.inj this
  · intro p hp
    obtain ⟨rec, hrec, hpr⟩ := List.mem_flatMap.mp hp
    obtain ⟨hmem, hnew⟩ := hmine rec hrec
    obtain ⟨k, hk, hin⟩ := (Option.any_eq_true _ _).mp hnew
    have hclosure := List.contains_iff_mem.mp (Bool.and_eq_true_iff.mp hin).1
    exact hn.known_parent hh h hr hmem hk hclosure hpr
  · intro u hu
    rw [hn.isMonth.resolved] at hu
    cases hu

theorem checkpointHashes_append (cs cs' : List CanonValue) :
    checkpointHashes (cs ++ cs') = checkpointHashes cs ++ checkpointHashes cs' :=
  List.filterMap_append

/-- The base is not kept again, and the checkpoints of the month all are. -/
theorem MonthsWalked.checkpoints_concat (h : MonthsWalked bundle earlier prev base done)
    (hfresh : (checkpointHashes (done ++ group)).Nodup)
    (hbase : ∀ b ∈ base, (strOf b "checkpoint_hash").isSome)
    (hm : m.checkpoints = base.toList ++ group) :
    wholeCheckpoints (earlier ++ [m]) = done ++ group := by
  rw [ChainState.wholeCheckpoints_concat, h.checkpoints, hm]
  refine congrArg (done ++ ·) ?_
  have hseen : ∀ k, k ∈ (newCheckpoints (earlier.flatMap Month.checkpoints) []).2 ↔
      k ∈ checkpointHashes done := by
    intro k
    have hd := newCheckpoints_distinct (earlier.flatMap Month.checkpoints) []
    rw [mem_newCheckpoints_snd, or_iff_right List.not_mem_nil, ← h.checkpoints]
    constructor
    · exact fun hk => (hd.named k hk).resolve_left List.not_mem_nil
    · exact fun hk => (hd.sublist.filterMap (strOf · "checkpoint_hash")).subset hk
  rw [checkpointHashes_append, List.nodup_append'] at hfresh
  have hgroup : (newCheckpoints group
      (newCheckpoints (earlier.flatMap Month.checkpoints) []).2).1 = group := by
    refine newCheckpoints_of_fresh hfresh.2.1 fun k hk hmem => ?_
    exact hfresh.2.2 ((hseen k).mp hmem) hk
  cases base with
  | none => exact hgroup
  | some b =>
    obtain ⟨k, hk⟩ := Option.isSome_iff_exists.mp (hbase b rfl)
    have hin : k ∈ checkpointHashes done :=
      List.mem_filterMap.mpr ⟨b, h.base b rfl, hk⟩
    rw [Option.toList_some, List.singleton_append, newCheckpoints, hk]
    dsimp only
    rw [if_pos ((hseen k).mpr hin)]
    exact hgroup

/-- One month further. -/
theorem MonthsWalked.step (hh : SplitHistory bundle byHash)
    (h : MonthsWalked bundle earlier prev base done)
    (hn : NextMonth bundle byHash earlier prev base done m label group last)
    (hr : SegmentReads bundle base group (monthRecords (arrayOf bundle "records")
      (closure (arrayOf bundle "records") byHash last) prev) isLast m) :
    MonthsWalked bundle (earlier ++ [m]) (closure (arrayOf bundle "records") byHash last)
      (some last) (done ++ group) := by
  constructor
  · exact chained_concat_iff.mpr ⟨h.chained, h.continues hh hn hr⟩
  · rw [List.flatMap_append, List.flatMap_singleton, hr.records]
    exact (h.records.append_right _).trans (records_perm hh hn)
  · have hmine : ∀ rec ∈ monthRecords (arrayOf bundle "records")
        (closure (arrayOf bundle "records") byHash last) prev, rec ∈ arrayOf bundle "records" :=
      fun rec hrec => (List.mem_filter.mp hrec).1
    rw [List.flatMap_append, List.flatMap_singleton, hr.disclosures, monthDisclosures_eq hh hmine]
    exact (h.disclosures.append_right _).trans (disclosures_perm hh hn)
  · exact h.checkpoints_concat hn.fresh hr.baseHash hr.checkpoints
  · exact forall_mem_concat_iff.mpr ⟨h.project, hr.project⟩
  · intro e he
    rw [List.getLast?_concat, Option.mem_some_iff] at he
    subst he
    have hlast : m.checkpoints.getLast? = some last := by
      rw [hr.checkpoints, List.getLast?_append, hn.lastOf, Option.some_or]
    obtain ⟨n, hcount⟩ := Option.isSome_iff_exists.mp hn.count
    refine ⟨last, rfl, ?_⟩
    rw [Month.headRecordCount, (hn.isMonth.head last hlast).2, hcount]
    rfl
  · intro b hb
    rw [Option.mem_some_iff] at hb
    subst hb
    exact List.mem_append_right done (List.mem_of_getLast? hn.lastOf)

end Step

/-- What the latest month of a whole split has beside its history. -/
structure LatestOf (bundle : CanonValue) (ms : List Month) : Prop where
  latest : ∀ m ∈ ms.getLast?,
    m.latestMembers = (bundle.asObject.getD []).filter fun p => !isHistoryMember p.1
  bound : ∀ m ∈ ms.getLast?,
    m.boundMembers = headBoundKeys.filterMap fun k => (bundle.get k).map (k, ·)
  hasDisclosures : ∀ m ∈ ms,
    (m.bundle.get "disclosures").isSome = (bundle.get "disclosures").isSome

/-- No segments come of no months. -/
theorem eq_nil_of_splitMonths {prev : List String} {base : Option CanonValue} {n total : Nat}
    (h : splitMonths N bundle records byHash groups prev base n = .ok ([], total)) :
    groups = [] := by
  cases groups with
  | nil => rfl
  | cons g groups =>
    obtain ⟨label, group⟩ := g
    simp only [splitMonths, bind_eq_ok_iff, orFail_eq_ok_iff, require_eq_ok_iff] at h
    obtain ⟨last, -, expect, -, _, -, segment, -, ⟨rest, total'⟩, -, hret⟩ := h
    cases (Prod.mk.inj (Except.ok.inj hret)).1

/-- A walk over all the months of a split. -/
theorem walked_splitMonths (hh : SplitHistory bundle byHash)
    (hkeys : ∀ p ∈ bundle.asObject.getD [], nfc N p.1 = p.1) {earlier ms : List Month}
    {prev : List String} {base : Option CanonValue} {done : List CanonValue} {n total : Nat}
    {out : List (String × CanonValue)}
    (hs : splitMonths N bundle (arrayOf bundle "records") byHash groups prev base n =
      .ok (out, total))
    (hstays : ∀ h, ∃ seen, (h ∈ prev → seen = true) ∧
      Stays (inClosure (arrayOf bundle "records") byHash h) seen groups)
    (hinside : ∀ c ∈ groups.flatMap (·.2), ∀ h ∈ closure (arrayOf bundle "records") byHash c,
      h ∈ contentHashes (arrayOf bundle "records"))
    (hinc : groups.Pairwise (·.1 < ·.1)) (hlater : ∀ e ∈ earlier, ∀ g ∈ groups, e.month < g.1)
    (hfresh : (checkpointHashes (done ++ groups.flatMap (·.2))).Nodup)
    (h : MonthsWalked bundle earlier prev base done) (hms : List.Forall₂ MonthOf out ms) :
    ∃ prev' base', MonthsWalked bundle (earlier ++ ms) prev' base' (done ++ groups.flatMap (·.2)) ∧
      (groups = [] → prev' = prev) ∧ (∀ g ∈ groups.getLast?, ∀ last ∈ g.2.getLast?,
        prev' = closure (arrayOf bundle "records") byHash last) ∧ LatestOf bundle ms := by
  induction groups generalizing earlier prev base done n out ms with
  | nil =>
    obtain ⟨rfl, -⟩ := Prod.mk.inj (Except.ok.inj hs)
    obtain rfl := List.forall₂_nil_left_iff.mp hms
    refine ⟨prev, base, ?_, fun _ => rfl, by simp, ⟨by simp, by simp, by simp⟩⟩
    simpa using h
  | cons g groups ih =>
    obtain ⟨label, group⟩ := g
    simp only [splitMonths, bind_eq_ok_iff, orFail_eq_ok_iff, require_eq_ok_iff] at hs
    obtain ⟨last, hlast, expect, hexpect, _, -, segment, hsegment, ⟨rest, total'⟩, hrest,
      hret⟩ := hs
    obtain ⟨rfl, rfl⟩ := Prod.mk.inj (Except.ok.inj hret)
    obtain ⟨m, ms, hm, hlaterMonths, rfl⟩ := List.forall₂_cons_left_iff.mp hms
    rw [List.forall_mem_flatMap] at hinside
    rw [List.flatMap_cons, ← List.append_assoc] at hfresh
    obtain ⟨hhead, htail⟩ := List.pairwise_cons.mp hinc
    have hmem := List.mem_of_getLast? hlast
    have hlabel : m.month = label := by
      rw [Month.month, monthOf, hm.month]
      rfl
    have hgrows : ∀ h ∈ prev, h ∈ closure (arrayOf bundle "records") byHash last := by
      intro h hp
      obtain ⟨seen, hseen, hstay⟩ := hstays h
      have := hstay.1 (by simp [hseen hp])
      rw [hlast, Option.any_some] at this
      exact List.contains_iff_mem.mp this
    have hn : NextMonth bundle byHash earlier prev base done m label group last :=
      ⟨hm.bundle ▸ hm, hlast, hgrows, hinside (label, group) (by simp) last hmem,
        fun e he => hlater e he (label, group) (by simp),
        by
          rw [checkpointHashes_append] at hfresh
          exact (List.nodup_append'.mp hfresh).1,
        Option.isSome_iff_exists.mpr ⟨expect, hexpect⟩⟩
    have hr := segmentReads hkeys hsegment hm.bundle
    have hstays' : ∀ h, ∃ seen, (h ∈ closure (arrayOf bundle "records") byHash last →
        seen = true) ∧ Stays (inClosure (arrayOf bundle "records") byHash h) seen groups := by
      intro h
      obtain ⟨seen, -, hstay⟩ := hstays h
      refine ⟨_, fun hin => ?_, hstay.2⟩
      have hany : group.any (inClosure (arrayOf bundle "records") byHash h) = true :=
        List.any_eq_true.mpr ⟨last, hmem, List.contains_iff_mem.mpr hin⟩
      rw [hany, Bool.or_true]
    obtain ⟨prev', base', hw, hnil, hprev', hlatest⟩ := ih hrest hstays'
      (List.forall_mem_flatMap.mpr fun g hg => hinside g (List.mem_cons_of_mem _ hg)) htail
      (forall_mem_concat_iff.mpr ⟨fun e he g hg => hlater e he g (List.mem_cons_of_mem _ hg),
        fun g hg => hlabel ▸ hhead g hg⟩) hfresh (h.step hh hn hr) hlaterMonths
    refine ⟨prev', base', ?_, fun hno => absurd hno (List.cons_ne_nil _ _), ?_, ?_⟩
    · rw [List.append_cons, List.flatMap_cons, ← List.append_assoc]
      exact hw
    · cases groups with
      | nil =>
        intro g hg last' hlast'
        obtain rfl := Option.some.inj hg
        obtain rfl := Option.some.inj (hlast.symm.trans hlast')
        exact hnil rfl
      | cons g groups => exact hprev'
    · refine ⟨?_, ?_, List.forall_mem_cons.mpr ⟨hr.hasDisclosures, hlatest.hasDisclosures⟩⟩
      · cases ms with
        | nil => simpa using hr.latest
        | cons m' ms => exact hlatest.latest
      · cases ms with
        | nil =>
          obtain rfl := List.forall₂_nil_right_iff.mp hlaterMonths
          intro m' hm'
          obtain rfl := Option.some.inj hm'
          exact hr.bound (List.isEmpty_iff.mpr (eq_nil_of_splitMonths hrest))
        | cons m' ms => exact hlatest.bound

/-- The same history: the records, checkpoints and disclosures as multisets, and every other
member that is no extra of single records. -/
structure Rebuilt (bundle whole : CanonValue) : Prop where
  records : (arrayOf whole "records").Perm (arrayOf bundle "records")
  checkpoints : (arrayOf whole "checkpoints").Perm (arrayOf bundle "checkpoints")
  disclosures : (arrayOf whole "disclosures").Perm
    ((arrayOf bundle "disclosures").filter (discloses (arrayOf bundle "records")))
  members : ∀ k, k ∉ ["records", "checkpoints", "disclosures", "segment", "filtered_records"] →
    whole.get k = bundle.get k

/-- No month was walked. -/
theorem walked_nil (bundle : CanonValue) : MonthsWalked bundle [] [] none [] := by
  have hnone : (arrayOf bundle "records").filter (committedBy []) = [] := by
    rw [List.filter_eq_nil_iff]
    intro rec _
    rw [committedBy]
    cases strOf rec "content_hash" <;> simp
  refine ⟨.nil, ?_, ?_, rfl, by simp, by simp, by simp⟩
  · rw [hnone]
    rfl
  · have hno : (arrayOf bundle "disclosures").filter (discloses []) = [] := by
      rw [List.filter_eq_nil_iff]
      intro d _
      rw [discloses_iff]
      rintro ⟨_, _, _, h, _⟩
      cases h
    rw [hnone, hno]
    rfl

/-- The walk over a split of an accepted history ends with all of it. -/
theorem walked_split {dag : Dag} {ordered : List CanonValue}
    {segments : List (String × CanonValue)} {ms : List Month}
    (hkeys : ∀ p ∈ bundle.asObject.getD [], nfc N p.1 = p.1)
    (hb : build (arrayOf bundle "records") = .ok dag)
    (hc : validateChain (arrayOf bundle "checkpoints") dag = .ok ordered)
    (hs : splitBundle N bundle = .ok segments)
    (hends : MonthEndsCommit (arrayOf bundle "records") ordered)
    (hids : ((arrayOf bundle "records").filterMap (strOf · "record_id")).Nodup)
    (hcps : (checkpointHashes (arrayOf bundle "checkpoints")).Nodup)
    (hms : List.Forall₂ MonthOf segments ms) :
    ms ≠ [] ∧ Chained ms ∧ (ms.flatMap Month.records).Perm (arrayOf bundle "records") ∧
      wholeCheckpoints ms = ordered ∧ (ms.flatMap Month.disclosures).Perm
        ((arrayOf bundle "disclosures").filter (discloses (arrayOf bundle "records"))) ∧
      LatestOf bundle ms ∧ KeysDiffer N bundle := by
  obtain ⟨byHash, groups, hspec⟩ := exists_splitSpec hb hc hs
  obtain ⟨total, hsplit⟩ := hspec.split
  have hh : SplitHistory bundle byHash := ⟨hspec.indexes, hspec.distinct, hspec.hashes, hids⟩
  have hbind := recordsBind_of_nodup hspec.distinct
  have hflat := hspec.months.flat
  have hordered : (checkpointHashes ordered).Nodup :=
    (((validateChain_eq_ok hc).1.filterMap (strOf · "checkpoint_hash")).nodup_iff).mpr hcps
  have hstays : ∀ h, ∃ seen, (h ∈ ([] : List String) → seen = true) ∧
      Stays (inClosure (arrayOf bundle "records") byHash h) seen groups := by
    intro h
    refine ⟨([] : List CanonValue).any (inClosure (arrayOf bundle "records") byHash h),
      fun hno => absurd hno List.not_mem_nil, (stays_iff_endsKeep hspec.months).mpr ?_⟩
    intro l c r heq hlast hany
    obtain ⟨c', hc', hin⟩ := List.any_eq_true.mp hany
    exact hspec.inClosure_iff.mpr
      (hends l c r heq hlast c' (by simpa using hc') (hspec.inClosure_iff.mp hin))
  have hinside : ∀ c ∈ groups.flatMap (·.2), ∀ h ∈ closure (arrayOf bundle "records") byHash c,
      h ∈ contentHashes (arrayOf bundle "records") := by
    intro c hcm h hin
    rw [hflat] at hcm
    exact hspec.committed c hcm ((mem_closure_iff hspec.indexes hbind).mp hin)
  obtain ⟨prev, base, hw, -, hprev, hlatest⟩ := walked_splitMonths hh hkeys hsplit hstays hinside
    hspec.months.increasing (fun e he => absurd he List.not_mem_nil)
    (by rwa [List.nil_append, hflat]) (walked_nil bundle) hms
  rw [List.nil_append, List.nil_append, hflat] at hw
  -- The last month end is the latest checkpoint, which commits every record.
  have hall : (arrayOf bundle "records").filter (committedBy prev) = arrayOf bundle "records" := by
    rw [List.filter_eq_self]
    intro rec hrec
    obtain ⟨k, hk⟩ := Option.isSome_iff_exists.mp (hspec.hashes rec hrec)
    have hg := List.getLast?_eq_getLast_of_ne_nil hspec.nonempty
    have hne := hspec.months.nonempty _ (List.mem_of_getLast? hg)
    have hl := List.getLast?_eq_getLast_of_ne_nil hne
    have hin : k ∈ prev := by
      rw [hprev _ hg _ hl, mem_closure_iff hspec.indexes hbind,
        hspec.last _ (by rw [hspec.months.getLast? hg, hl]; rfl)]
      exact ⟨rec, hrec, hk⟩
    have hs : strOf rec "content_hash" = some k := hk
    rw [committedBy, hs, Option.any_some]
    exact List.contains_iff_mem.mpr hin
  have hrecords := hw.records
  have hdisclosures := hw.disclosures
  rw [hall] at hrecords hdisclosures
  refine ⟨?_, hw.chained, hrecords, hw.checkpoints, hdisclosures, hlatest,
    (((splitMonths_isOk_iff hspec.months).mp ⟨_, _, hsplit⟩).1 hspec.nonempty).2⟩
  rintro rfl
  obtain rfl := List.forall₂_nil_right_iff.mp hms
  exact hspec.nonempty (eq_nil_of_splitMonths hsplit)

/-- The history in the members of the concatenation. -/
def concatRest (bundle : CanonValue) (ms : List Month) : List (String × CanonValue) :=
  [("records", .arr (ms.flatMap Month.records)), ("checkpoints", .arr (wholeCheckpoints ms))] ++
    ((if (bundle.get "disclosures").isSome then
      [("disclosures", .arr (ms.flatMap Month.disclosures))] else []) ++
      headBoundKeys.filterMap fun k => (bundle.get k).map (k, ·))

/-- The whole is the bundle without history, and the histories. -/
theorem LatestOf.concatMembers_eq {ms : List Month} (h : LatestOf bundle ms) (hne : ms ≠ []) :
    concatMembers ms = (bundle.asObject.getD []).filter (fun p => !isHistoryMember p.1) ++
      concatRest bundle ms := by
  have hl := List.getLast?_eq_getLast_of_ne_nil hne
  have hany : (ms.any fun m => (m.bundle.get "disclosures").isSome) =
      (bundle.get "disclosures").isSome := by
    rw [Bool.eq_iff_iff, List.any_eq_true]
    constructor
    · rintro ⟨m, hm, hsome⟩
      rwa [← h.hasDisclosures m hm]
    · exact fun hsome => ⟨_, List.mem_of_getLast? hl, by
        rwa [h.hasDisclosures _ (List.mem_of_getLast? hl)]⟩
  rw [concatMembers, concatRest, hany, hl, Option.map_some, Option.map_some, Option.getD_some,
    Option.getD_some, h.latest _ hl, h.bound _ hl]

/-- What the months add is history. -/
theorem isHistoryMember_of_mem_concatRest {ms : List Month} {p : String × CanonValue}
    (hp : p ∈ concatRest bundle ms) : isHistoryMember p.1 = true := by
  simp only [concatRest, List.mem_append, List.mem_cons, List.not_mem_nil, or_false] at hp
  rcases hp with (rfl | rfl) | hp | hp
  · rfl
  · rfl
  · split_ifs at hp
    · rw [List.mem_singleton.mp hp]
      rfl
    · cases hp
  · exact isHistoryMember_of_mem_bound hp

/-- The disclosures of all months. -/
theorem get_disclosures_concatRest {ms : List Month} :
    (CanonValue.obj (concatRest bundle ms)).get "disclosures" =
      if (bundle.get "disclosures").isSome then some (.arr (ms.flatMap Month.disclosures))
      else none := by
  have hbound : List.find? (·.1 == "disclosures")
      (headBoundKeys.filterMap fun k => (bundle.get k).map (k, ·)) = none :=
    find?_filterMap_keys bundle.get "disclosures" headBoundKeys
  rw [CanonValue.get, CanonValue.member, concatRest, List.find?_append, List.find?_append, hbound]
  split_ifs <;> rfl

/-- What is bound to the head is the bundle's. -/
theorem get_bound_concatRest {ms : List Month} {k : String} (hk : k ∈ headBoundKeys) :
    (CanonValue.obj (concatRest bundle ms)).get k = bundle.get k := by
  have hnone : List.find? (·.1 == k) ([("records", CanonValue.arr (ms.flatMap Month.records)),
      ("checkpoints", CanonValue.arr (wholeCheckpoints ms))] ++
        (if (bundle.get "disclosures").isSome then
          [("disclosures", CanonValue.arr (ms.flatMap Month.disclosures))] else [])) = none := by
    simp only [headBoundKeys, List.mem_cons, List.not_mem_nil, or_false] at hk
    rcases hk with rfl | rfl <;> split_ifs <;> rfl
  rw [CanonValue.get, CanonValue.member, concatRest, ← List.append_assoc, List.find?_append, hnone,
    Option.none_or, find?_filterMap_keys, if_pos hk, Option.map_map]
  exact Option.map_id'

/-- The keys of the concatenation, in the order of a segment. -/
def concatKeys (members : List (String × CanonValue)) : List String :=
  (members.filter fun p => !isHistoryMember p.1).map (·.1) ++
    ((headBoundKeys.filterMap fun k => ((CanonValue.obj members).get k).map (k, ·)).map (·.1) ++
      (["records", "checkpoints"] ++
        if ((CanonValue.obj members).get "disclosures").isSome then ["disclosures"] else []))

theorem concatKeys_sublist (members : List (String × CanonValue)) :
    (concatKeys members).Sublist (segmentKeys (.obj members) members) := by
  simp only [segmentKeys, segmentMembers, concatKeys, List.map_append, if_true, List.append_assoc]
  refine List.Sublist.append_left (List.Sublist.append_left (List.Sublist.append_left ?_ _) _) _
  split_ifs <;> simp

theorem concatKeys_perm (members : List (String × CanonValue)) (ms : List Month) :
    (concatKeys members).Perm ((members.filter (fun p => !isHistoryMember p.1) ++
      concatRest (.obj members) ms).map (·.1)) := by
  rw [concatKeys, concatRest, List.map_append, List.map_append, List.map_append,
    ← List.append_assoc ([_, _].map _)]
  refine List.Perm.append_left _ (List.perm_append_comm.trans ?_)
  refine List.Perm.append_right _ ?_
  split_ifs <;> rfl

/-- The concatenation is an object: its keys are among those of the last month. -/
theorem object_concatMembers {ms : List Month} (h : LatestOf bundle ms) (hne : ms ≠ [])
    (hdiffer : KeysDiffer N bundle) (hkeys : ∀ p ∈ bundle.asObject.getD [], nfc N p.1 = p.1) :
    CanonValue.object N (concatMembers ms) =
      .ok (.obj ((bundle.asObject.getD []).filter (fun p => !isHistoryMember p.1) ++
        concatRest bundle ms)) := by
  obtain ⟨members, rfl, hnodup⟩ := hdiffer
  rw [h.concatMembers_eq hne]
  have hfixed : ∀ p ∈ members.filter (fun p => !isHistoryMember p.1) ++
      concatRest (.obj members) ms, nfc N p.1 = p.1 := by
    intro p hp
    rcases List.mem_append.mp hp with hp | hp
    · exact hkeys p (List.mem_of_mem_filter hp)
    · exact nfc_of_isHistoryMember N (isHistoryMember_of_mem_concatRest hp)
  refine object_eq_ok_iff.mpr ⟨?_, congrArg CanonValue.obj ?_⟩
  · have hcomp : (fun p : String × CanonValue => nfc N p.1) = nfc N ∘ Prod.fst := rfl
    rw [hcomp, ← List.map_map]
    refine (List.Perm.nodup_iff ?_).mp (hnodup.sublist ((concatKeys_sublist members).map _))
    exact (concatKeys_perm members ms).map _
  · conv_lhs => rw [← List.map_id (_ ++ _)]
    exact List.map_congr_left fun p hp => Prod.ext (hfixed p hp).symm rfl

/-- Splitting a history whose month ends drop nothing, and chaining its months under the cap, gives
the history back: no month is out of order, and the concatenation is what was split. -/
theorem rebuilt_of_split (N : Normalizer) (bundle : CanonValue) (dag : Dag)
    (ordered : List CanonValue) (segments : List (String × CanonValue)) (ms : List Month)
    (cap : Option Nat)
    (hkeys : ∀ p ∈ bundle.asObject.getD [], nfc N p.1 = p.1)
    (hb : build (arrayOf bundle "records") = .ok dag)
    (hc : validateChain (arrayOf bundle "checkpoints") dag = .ok ordered)
    (hs : splitBundle N bundle = .ok segments)
    (hends : MonthEndsCommit (arrayOf bundle "records") ordered)
    (hids : ((arrayOf bundle "records").filterMap (strOf · "record_id")).Nodup)
    (hcps : (checkpointHashes (arrayOf bundle "checkpoints")).Nodup)
    (hms : List.Forall₂ MonthOf segments ms)
    (hfits : Fits N (cap.getD maxBundleBytes) ms) :
    ((ChainState.fresh cap).absorbAll N ms).isOk = true ∧
      ∃ whole, ((ChainState.fresh cap).absorbAll N ms).wholeBundle N = some whole ∧
        Rebuilt bundle whole := by
  obtain ⟨hne, hchained, hrecords, hcheckpoints, hdisclosures, hlatest, hdiffer⟩ :=
    walked_split hkeys hb hc hs hends hids hcps hms
  refine ⟨(ChainState.isOk_of_run cap N ms).mpr ⟨hne, hchained⟩, ?_⟩
  rw [(ChainState.wholeBundle_absorbAll cap N ms hne hchained.segment).1 hfits]
  have hobj := object_concatMembers hlatest hne hdiffer hkeys
  refine ⟨_, ChainState.toOption_eq_some_iff.mpr hobj, ?_, ?_, ?_, ?_⟩
  · rw [arrayOf, get_append_of_history rfl]
    exact hrecords
  · rw [arrayOf, get_append_of_history rfl]
    have hperm := (validateChain_eq_ok hc).1
    rw [← hcheckpoints] at hperm
    exact hperm
  · rw [arrayOf, get_append_of_history rfl, get_disclosures_concatRest]
    split_ifs with hd
    · exact hdisclosures
    · have hnil : arrayOf bundle "disclosures" = [] := by
        rw [arrayOf, Option.not_isSome_iff_eq_none.mp hd]
        rfl
      rw [hnil]
      rfl
  · intro k hk
    cases hhist : isHistoryMember k with
    | false =>
      rw [get_append_of_filter hhist fun p hp => isHistoryMember_of_mem_concatRest hp]
      obtain ⟨members, rfl, -⟩ := hdiffer
      rfl
    | true =>
      rw [get_append_of_history hhist, get_bound_concatRest]
      simp only [isHistoryMember, List.contains_iff_mem, headBoundKeys, List.mem_cons,
        List.not_mem_nil, or_false, not_or] at hhist hk ⊢
      tauto

/-- A report that is in order and states a head. -/
def headReport (month head : String) (count : Int64) : CanonValue :=
  .obj [("ok", .bool true), ("segment", .obj [("month", .str month),
    ("head_checkpoint_hash", .str head), ("head_record_count", .int count)])]

/-- A bundle of two months is split and put together again. -/
theorem rebuilt_of_split_twoMonths : ∃ segments ms,
    splitBundle .identity twoMonths = .ok segments ∧
      ((ChainState.fresh none).absorbAll .identity ms).isOk = true ∧
      ∃ whole, ((ChainState.fresh none).absorbAll .identity ms).wholeBundle .identity =
        some whole ∧ Rebuilt twoMonths whole := by
  obtain ⟨dag, ordered, hb, hc⟩ := exists_of_accepted (arrayOf twoMonths "records")
    (arrayOf twoMonths "checkpoints") (by decide +kernel)
  obtain ⟨january, february, hs, hjanuary, hfebruary, hfirst, hboth⟩ : ∃ january february,
      splitBundle .identity twoMonths = .ok [("2026-01", january), ("2026-02", february)] ∧
      arrayOf january "checkpoints" = [januaryCheckpoint] ∧
      arrayOf february "checkpoints" = [januaryCheckpoint, februaryCheckpoint] ∧
      wholeLen .identity [⟨january, headReport "2026-01" "h0" 1⟩] ≤ maxBundleBytes ∧
      wholeLen .identity [⟨january, headReport "2026-01" "h0" 1⟩,
        ⟨february, headReport "2026-02" "h1" 2⟩] ≤ maxBundleBytes :=
    ⟨_, _, rfl, rfl, rfl, by decide +kernel, by decide +kernel⟩
  have hordered : ordered = [januaryCheckpoint, februaryCheckpoint] := by
    rw [← insertionSort_seqOf hc]
    rfl
  refine ⟨_, [⟨january, headReport "2026-01" "h0" 1⟩, ⟨february, headReport "2026-02" "h1" 2⟩], hs,
    rebuilt_of_split .identity twoMonths dag ordered _ _ none (by simp) hb hc hs
      (hordered ▸ twoMonths_endsCommit) (by decide) (by decide) ?_ ?_⟩
  · refine .cons ⟨rfl, rfl, rfl, (Option.some_ne_none _).symm, rfl, ?_, rfl⟩
      (.cons ⟨rfl, rfl, rfl, (Option.some_ne_none _).symm, rfl, ?_, rfl⟩ .nil)
    · intro last hlast
      rw [Month.checkpoints, hjanuary] at hlast
      obtain rfl := Option.some.inj hlast
      exact ⟨rfl, rfl⟩
    · intro last hlast
      rw [Month.checkpoints, hfebruary] at hlast
      obtain rfl := Option.some.inj hlast
      exact ⟨rfl, rfl⟩
  · intro p hp hne
    rcases List.prefix_cons_iff.mp hp with rfl | ⟨t, rfl, ht⟩
    · exact absurd rfl hne
    · rcases List.prefix_cons_iff.mp ht with rfl | ⟨t', rfl, ht'⟩
      · exact hfirst
      · obtain rfl := List.prefix_nil.mp ht'
        exact hboth

end Averin
