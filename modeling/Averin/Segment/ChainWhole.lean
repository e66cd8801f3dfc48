import Averin.Canon.RoundTrip
import Averin.Segment.ChainRun

/-!
# The whole history of a chain

The chain holds the concatenation of its months as long as that stays under the byte cap. What it
counts is at most what the concatenation has when it is written, and the verdict is a good one only
for a chain in order whose concatenation was held and verified.
-/

namespace Averin

variable {N : Normalizer}

/-- The distinct checkpoints of all months, in the order first seen. -/
def wholeCheckpoints (ms : List Month) : List CanonValue :=
  (newCheckpoints (ms.flatMap Month.checkpoints) []).1

/-- The bytes counted of the records, checkpoints and disclosures. -/
def historyLen (N : Normalizer) (ms : List Month) : Nat :=
  ((wholeCheckpoints ms).map (serializedLen N)).sum +
    (((ms.flatMap Month.records).map (serializedLen N)).sum +
      ((ms.flatMap Month.disclosures).map (serializedLen N)).sum)

/-- The bytes counted of the whole history, with the members of the latest month. -/
def wholeLen (N : Normalizer) (ms : List Month) : Nat :=
  historyLen N ms + (ms.getLast?.map (·.extraBytes N)).getD 0

/-- The concatenation was never over the cap, after any of the months. -/
def Fits (N : Normalizer) (cap : Nat) (ms : List Month) : Prop :=
  ∀ p, p <+: ms → p ≠ [] → wholeLen N p ≤ cap

/-- The members of the concatenation: all records, the distinct checkpoints and all disclosures,
with what the latest month has beside them. -/
def concatMembers (ms : List Month) : List (String × CanonValue) :=
  (ms.getLast?.map Month.latestMembers).getD [] ++
    ([("records", .arr (ms.flatMap Month.records)), ("checkpoints", .arr (wholeCheckpoints ms))] ++
      ((if ms.any fun m => (m.bundle.get "disclosures").isSome then
        [("disclosures", .arr (ms.flatMap Month.disclosures))] else []) ++
        (ms.getLast?.map Month.boundMembers).getD []))

/-- New checkpoints of one list after the other. -/
theorem newCheckpoints_append (cs cs' : List CanonValue) (seen : List String) :
    newCheckpoints (cs ++ cs') seen =
      ((newCheckpoints cs seen).1 ++ (newCheckpoints cs' (newCheckpoints cs seen).2).1,
        (newCheckpoints cs' (newCheckpoints cs seen).2).2) := by
  induction cs generalizing seen with
  | nil => rfl
  | cons c cs ih =>
    rw [List.cons_append, newCheckpoints, newCheckpoints]
    cases strOf c "checkpoint_hash" with
    | none =>
      simp only [ih, List.cons_append]
    | some k =>
      by_cases hk : k ∈ seen
      · simp only [if_pos hk, ih]
      · simp only [if_neg hk, ih, List.cons_append]

/-- The hashes of checkpoints. -/
def checkpointHashes (cs : List CanonValue) : List String :=
  cs.filterMap (strOf · "checkpoint_hash")

/-- A checkpoint without a hash adds none. -/
theorem checkpointHashes_cons_none {c : CanonValue} (hc : strOf c "checkpoint_hash" = none)
    (cs : List CanonValue) : checkpointHashes (c :: cs) = checkpointHashes cs := by
  simp [checkpointHashes, hc]

theorem checkpointHashes_cons_some {c : CanonValue} {k : String}
    (hc : strOf c "checkpoint_hash" = some k) (cs : List CanonValue) :
    checkpointHashes (c :: cs) = k :: checkpointHashes cs := by
  simp [checkpointHashes, hc]

/-- A selection of checkpoints that has every hash once that was not seen before, and every
checkpoint without a hash. -/
structure Distinct (seen : List String) (cs kept : List CanonValue) : Prop where
  sublist : kept.Sublist cs
  nodup : (checkpointHashes kept).Nodup
  fresh : ∀ k ∈ checkpointHashes kept, k ∉ seen
  unnamed : ∀ c ∈ cs, strOf c "checkpoint_hash" = none → c ∈ kept
  named : ∀ k ∈ checkpointHashes cs, k ∈ seen ∨ k ∈ checkpointHashes kept

/-- Each new checkpoint has a hash that was not seen. -/
theorem newCheckpoints_distinct (cs : List CanonValue) (seen : List String) :
    Distinct seen cs (newCheckpoints cs seen).1 := by
  induction cs generalizing seen with
  | nil => constructor <;> simp [newCheckpoints, checkpointHashes]
  | cons c cs ih =>
    rw [newCheckpoints]
    cases hc : strOf c "checkpoint_hash" with
    | none =>
      have h := ih seen
      dsimp only
      refine ⟨h.sublist.cons_cons c, ?_, ?_, ?_, ?_⟩
      · rw [checkpointHashes_cons_none hc]
        exact h.nodup
      · rw [checkpointHashes_cons_none hc]
        exact h.fresh
      · rw [List.forall_mem_cons]
        exact ⟨fun _ => List.mem_cons_self,
          fun d hd hn => List.mem_cons_of_mem c (h.unnamed d hd hn)⟩
      · rw [checkpointHashes_cons_none hc, checkpointHashes_cons_none hc]
        exact h.named
    | some k =>
      dsimp only
      rw [apply_ite Prod.fst]
      split_ifs with hk
      · have h := ih seen
        refine ⟨h.sublist.cons c, h.nodup, h.fresh, ?_, ?_⟩
        · rw [List.forall_mem_cons]
          exact ⟨fun hn => by simp [hc] at hn, h.unnamed⟩
        · rw [checkpointHashes_cons_some hc, List.forall_mem_cons]
          exact ⟨Or.inl hk, h.named⟩
      · have h := ih (k :: seen)
        have hfresh := fun k' hk' => List.not_mem_of_not_mem_cons (h.fresh k' hk')
        refine ⟨h.sublist.cons_cons c, ?_, ?_, ?_, ?_⟩
        · rw [checkpointHashes_cons_some hc, List.nodup_cons]
          exact ⟨fun hmem => h.fresh k hmem List.mem_cons_self, h.nodup⟩
        · rw [checkpointHashes_cons_some hc, List.forall_mem_cons]
          exact ⟨hk, hfresh⟩
        · rw [List.forall_mem_cons]
          exact ⟨fun hn => by simp [hc] at hn,
            fun d hd hn => List.mem_cons_of_mem c (h.unnamed d hd hn)⟩
        · rw [checkpointHashes_cons_some hc, checkpointHashes_cons_some hc, List.forall_mem_cons]
          refine ⟨Or.inr List.mem_cons_self, fun k' hk' => ?_⟩
          have hcases := h.named k' hk'
          rw [List.mem_cons, or_right_comm] at hcases
          rw [List.mem_cons]
          tauto

/-- What is kept of the latest month. -/
structure Latest (N : Normalizer) (cap : Option Nat) (ms : List Month) (c : ChainState) :
    Prop where
  capOverride : c.capOverride = cap
  members : c.members = (ms.getLast?.map Month.latestMembers).getD []
  latestBound : c.latestBound = (ms.getLast?.map Month.boundMembers).getD []
  hasDisclosures : c.hasDisclosures = ms.any fun m => (m.bundle.get "disclosures").isSome
  extraBytes : c.latestExtraBytes = (ms.getLast?.map (·.extraBytes N)).getD 0

/-- The history is held. -/
structure Held (N : Normalizer) (ms : List Month) (c : ChainState) : Prop where
  overCap : c.overCap = false
  seenCheckpoints : c.seenCheckpoints = (newCheckpoints (ms.flatMap Month.checkpoints) []).2
  historyBytes : c.historyBytes = historyLen N ms
  allRecords : c.allRecords = ms.flatMap Month.records
  allCheckpoints : c.allCheckpoints = wholeCheckpoints ms
  allDisclosures : c.allDisclosures = ms.flatMap Month.disclosures

namespace ChainState

variable {ms : List Month} {m : Month} {c : ChainState} {cap : Option Nat}

/-- A fresh state has no latest month. -/
theorem latest_fresh (N : Normalizer) (cap : Option Nat) : Latest N cap [] (fresh cap) :=
  ⟨rfl, rfl, rfl, rfl, rfl⟩

/-- The month that is absorbed is the latest. -/
theorem latest_absorb (h : Latest N cap ms c) (hseg : (m.report.get "segment").isSome) :
    Latest N cap (ms ++ [m]) (c.absorb m N) := by
  obtain ⟨seg, hseg⟩ := Option.isSome_iff_exists.mp hseg
  obtain ⟨-, -, -, -, -, -, hcap, hdis, hextra⟩ :=
    grow_frame ((c.report m (c.issuesOf m)).remember m N) m N
  rw [absorb_segment hseg]
  refine ⟨hcap.trans h.capOverride, ?_, ?_, ?_, ?_⟩
  · rw [List.getLast?_concat]
    rfl
  · rw [List.getLast?_concat]
    rfl
  · rw [List.any_append, ← h.hasDisclosures, List.any_cons, List.any_nil, Bool.or_false]
    exact hdis
  · rw [List.getLast?_concat]
    exact hextra

theorem held_fresh (N : Normalizer) (cap : Option Nat) : Held N [] (fresh cap) :=
  ⟨rfl, rfl, rfl, rfl, rfl, rfl⟩

/-- A month adds its new checkpoints. -/
theorem wholeCheckpoints_concat (ms : List Month) (m : Month) :
    wholeCheckpoints (ms ++ [m]) = wholeCheckpoints ms ++
      (newCheckpoints m.checkpoints (newCheckpoints (ms.flatMap Month.checkpoints) []).2).1 := by
  rw [wholeCheckpoints, List.flatMap_append, newCheckpoints_append, List.flatMap_singleton]
  rfl

/-- A month adds its bytes to the history. -/
theorem historyLen_concat (N : Normalizer) (ms : List Month) (m : Month) :
    historyLen N (ms ++ [m]) = historyLen N ms + addedBytes m N
      (newCheckpoints m.checkpoints (newCheckpoints (ms.flatMap Month.checkpoints) []).2).1 := by
  rw [historyLen, wholeCheckpoints_concat, historyLen, addedBytes]
  simp only [List.flatMap_append, List.flatMap_singleton, List.map_append, List.sum_append]
  omega

/-- The whole is the history and the rest of the latest month. -/
theorem wholeLen_concat (N : Normalizer) (ms : List Month) (m : Month) :
    wholeLen N (ms ++ [m]) = historyLen N (ms ++ [m]) + m.extraBytes N := by
  rw [wholeLen, List.getLast?_concat]
  rfl

/-- A month that does not fit goes past the cap. -/
theorem overCap_grow (h : c.overCap = false)
    (hlt : c.cap < c.historyBytes +
      addedBytes m N (newCheckpoints m.checkpoints c.seenCheckpoints).1 + c.latestExtraBytes) :
    (c.grow m N).overCap = true := by
  rw [grow, if_neg (by simp [h]), if_pos hlt]

/-- One that fits does not. -/
theorem grow_of_fits (h : c.overCap = false)
    (hle : c.historyBytes + addedBytes m N (newCheckpoints m.checkpoints c.seenCheckpoints).1 +
      c.latestExtraBytes ≤ c.cap) :
    c.grow m N =
      { c with
        seenCheckpoints := (newCheckpoints m.checkpoints c.seenCheckpoints).2
        historyBytes := c.historyBytes +
          addedBytes m N (newCheckpoints m.checkpoints c.seenCheckpoints).1
        allRecords := c.allRecords ++ m.records
        allCheckpoints := c.allCheckpoints ++ (newCheckpoints m.checkpoints c.seenCheckpoints).1
        allDisclosures := c.allDisclosures ++ m.disclosures } := by
  rw [grow, if_neg (by simp [h]), if_neg (not_lt.mpr hle)]

/-- A history that is held grows by the month, or is dropped if it is over the cap then. -/
theorem held_absorb (h : Held N ms c) (hseg : (m.report.get "segment").isSome) :
    (wholeLen N (ms ++ [m]) ≤ c.cap → Held N (ms ++ [m]) (c.absorb m N)) ∧
      (c.cap < wholeLen N (ms ++ [m]) → (c.absorb m N).overCap = true) := by
  obtain ⟨seg, hseg⟩ := Option.isSome_iff_exists.mp hseg
  rw [absorb_segment hseg, wholeLen_concat, historyLen_concat, ← h.historyBytes,
    ← h.seenCheckpoints]
  have hover : ((c.report m (c.issuesOf m)).remember m N).overCap = false := h.overCap
  refine ⟨fun hle => ?_, overCap_grow hover⟩
  rw [grow_of_fits hover hle]
  refine ⟨h.overCap, ?_, ?_, ?_, ?_, ?_⟩
  · rw [List.flatMap_append, newCheckpoints_append, List.flatMap_singleton, ← h.seenCheckpoints]
    rfl
  · rw [historyLen_concat, ← h.historyBytes, ← h.seenCheckpoints]
    rfl
  · rw [List.flatMap_append, ← h.allRecords, List.flatMap_singleton]
    rfl
  · rw [wholeCheckpoints_concat, ← h.allCheckpoints, ← h.seenCheckpoints]
    rfl
  · rw [List.flatMap_append, ← h.allDisclosures, List.flatMap_singleton]
    rfl

/-- Once over the cap, always over the cap. -/
theorem overCap_absorb (h : c.overCap = true) : (c.absorb m N).overCap = true := by
  cases hseg : m.report.get "segment" with
  | none =>
    rw [absorb, hseg]
    exact h
  | some seg =>
    rw [absorb_segment hseg, grow, if_pos (show
      ((c.report m (c.issuesOf m)).remember m N).overCap = true from h)]
    exact h

/-- The latest month after a run. -/
theorem latest_absorbAll (cap : Option Nat) (hseg : ∀ m ∈ ms, (m.report.get "segment").isSome) :
    Latest N cap ms ((fresh cap).absorbAll N ms) := by
  induction ms using List.reverseRecOn with
  | nil => exact latest_fresh N cap
  | append_singleton ms m ih =>
    rw [forall_mem_concat_iff] at hseg
    rw [absorbAll_concat]
    exact latest_absorb (ih hseg.1) hseg.2

/-- Months fit when those before do and the whole does. -/
theorem fits_concat_iff {cap : Nat} :
    Fits N cap (ms ++ [m]) ↔ Fits N cap ms ∧ wholeLen N (ms ++ [m]) ≤ cap := by
  constructor
  · intro h
    refine ⟨fun p hp => h p (hp.trans (List.prefix_append ms [m])), h _ List.prefix_rfl ?_⟩
    simp
  · rintro ⟨h, hlast⟩ p hp hne
    rcases List.prefix_concat_iff.mp hp with rfl | hp
    · exact hlast
    · exact h p hp hne

/-- The history is held exactly as long as no month has taken it over the cap. -/
theorem absorbAll_held (cap : Option Nat) (hseg : ∀ m ∈ ms, (m.report.get "segment").isSome) :
    (Fits N (cap.getD maxBundleBytes) ms → Held N ms ((fresh cap).absorbAll N ms)) ∧
      (¬ Fits N (cap.getD maxBundleBytes) ms → ((fresh cap).absorbAll N ms).overCap = true) := by
  induction ms using List.reverseRecOn with
  | nil =>
    refine ⟨fun _ => held_fresh N cap, fun h => absurd ?_ h⟩
    rintro p hp hne
    exact absurd (List.prefix_nil.mp hp) hne
  | append_singleton ms m ih =>
    rw [forall_mem_concat_iff] at hseg
    obtain ⟨hheld, hover⟩ := ih hseg.1
    have hcap : ((fresh cap).absorbAll N ms).cap = cap.getD maxBundleBytes := by
      rw [ChainState.cap, (latest_absorbAll (N := N) cap hseg.1).capOverride]
    rw [absorbAll_concat, fits_concat_iff]
    by_cases hfits : Fits N (cap.getD maxBundleBytes) ms
    · have hstep := held_absorb (hheld hfits) hseg.2
      rw [hcap] at hstep
      exact ⟨fun h => hstep.1 h.2, fun h => hstep.2 (not_le.mp fun hle => h ⟨hfits, hle⟩)⟩
    · refine ⟨fun h => absurd h.1 hfits, fun _ => overCap_absorb (hover hfits)⟩

/-- The cap is passed exactly if some whole does not fit. -/
theorem overCap_absorbAll_iff (cap : Option Nat)
    (hseg : ∀ m ∈ ms, (m.report.get "segment").isSome) :
    ((fresh cap).absorbAll N ms).overCap = true ↔ ¬ Fits N (cap.getD maxBundleBytes) ms := by
  obtain ⟨hheld, hover⟩ := absorbAll_held (N := N) cap hseg
  refine ⟨fun h hfits => ?_, hover⟩
  rw [(hheld hfits).overCap] at h
  cases h

/-- The whole history of a run over segments is their concatenation, as long as that was under the
cap after every month. -/
theorem wholeBundle_absorbAll (cap : Option Nat) (N : Normalizer) (ms : List Month) (hne : ms ≠ [])
    (hseg : ∀ m ∈ ms, (m.report.get "segment").isSome) :
    (Fits N (cap.getD maxBundleBytes) ms → ((fresh cap).absorbAll N ms).wholeBundle N =
        (CanonValue.object N (concatMembers ms)).toOption) ∧
      (¬ Fits N (cap.getD maxBundleBytes) ms →
        ((fresh cap).absorbAll N ms).wholeBundle N = none) := by
  obtain ⟨hheld, hover⟩ := absorbAll_held (N := N) cap hseg
  have hlatest := latest_absorbAll (N := N) cap hseg
  have hmonths : ((fresh cap).absorbAll N ms).months ≠ 0 := by
    rw [(absorbAll_absorbed cap hseg).months]
    exact fun h => hne (List.length_eq_zero_iff.mp h)
  refine ⟨fun hfits => ?_, fun hfits => ?_⟩
  · have h := hheld hfits
    have hcond : ¬ (((fresh cap).absorbAll N ms).months = 0 ∨
        ((fresh cap).absorbAll N ms).overCap = true) := by
      rw [h.overCap]
      simpa using hmonths
    rw [wholeBundle, if_neg hcond, wholeMembers, hlatest.members, hlatest.latestBound,
      hlatest.hasDisclosures, h.allRecords, h.allCheckpoints, h.allDisclosures]
    rfl
  · rw [wholeBundle, if_pos (Or.inr (hover hfits))]

/-- A result is a value when it succeeds. -/
theorem toOption_eq_some_iff {ε α : Type*} {x : Except ε α} {a : α} :
    x.toOption = some a ↔ x = .ok a := by
  cases x <;> simp [Except.toOption]

/-- A chain that is not in order fails. -/
theorem verdict_of_not_ok (h : c.isOk = false) (verify : CanonValue → Option CanonValue) :
    (c.finishWith N verify).verdict = .fail := by
  unfold finishWith
  rw [h]
  by_cases hc : 0 < c.months ∧ c.overCap = true
  · rw [if_pos hc]
    rfl
  · rw [if_neg hc]
    cases c.wholeBundle N <;> rfl

/-- The verdict of a chain in order that is held is that of its whole history. -/
theorem verdict_of_held (hok : c.isOk = true) (hover : c.overCap = false)
    (verify : CanonValue → Option CanonValue) :
    (c.finishWith N verify).verdict.Good ↔ ∃ whole report, c.wholeBundle N = some whole ∧
      verify whole = some report ∧ (monthClaimVerdict report false).Good := by
  unfold finishWith
  rw [hok, if_neg (by simp [hover])]
  cases c.wholeBundle N with
  | none => simp [ClaimVerdict.Good]
  | some whole =>
    cases hv : verify whole with
    | none => simp [ClaimVerdict.Good, hv]
    | some report => simp [hv]

/-- The verdict of a chain is a good one exactly when its months make up one history, that history
stayed under the cap, and its own report is in order and satisfies what was requested. -/
theorem finishWith_good_iff (cap : Option Nat) (N : Normalizer) (ms : List Month)
    (verify : CanonValue → Option CanonValue) :
    (((fresh cap).absorbAll N ms).finishWith N verify).verdict.Good ↔
      ms ≠ [] ∧ Chained ms ∧ Fits N (cap.getD maxBundleBytes) ms ∧
        ∃ whole report, CanonValue.object N (concatMembers ms) = .ok whole ∧
          verify whole = some report ∧ flagOf report "ok" = true ∧
            contractDecision report = some "satisfied" := by
  have hok := isOk_of_run cap N ms
  cases h : ((fresh cap).absorbAll N ms).isOk with
  | false =>
    rw [verdict_of_not_ok h]
    refine iff_of_false (by simp [ClaimVerdict.Good]) fun hall => ?_
    rw [hok.mpr ⟨hall.1, hall.2.1⟩] at h
    cases h
  | true =>
    obtain ⟨hne, hchained⟩ := hok.mp h
    obtain ⟨hwhole, -⟩ := wholeBundle_absorbAll cap N ms hne hchained.segment
    have hover := overCap_absorbAll_iff (N := N) cap hchained.segment
    by_cases hfits : Fits N (cap.getD maxBundleBytes) ms
    · have hheld : ((fresh cap).absorbAll N ms).overCap = false := by
        rw [← Bool.not_eq_true, hover]
        exact not_not.mpr hfits
      rw [verdict_of_held h hheld, hwhole hfits]
      simp only [toOption_eq_some_iff, monthClaimVerdict_good_iff, Bool.false_and, and_true, hne,
        hchained, hfits, ne_eq, not_false_eq_true, true_and]
    · have hcond : 0 < ((fresh cap).absorbAll N ms).months ∧
          ((fresh cap).absorbAll N ms).overCap = true := by
        refine ⟨?_, hover.mpr hfits⟩
        rw [(absorbAll_absorbed cap hchained.segment).months]
        exact List.length_pos_iff.mpr hne
      rw [finishWith, if_pos hcond, h]
      exact iff_of_false (by simp [ClaimVerdict.Good]) fun hall => hfits hall.2.2.1

end ChainState

/-- Separated texts are as long as all of them. -/
theorem sum_length_le_intercalate (sep : UInt8) (ls : List (List UInt8)) :
    (ls.map (·.length + 1)).sum ≤ ([sep].intercalate ls).length + 1 := by
  induction ls with
  | nil => simp
  | cons l ls ih =>
    cases ls with
    | nil => simp
    | cons l' ls =>
      rw [List.intercalate_cons_cons, List.length_append, List.length_append, List.map_cons,
        List.sum_cons, List.length_singleton]
      omega

theorem escapeByte_ne_nil (b : UInt8) : escapeByte b ≠ [] := by
  unfold escapeByte
  split_ifs <;> exact List.cons_ne_nil _ _

/-- A text is no longer than it is written. -/
theorem le_length_escapeInto (s : List UInt8) : s.length + 2 ≤ (escapeInto s).length := by
  have hbody : s.length ≤ (s.flatMap escapeByte).length := by
    induction s with
    | nil => simp
    | cons b s ih =>
      have hone := List.length_pos_iff.mpr (escapeByte_ne_nil b)
      rw [List.flatMap_cons, List.length_append, List.length_cons]
      omega
  rw [escapeInto, List.length_append, List.length_cons, List.length_singleton]
  omega

/-- The items of an array are counted with a comma each, which leaves out one bracket. -/
theorem sum_serializedLen_le (N : Normalizer) (items : List CanonValue) :
    (items.map (serializedLen N)).sum + 1 ≤ (writeCanonical N (.arr items)).bytes.length := by
  have h := sum_length_le_intercalate ','.toUInt8 (items.map fun v => (writeCanonical N v).bytes)
  rw [List.map_map] at h
  rw [writeCanonical, writeItems_eq_map, writeArray, List.length_append, List.length_cons,
    List.length_singleton, List.map_map]
  exact Nat.succ_le_succ h

/-- The bytes counted of members: the key as it is, and the value with a comma. -/
def membersLen (N : Normalizer) (members : List (String × CanonValue)) : Nat :=
  (members.map fun p => (bytes p.1).length + serializedLen N p.2).sum

/-- The members of an object are counted without quotes and colons. -/
theorem membersLen_le (N : Normalizer) {members : List (String × CanonValue)}
    (hkeys : ∀ p ∈ members, nfc N p.1 = p.1) :
    membersLen N members + 1 ≤ (writeCanonical N (.obj members)).bytes.length := by
  rw [writeCanonical, writeMembers_bytes, writeValues_eq_map, List.map_map, List.length_append,
    List.length_cons, List.length_singleton]
  have hkept : members.map ((fun m : String × Written => (nfc N m.1, m.2)) ∘
      fun m => (m.1, writeCanonical N m.2)) = members.map fun m => (m.1, writeCanonical N m.2) :=
    List.map_congr_left fun p hp => Prod.ext (hkeys p hp) rfl
  rw [hkept]
  have hperm := sortMembers_perm (members.map fun m => (m.1, writeCanonical N m.2))
  have h := sum_length_le_intercalate ','.toUInt8
    ((sortMembers (members.map fun m => (m.1, writeCanonical N m.2))).map writeMember)
  have hsum := (hperm.map fun m => (writeMember m).length + 1).sum_eq
  rw [List.map_map] at h
  have hle : membersLen N members ≤
      ((members.map fun m => (m.1, writeCanonical N m.2)).map
        fun m => (writeMember m).length + 1).sum := by
    rw [membersLen, List.map_map]
    refine List.sum_le_sum fun p _ => ?_
    have hesc := le_length_escapeInto (bytes p.1)
    simp only [Function.comp_apply, writeMember, serializedLen, List.length_append,
      List.length_cons]
    omega
  have hcomp : ((fun l : List UInt8 => l.length + 1) ∘ writeMember) =
      fun m => (writeMember m).length + 1 := rfl
  rw [hcomp] at h
  omega

theorem membersLen_append (N : Normalizer) (a b : List (String × CanonValue)) :
    membersLen N (a ++ b) = membersLen N a + membersLen N b := by
  rw [membersLen, List.map_append, List.sum_append]
  rfl

/-- The items of a list fit into it. -/
theorem sum_serializedLen_le_membersLen (N : Normalizer) (k : String) (items : List CanonValue) :
    (items.map (serializedLen N)).sum ≤ membersLen N [(k, .arr items)] := by
  have h := sum_serializedLen_le N items
  rw [membersLen, List.map_singleton, List.sum_singleton]
  change _ ≤ (bytes k).length + ((writeCanonical N (.arr items)).bytes.length + 1)
  omega

/-- A key of the whole is the latest month's or a history's. -/
theorem key_of_mem_concatMembers {ms : List Month} {p : String × CanonValue}
    (hp : p ∈ concatMembers ms) :
    (∃ m ∈ ms, p ∈ m.latestMembers) ∨ isHistoryMember p.1 = true := by
  rcases ms.eq_nil_or_concat with rfl | ⟨init, m, rfl⟩
  · right
    simp only [concatMembers, List.getLast?_nil, Option.map_none, Option.getD_none,
      List.nil_append, List.any_nil, Bool.false_eq_true, if_false, List.append_nil,
      List.mem_cons, List.not_mem_nil, or_false] at hp
    rcases hp with rfl | rfl <;> rfl
  · simp only [concatMembers, List.concat_eq_append, List.getLast?_concat, Option.map_some,
      Option.getD_some, List.mem_append, List.mem_cons, List.not_mem_nil, or_false] at hp
    rcases hp with hp | (rfl | rfl) | hp | hp
    · exact Or.inl ⟨m, by simp, hp⟩
    · exact Or.inr rfl
    · exact Or.inr rfl
    · right
      split_ifs at hp
      · rw [List.mem_singleton.mp hp]
        rfl
      · cases hp
    · right
      obtain ⟨k, hk, heq⟩ := List.mem_filterMap.mp hp
      obtain ⟨v, -, rfl⟩ := Option.map_eq_some_iff.mp heq
      simp only [headBoundKeys, List.mem_cons, List.not_mem_nil, or_false] at hk
      rcases hk with rfl | rfl <;> rfl

/-- The keys of the history are normal. -/
theorem nfc_of_isHistoryMember (N : Normalizer) {k : String} (h : isHistoryMember k = true) :
    nfc N k = k := by
  apply nfc_of_isAscii
  simp only [isHistoryMember, List.contains_iff_mem, List.mem_cons, List.not_mem_nil,
    or_false] at h
  rcases h with rfl | rfl | rfl | rfl | rfl | rfl | rfl <;> decide

/-- A history without the member has no disclosures. -/
theorem disclosures_of_any_eq_false {ms : List Month}
    (h : (ms.any fun m => (m.bundle.get "disclosures").isSome) = false) :
    ms.flatMap Month.disclosures = [] := by
  rw [List.flatMap_eq_nil_iff]
  intro m hm
  have hnone := List.any_eq_false.mp h m hm
  rw [Option.not_isSome_iff_eq_none] at hnone
  rw [Month.disclosures, arrayOf, hnone]
  rfl

/-- The count never exceeds the whole as it is written. -/
theorem wholeLen_le_membersLen (N : Normalizer) (ms : List Month) :
    wholeLen N ms ≤ membersLen N (concatMembers ms) := by
  have hrecords := sum_serializedLen_le_membersLen N "records" (ms.flatMap Month.records)
  have hcheckpoints := sum_serializedLen_le_membersLen N "checkpoints" (wholeCheckpoints ms)
  have hdisclosures : ((ms.flatMap Month.disclosures).map (serializedLen N)).sum ≤
      membersLen N (if ms.any fun m => (m.bundle.get "disclosures").isSome then
        [("disclosures", .arr (ms.flatMap Month.disclosures))] else []) := by
    split_ifs with hd
    · exact sum_serializedLen_le_membersLen N "disclosures" _
    · rw [disclosures_of_any_eq_false (Bool.not_eq_true _ ▸ hd)]
      exact le_rfl
  have hextra : (ms.getLast?.map (·.extraBytes N)).getD 0 =
      membersLen N ((ms.getLast?.map Month.latestMembers).getD []) +
        membersLen N ((ms.getLast?.map Month.boundMembers).getD []) := by
    cases ms.getLast? with
    | none => rfl
    | some m => exact membersLen_append N m.latestMembers m.boundMembers
  rw [concatMembers, membersLen_append, membersLen_append, membersLen_append, wholeLen,
    historyLen, hextra, ← List.singleton_append, membersLen_append]
  omega

/-- What the chain counts is less than what the concatenation has when it is written. -/
theorem wholeLen_lt_serialized {ms : List Month} {whole : CanonValue}
    (hkeys : ∀ m ∈ ms, ∀ p ∈ m.latestMembers, nfc N p.1 = p.1)
    (hwhole : CanonValue.object N (concatMembers ms) = .ok whole) :
    wholeLen N ms < (writeCanonical N whole).bytes.length := by
  obtain ⟨-, rfl⟩ := object_eq_ok_iff.mp hwhole
  have hfixed : ∀ p ∈ concatMembers ms, nfc N p.1 = p.1 := by
    intro p hp
    rcases key_of_mem_concatMembers hp with ⟨m, hm, hmem⟩ | hhist
    · exact hkeys m hm p hmem
    · exact nfc_of_isHistoryMember N hhist
  have hsame : (concatMembers ms).map (nfcMember N) = concatMembers ms := by
    conv_rhs => rw [← List.map_id (concatMembers ms)]
    exact List.map_congr_left fun p hp => Prod.ext (hfixed p hp) rfl
  rw [hsame]
  have hle := wholeLen_le_membersLen N ms
  have hlt := membersLen_le N hfixed
  omega

/-- The counting of a run over segments is exact: the cap is passed when the counted bytes of the
concatenation are over it after some month, and where it is not, they are what was counted. They
are less than the written bytes, so a history whose concatenation fits when it is written, after
every month, is held. -/
theorem ChainState.counting_exact (cap : Option Nat) (N : Normalizer) (ms : List Month)
    (hseg : ∀ m ∈ ms, (m.report.get "segment").isSome)
    (hkeys : ∀ m ∈ ms, ∀ p ∈ m.latestMembers, nfc N p.1 = p.1) :
    (((fresh cap).absorbAll N ms).overCap = true ↔
        ∃ p, p <+: ms ∧ p ≠ [] ∧ cap.getD maxBundleBytes < wholeLen N p) ∧
      (((fresh cap).absorbAll N ms).overCap = false →
        ((fresh cap).absorbAll N ms).historyBytes +
          ((fresh cap).absorbAll N ms).latestExtraBytes = wholeLen N ms) ∧
      ((∀ p, p <+: ms → p ≠ [] → ∃ whole, CanonValue.object N (concatMembers p) = .ok whole ∧
          (writeCanonical N whole).bytes.length ≤ cap.getD maxBundleBytes) →
        ((fresh cap).absorbAll N ms).overCap = false) := by
  have hover := overCap_absorbAll_iff (N := N) cap hseg
  refine ⟨?_, fun hnot => ?_, fun hwritten => ?_⟩
  · rw [hover, Fits]
    simp only [not_forall, not_le, exists_prop]
  · have hfits : Fits N (cap.getD maxBundleBytes) ms := by
      by_contra hno
      rw [hover.mpr hno] at hnot
      cases hnot
    rw [((absorbAll_held cap hseg).1 hfits).historyBytes, (latest_absorbAll cap hseg).extraBytes]
    rfl
  · rw [← Bool.not_eq_true, hover, not_not]
    intro p hp hne
    obtain ⟨whole, hwhole, hle⟩ := hwritten p hp hne
    have hlt := wholeLen_lt_serialized (fun m hm => hkeys m (hp.subset hm)) hwhole
    omega

/-- A month with one record, and a report that only says it is a segment. -/
def nullMonth : Month :=
  ⟨.obj [("project_id", .str "p"), ("records", .arr [.null])], .obj [("segment", .obj [])]⟩

/-- Two months with a record each pass a cap of twenty-three bytes, and count twenty-four. -/
theorem ChainState.counting_exact_two :
    ((fresh (some 23)).absorbAll .identity [nullMonth, nullMonth]).overCap = true ∧
      ((fresh (some 24)).absorbAll .identity [nullMonth, nullMonth]).historyBytes +
        ((fresh (some 24)).absorbAll .identity [nullMonth, nullMonth]).latestExtraBytes = 24 := by
  have hseg : ∀ m ∈ [nullMonth, nullMonth], (m.report.get "segment").isSome := by
    simp [nullMonth, CanonValue.get, CanonValue.member]
  have hkeys : ∀ m ∈ [nullMonth, nullMonth], ∀ p ∈ m.latestMembers, nfc .identity p.1 = p.1 := by
    simp [nfc_identity]
  have hlen : wholeLen .identity [nullMonth, nullMonth] = 24 := by decide +kernel
  constructor
  · exact (counting_exact (some 23) .identity _ hseg hkeys).1.mpr
      ⟨_, List.prefix_rfl, by simp, by rw [hlen]; decide⟩
  · rw [← hlen]
    exact (counting_exact (some 24) .identity _ hseg hkeys).2.1 (by decide +kernel)

end Averin
