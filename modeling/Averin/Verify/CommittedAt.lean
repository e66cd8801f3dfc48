import Averin.Canon.Object
import Averin.Core.Dating
import Averin.Verify.CanonicalTs

/-!
# Dating checkpoints by anchors

An anchor commits its checkpoint and every earlier one that the checkpoint chains to. So a
checkpoint is dated by the earliest anchor from which it is reached along the hashes of the
predecessors, whoever signed the checkpoints between.
-/

namespace Averin

open Std (TreeMap)

/-- What is found of a checkpoint beforehand. -/
structure CpPre where
  /-- The seal verifies under a key. -/
  isSealed : Bool
  /-- The time of its anchor, if it has one that is honored. -/
  honoredAnchorTs : Option String

variable (checkpoints : List (CanonValue × CpPre))

/-- The first sealed checkpoint of every hash. -/
def sealedByHash : List (CanonValue × CpPre) → (i : Nat) → TreeMap String Nat → TreeMap String Nat
  | [], _, byHash => byHash
  | (cp, pre) :: rest, i, byHash =>
    sealedByHash rest (i + 1)
      (if pre.isSealed then (strOf cp "checkpoint_hash").elim byHash (byHash.insertIfNew · i)
      else byHash)

/-- The honored anchors with a canonical time, the earliest first. -/
def datedAnchors : List (String × Nat) :=
  ((checkpoints.zipIdx.filterMap fun c => c.1.2.honoredAnchorTs.map (·, c.2)).filter
    (isCanonicalTs ·.1)).insertionSort (toLex · ≤ toLex ·)

/-- The position of the predecessor. -/
def prevPosition (byHash : TreeMap String Nat) (k : Nat) : Option Nat :=
  checkpoints[k]?.bind fun c => (strOf c.1 "prev_checkpoint_hash").bind (byHash[·]?)

/-- The time at which each checkpoint was committed; none if a walk is not over after `fuel`
steps. -/
def cpCommittedAt (fuel : Nat) : Option (Nat → Option String) :=
  walkDates (prevPosition checkpoints (sealedByHash checkpoints 0 ∅)) fuel
    (datedAnchors checkpoints) fun _ => none

/-- The first sealed checkpoint with a hash. -/
def FirstSealed (h : String) (k : Nat) : Prop :=
  (∃ c, checkpoints[k]? = some c ∧ c.2.isSealed = true ∧ strOf c.1 "checkpoint_hash" = some h) ∧
    ∀ i < k, ∀ c, checkpoints[i]? = some c → c.2.isSealed = true →
      strOf c.1 "checkpoint_hash" ≠ some h

/-- The step from a checkpoint to its predecessor. -/
def PrevLink (j k : Nat) : Prop :=
  ∃ c h, checkpoints[j]? = some c ∧ strOf c.1 "prev_checkpoint_hash" = some h ∧
    FirstSealed checkpoints h k

/-- The times of the anchors that commit a checkpoint. -/
def AnchorTimes (k : Nat) : Set String :=
  { t | ∃ j c, checkpoints[j]? = some c ∧ c.2.honoredAnchorTs = some t ∧ isCanonicalTs t = true ∧
    Relation.ReflTransGen (PrevLink checkpoints) j k }

variable {checkpoints}

/-- The first of a list with a hash: its head, or the first of the rest. -/
theorem firstSealed_cons {c : CanonValue × CpPre} {h : String} {k : Nat} :
    FirstSealed (c :: checkpoints) h k ↔
      if c.2.isSealed = true ∧ strOf c.1 "checkpoint_hash" = some h then k = 0
      else ∃ k', k = k' + 1 ∧ FirstSealed checkpoints h k' := by
  split_ifs with hc
  · constructor
    · rintro ⟨-, hfirst⟩
      by_contra hk
      exact hfirst 0 (Nat.pos_of_ne_zero hk) c rfl hc.1 hc.2
    · rintro rfl
      exact ⟨⟨c, rfl, hc⟩, by simp⟩
  · constructor
    · rintro ⟨⟨d, hd, hds⟩, hfirst⟩
      cases k with
      | zero =>
        obtain rfl := Option.some.inj hd
        exact absurd hds hc
      | succ k' =>
        exact ⟨k', rfl, ⟨d, hd, hds⟩, fun i hi d hd' => hfirst (i + 1) (by omega) d hd'⟩
    · rintro ⟨k', rfl, ⟨d, hd, hds⟩, hfirst⟩
      refine ⟨⟨d, hd, hds⟩, fun i hi e he hes heh => ?_⟩
      cases i with
      | zero =>
        obtain rfl := Option.some.inj he
        exact hc ⟨hes, heh⟩
      | succ i => exact hfirst i (by omega) e he hes heh

/-- What one checkpoint does to the index. -/
theorem getElem?_sealedStep {c : CanonValue × CpPre} {i : Nat} {byHash : TreeMap String Nat}
    {h : String} :
    (if c.2.isSealed then (strOf c.1 "checkpoint_hash").elim byHash (byHash.insertIfNew · i)
      else byHash)[h]? =
      if c.2.isSealed = true ∧ strOf c.1 "checkpoint_hash" = some h then byHash[h]?.or (some i)
      else byHash[h]? := by
  cases hs : c.2.isSealed with
  | false => simp
  | true =>
    cases hh : strOf c.1 "checkpoint_hash" with
    | none => simp
    | some h' =>
      simp only [if_true, Option.elim_some, TreeMap.getElem?_insertIfNew, Std.compare_eq_iff_eq,
        Option.some.injEq, true_and]
      by_cases heq : h' = h
      · subst heq
        cases hm : byHash[h']? with
        | none =>
          have hnot : h' ∉ byHash := by simpa using hm
          simp [hnot]
        | some j =>
          have hin : h' ∈ byHash := by
            rw [← TreeMap.isSome_getElem?_iff_mem, hm]
            rfl
          simp [hin]
      · simp [heq]

/-- The index holds the first sealed checkpoint of every hash. -/
theorem getElem?_sealedByHash {i : Nat} {byHash : TreeMap String Nat} {h : String} {k : Nat} :
    (sealedByHash checkpoints i byHash)[h]? = some k ↔
      byHash[h]? = some k ∨
        byHash[h]? = none ∧ ∃ k', k = i + k' ∧ FirstSealed checkpoints h k' := by
  induction checkpoints generalizing i byHash with
  | nil => simp [sealedByHash, FirstSealed]
  | cons c rest ih =>
    rw [sealedByHash, ih, getElem?_sealedStep]
    simp only [firstSealed_cons]
    split_ifs with hc
    · cases byHash[h]? with
      | none => simp [eq_comm]
      | some j => simp
    · refine or_congr_right (and_congr_right fun _ => ?_)
      constructor
      · rintro ⟨k', rfl, hk'⟩
        exact ⟨k' + 1, by omega, k', rfl, hk'⟩
      · rintro ⟨_, rfl, k', rfl, hk'⟩
        exact ⟨k', by omega, hk'⟩

/-- The position before is that of the checkpoint linked to. -/
theorem prevPosition_eq_some_iff {j k : Nat} :
    prevPosition checkpoints (sealedByHash checkpoints 0 ∅) j = some k ↔
      PrevLink checkpoints j k := by
  simp only [prevPosition, Option.bind_eq_some_iff, getElem?_sealedByHash, PrevLink]
  constructor
  · rintro ⟨c, hc, h, hh, hk | ⟨-, k', rfl, hfirst⟩⟩
    · simp at hk
    · rw [Nat.zero_add]
      exact ⟨c, h, hc, hh, hfirst⟩
  · rintro ⟨c, h, hc, hh, hfirst⟩
    exact ⟨c, hc, h, hh, Or.inr ⟨by simp, k, by omega, hfirst⟩⟩

/-- A dated anchor is a checkpoint's honored one. -/
theorem mem_datedAnchors {t : String} {j : Nat} :
    (t, j) ∈ datedAnchors checkpoints ↔
      ∃ c, checkpoints[j]? = some c ∧ c.2.honoredAnchorTs = some t ∧ isCanonicalTs t = true := by
  rw [datedAnchors, (List.perm_insertionSort _ _).mem_iff, List.mem_filter, List.mem_filterMap]
  constructor
  · rintro ⟨⟨⟨c, i⟩, hci, hts⟩, hcanonical⟩
    obtain ⟨ts, hanchor, heq⟩ := Option.map_eq_some_iff.mp hts
    obtain ⟨rfl, rfl⟩ := Prod.mk.inj heq
    exact ⟨c, by simpa using List.mem_zipIdx_iff_getElem?.mp hci, hanchor, hcanonical⟩
  · rintro ⟨c, hc, hts, hcanonical⟩
    refine ⟨⟨(c, j), List.mem_zipIdx_iff_getElem?.mpr (by simpa using hc), ?_⟩, hcanonical⟩
    rw [hts]
    rfl

/-- The anchors are visited in ascending time. -/
theorem pairwise_datedAnchors : (datedAnchors checkpoints).Pairwise fun a b => a.1 ≤ b.1 := by
  have htrans : IsTrans (String × Nat) fun a b => toLex a ≤ toLex b := ⟨fun _ _ _ => le_trans⟩
  have htotal : Std.Total fun a b : String × Nat => toLex a ≤ toLex b :=
    ⟨fun _ _ => le_total _ _⟩
  refine (List.pairwise_insertionSort (fun a b : String × Nat => toLex a ≤ toLex b) _).imp ?_
  intro a b hab
  rcases Prod.Lex.le_iff.mp hab with hlt | ⟨heq, -⟩
  · exact hlt.le
  · exact heq.le

/-- The dates that the walks leave behind. -/
theorem committedAt_of_walks (checkpoints : List (CanonValue × CpPre)) (n : Nat) :
    ∃ committedAt, cpCommittedAt checkpoints (checkpoints.length + 1 + n) = some committedAt ∧
      ∀ k, (∀ t, committedAt k = some t ↔ IsLeast (AnchorTimes checkpoints k) t) ∧
        (committedAt k = none ↔ AnchorTimes checkpoints k = ∅) := by
  classical
  have hnodes : ∀ a ∈ List.range checkpoints.length, ∀ b,
      prevPosition checkpoints (sealedByHash checkpoints 0 ∅) a = some b →
        b ∈ List.range checkpoints.length := by
    intro a _ b hab
    obtain ⟨c, h, -, -, ⟨d, hd, -⟩, -⟩ := prevPosition_eq_some_iff.mp hab
    exact List.mem_range.mpr (List.getElem?_eq_some_iff.mp hd).1
  have hdates : ∀ e ∈ datedAnchors checkpoints, e.2 ∈ List.range checkpoints.length := by
    intro e he
    obtain ⟨c, hc, -⟩ := mem_datedAnchors.mp he
    exact List.mem_range.mpr (List.getElem?_eq_some_iff.mp hc).1
  have hrel : Follow (prevPosition checkpoints (sealedByHash checkpoints 0 ∅)) =
      Relation.ReflTransGen (PrevLink checkpoints) := by
    funext a b
    have hstep : (fun a b => prevPosition checkpoints (sealedByHash checkpoints 0 ∅) a = some b) =
        PrevLink checkpoints := by
      funext a b
      exact propext prevPosition_eq_some_iff
    rw [Follow, hstep]
  refine ⟨_, walkDates_eq hnodes (by rw [List.length_range]; omega) hdates
    (fun a b _ ha => by cases ha), fun k => ?_⟩
  have hset : { t | ∃ j, (t, j) ∈ datedAnchors checkpoints ∧
      Follow (prevPosition checkpoints (sealedByHash checkpoints 0 ∅)) j k } =
      AnchorTimes checkpoints k := by
    ext t
    simp only [mem_datedAnchors, hrel, AnchorTimes, Set.mem_ofPred_eq]
    constructor
    · rintro ⟨j, ⟨c, hc, hts, hcanonical⟩, hreach⟩
      exact ⟨j, c, hc, hts, hcanonical, hreach⟩
    · rintro ⟨j, c, hc, hts, hcanonical, hreach⟩
      exact ⟨j, ⟨c, hc, hts, hcanonical⟩, hreach⟩
  constructor
  · intro t
    rw [Option.none_or, ← hset]
    exact isLeast_of_find? pairwise_datedAnchors fun j =>
      Follow (prevPosition checkpoints (sealedByHash checkpoints 0 ∅)) j k
  · rw [Option.none_or, Option.map_eq_none_iff, List.find?_eq_none, ← hset,
      Set.eq_empty_iff_forall_notMem]
    constructor
    · rintro hno t ⟨j, hj, hreach⟩
      exact hno (t, j) hj (by simpa using hreach)
    · intro hempty e he hreach
      exact hempty e.1 ⟨e.2, he, by simpa using hreach⟩

/-- Every checkpoint is dated by the earliest anchor that commits it, and by none if there is
none. The walks are over after at most one step for each checkpoint, whatever their links are. -/
theorem cpCommittedAt_eq (checkpoints : List (CanonValue × CpPre)) (n : Nat) :
    ∃ committedAt, cpCommittedAt checkpoints (checkpoints.length + 1 + n) = some committedAt ∧
      ∀ k, (∀ t, committedAt k = some t ↔ IsLeast (AnchorTimes checkpoints k) t) ∧
        (committedAt k = none ↔ AnchorTimes checkpoints k = ∅) :=
  committedAt_of_walks checkpoints n

/-- A checkpoint of a key that changed its status counts if it was committed before. -/
def predates (committedAt changedAt : Option String) : Bool :=
  changedAt.any fun c => isCanonicalTs c && committedAt.any (· ≤ c)

/-- A checkpoint passes the gate exactly if some honored anchor commits it before the change. -/
theorem predates_iff {committedAt : Nat → Option String} {n k : Nat} {changedAt : String}
    (h : cpCommittedAt checkpoints (checkpoints.length + 1 + n) = some committedAt) :
    predates (committedAt k) (some changedAt) = true ↔
      isCanonicalTs changedAt = true ∧ ∃ t ∈ AnchorTimes checkpoints k, t ≤ changedAt := by
  obtain ⟨committedAt', h', hspec⟩ := committedAt_of_walks checkpoints n
  obtain rfl := Option.some.inj (h.symm.trans h')
  obtain ⟨hsome, hnone⟩ := hspec k
  rw [predates, Option.any_some, Bool.and_eq_true]
  refine and_congr_right fun _ => ?_
  cases hd : committedAt k with
  | none =>
    rw [hnone.mp hd]
    simp
  | some t =>
    obtain ⟨hmem, hle⟩ := (hsome t).mp hd
    simp only [Option.any_some, decide_eq_true_eq]
    constructor
    · exact fun ht => ⟨t, hmem, ht⟩
    · rintro ⟨t', ht', hle'⟩
      exact (hle ht').trans hle'

end Averin
