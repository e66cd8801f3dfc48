import Averin.Checkpoint.Coverage

/-!
# The chain of a month segment

A segment carries the records of one month on top of a base checkpoint, the last one of the
month before. Its chain starts at the base instead of at number zero; frontiers may name
members of the base frontier, and the latest checkpoint counts the records before the base as
well.
-/

namespace Averin

open Std (TreeMap TreeSet)

/-- What the chain rules need of the base checkpoint. -/
structure SegmentBase where
  seq : Int
  hash : String
  /-- The records of all earlier segments. -/
  recordCount : Int

/-- Why the checkpoints of a segment are refused. -/
inductive SegmentChainError where
  | chain (e : CheckpointError)
  | baseMismatch (statedSeq foundSeq : Int)
  | segmentEmpty (baseSeq : Int)
  | baseFrontierCarried (hash : String)
  deriving DecidableEq, Repr

/-- The chain begins with the base that is stated. -/
def checkBase (base : SegmentBase) (first : CanonValue) : Except SegmentChainError Unit := do
  let seq ← (intField first "checkpoint_seq").mapError .chain
  require (seq = base.seq) (.baseMismatch base.seq seq)
  let hash ← (strField first "checkpoint_hash").mapError .chain
  require (hash = base.hash) (.baseMismatch base.seq seq)

/-- No record is carried that the base frontier commits. -/
def checkBaseFrontier (dag : Dag) (first : CanonValue) : Except SegmentChainError Unit :=
  ((((first.get "frontier").bind CanonValue.asArray).getD []).filterMap CanonValue.asStr).forM
    fun fh => require (fh ∉ dag.byHash) (.baseFrontierCarried fh)

/-- A committed head is a digest, and after the base one of a carried record or of the base
frontier. -/
def checkSegmentMember (dag : Dag) (base : SegmentBase) (seq : Int) (fh : CanonValue) :
    Except CheckpointError Unit := do
  let h ← orFail fh.asStr (.fieldType "frontier")
  require ((parseSha256 h).isSome = true) (.badFrontierHash h)
  require (seq = base.seq ∨ h ∈ dag.byHash ∨ h ∈ dag.externalFrontier)
    (.frontierMemberMissing seq h)

/-- Every frontier hash is a record or stands in the base. -/
def checkSegmentFrontier (dag : Dag) (base : SegmentBase) (cp : CanonValue) :
    Except CheckpointError Unit := do
  let seq ← intField cp "checkpoint_seq"
  let v ← orFail (cp.get "frontier") (.missingField "frontier")
  let frontier ← orFail v.asArray (.fieldType "frontier")
  frontier.forM (checkSegmentMember dag base seq)

/-- `i64::try_from` and `checked_add`. -/
def addChecked (n : Nat) (m : Int) : Option Int :=
  if (n : Int) < 2 ^ 63 ∧ -2 ^ 63 ≤ n + m ∧ n + m < 2 ^ 63 then some (n + m) else none

/-- The latest checkpoint summarizes the base and the records that are carried. -/
def checkSegmentLatest (dag : Dag) (base : SegmentBase) (latest : CanonValue) :
    Except SegmentChainError Unit := do
  let seq ← (intField latest "checkpoint_seq").mapError .chain
  require (seq ≠ base.seq) (.segmentEmpty base.seq)
  let items ← orFail ((latest.get "frontier").bind CanonValue.asArray)
    (.chain (.fieldType "frontier"))
  let frontier := TreeSet.ofList (items.filterMap CanonValue.asStr)
  let heads := TreeSet.ofList dag.heads
  require (frontier.toList = heads.toList)
    (.chain (.latestFrontierMismatch seq frontier.size heads.size))
  let stated ← (intField latest "record_count").mapError .chain
  require (addChecked dag.byHash.size base.recordCount = some stated)
    (.chain (.recordCountMismatch seq stated dag.byHash.size))

/-- Validate the chain of a segment; without a base it is a whole history. -/
def validateSegmentChain (checkpoints : List CanonValue) (dag : Dag) :
    Option SegmentBase → Except SegmentChainError Unit
  | none => (validateChain checkpoints dag).mapError .chain >>= fun _ => .ok ()
  | some base => do
    let ordered := checkpoints.insertionSort fun a b => seqKey a ≤ seqKey b
    let first ← orFail ordered.head? (.chain (.missingField "checkpoint_seq"))
    checkBase base first
    checkBaseFrontier dag first
    (checkWindows ordered).mapError .chain
    (ordered.forM (checkSegmentFrontier dag base)).mapError .chain
    (checkSharedPrev ordered ∅).mapError .chain
    let latest ← orFail ordered.getLast? (.chain (.missingField "checkpoint_seq"))
    checkSegmentLatest dag base latest

end Averin
