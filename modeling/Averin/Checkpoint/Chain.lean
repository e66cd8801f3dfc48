import Averin.Core.Outcome
import Averin.Dag.Graph

/-!
# The checkpoint chain

Checkpoints are put in sequence order and checked against their neighbours and against the
record DAG. The checks run in the program's order, so the first failure is the one it
reports.
-/

namespace Averin

open Std (TreeMap TreeSet)

/-- Why a chain of checkpoints is refused. -/
inductive CheckpointError where
  | missingField (key : String)
  | fieldType (key : String)
  | badFrontierHash (hash : String)
  | firstSeqNotZero (seq : Int)
  | firstPrevNotNull
  | seqGap (prev next : Int)
  | forkDetected (seq : Int)
  | prevHashMismatch (seq : Int) (expected found : String)
  | recordCountDecreased (seq : Int) (fromCount toCount : Int)
  | frontierMemberMissing (seq : Int) (hash : String)
  | forkSharedPrev (prev : String)
  | latestFrontierMismatch (seq : Int) (stated actualHeads : Nat)
  | recordCountMismatch (seq : Int) (stated : Int) (actual : Nat)
  deriving DecidableEq, Repr

/-- A text member of a checkpoint. -/
def strField (o : CanonValue) (k : String) : Except CheckpointError String := do
  let v ← orFail (o.get k) (.missingField k)
  orFail v.asStr (.fieldType k)

/-- A whole number of a checkpoint. -/
def intField (o : CanonValue) (k : String) : Except CheckpointError Int := do
  let v ← orFail (o.get k) (.missingField k)
  orFail v.asInt (.fieldType k)

/-- The sort key; a checkpoint without a sequence number sorts first. -/
def seqKey (c : CanonValue) : Int := ((c.get "checkpoint_seq").bind CanonValue.asInt).getD (-2 ^ 63)

/-- The first checkpoint has number zero and no predecessor. -/
def checkFirst (first : CanonValue) : Except CheckpointError Unit := do
  let seq ← intField first "checkpoint_seq"
  require (seq = 0) (.firstSeqNotZero seq)
  require ((first.get "prev_checkpoint_hash").any CanonValue.isNull) .firstPrevNotNull

/-- Neighbours in sequence order: copies of one checkpoint, or successors. The number
`sa + 1` stays in range, since `sb` is larger. -/
def checkNeighbours (a b : CanonValue) : Except CheckpointError Unit := do
  let sa ← intField a "checkpoint_seq"
  let sb ← intField b "checkpoint_seq"
  if sa = sb then
    let ha ← strField a "checkpoint_hash"
    let hb ← strField b "checkpoint_hash"
    require (ha = hb) (.forkDetected sa)
  else
    require (sb = sa + 1) (.seqGap sa sb)
    let prevRef ← orFail ((b.get "prev_checkpoint_hash").bind CanonValue.asStr)
      (.missingField "prev_checkpoint_hash")
    let prevHash ← strField a "checkpoint_hash"
    require (prevRef = prevHash) (.prevHashMismatch sb prevHash prevRef)
    let ca ← intField a "record_count"
    let cb ← intField b "record_count"
    require (ca ≤ cb) (.recordCountDecreased sb ca cb)

/-- Each checkpoint against the one after it. -/
def checkWindows : List CanonValue → Except CheckpointError Unit
  | a :: b :: rest => do
    checkNeighbours a b
    checkWindows (b :: rest)
  | _ => .ok ()

/-- A committed head is a digest of a present record. -/
def checkFrontierMember (dag : Dag) (seq : Int) (fh : CanonValue) :
    Except CheckpointError Unit := do
  let h ← orFail fh.asStr (.fieldType "frontier")
  require ((parseSha256 h).isSome = true) (.badFrontierHash h)
  require (h ∈ dag.byHash) (.frontierMemberMissing seq h)

/-- Every frontier hash is a record of the graph. -/
def checkFrontier (dag : Dag) (cp : CanonValue) : Except CheckpointError Unit := do
  let seq ← intField cp "checkpoint_seq"
  let v ← orFail (cp.get "frontier") (.missingField "frontier")
  let frontier ← orFail v.asArray (.fieldType "frontier")
  frontier.forM (checkFrontierMember dag seq)

/-- Two different checkpoints may not name one predecessor. -/
def checkSharedPrev : List CanonValue → TreeMap String String → Except CheckpointError Unit
  | [], _ => .ok ()
  | cp :: rest, byPrev =>
    match (cp.get "prev_checkpoint_hash").bind CanonValue.asStr with
    | none => checkSharedPrev rest byPrev
    | some prev => do
      let this ← strField cp "checkpoint_hash"
      require (∀ other ∈ byPrev[prev]?, other = this) (.forkSharedPrev prev)
      checkSharedPrev rest (byPrev.insert prev this)

/-- The latest checkpoint summarizes the whole record set. -/
def checkLatest (dag : Dag) (latest : CanonValue) : Except CheckpointError Unit := do
  let seq ← intField latest "checkpoint_seq"
  let items ← orFail ((latest.get "frontier").bind CanonValue.asArray) (.fieldType "frontier")
  let frontier := TreeSet.ofList (items.filterMap CanonValue.asStr)
  let heads := TreeSet.ofList dag.heads
  require (frontier.toList = heads.toList)
    (.latestFrontierMismatch seq frontier.size heads.size)
  let stated ← intField latest "record_count"
  require (stated = dag.byHash.size) (.recordCountMismatch seq stated dag.byHash.size)

/-- Validate the chain structure of checkpoints that verified on their own, and return them
in sequence order. -/
def validateChain (checkpoints : List CanonValue) (dag : Dag) :
    Except CheckpointError (List CanonValue) := do
  let ordered := checkpoints.insertionSort fun a b => seqKey a ≤ seqKey b
  ordered.head?.forM checkFirst
  checkWindows ordered
  ordered.forM (checkFrontier dag)
  checkSharedPrev ordered ∅
  ordered.getLast?.forM (checkLatest dag)
  return ordered

end Averin
