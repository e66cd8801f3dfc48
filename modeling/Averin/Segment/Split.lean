import Averin.Canon.Object
import Averin.Segment.Chain
import Averin.Verify.GrantLog

/-!
# Splitting a history into months

The checkpoints of a whole history are put in sequence order and grouped by the month they are
dated in. Each month gets the records that its last checkpoint commits and the last one of the
month before does not, and starts with that earlier checkpoint as its base.
-/

namespace Averin

open Std (TreeMap)

/-- The reasons a history is not split. The keys of a built object are normalized, and one
that repeats is named. -/
inductive SplitError where
  | noCheckpoints
  | recordWithoutContentHash
  | checkpointWithoutCreatedTs
  | createdTsTooShort
  | monthsGoBackwards (month prev : String)
  | emptyMonthGroup
  | checkpointWithoutRecordCount
  | recordCountMismatch (seq expect : Int) (committed : Nat)
  | baseWithoutSeq
  | baseWithoutHash
  | baseWithoutRecordCount
  | bundleNotObject
  | duplicateKey (key : String)
  | uncommitted (records committed : Nat)
  deriving DecidableEq, Repr

/-- The members of a bundle that are history, or belong to one month, rather than keys and the
like. -/
def isHistoryMember (k : String) : Bool :=
  ["records", "checkpoints", "segment", "revocation_list", "deployment_attestation",
    "filtered_records", "disclosures"].contains k

/-- The format of a segment. -/
def segmentFormat : String := "averin.segment.v1"

/-- The two documents that bind the latest head. -/
def headBoundKeys : List String := ["revocation_list", "deployment_attestation"]

/-- The first position of every content hash. -/
def indexFirst : List CanonValue → (i : Nat) → TreeMap String Nat →
    Except SplitError (TreeMap String Nat)
  | [], _, byHash => .ok byHash
  | rec :: rest, i, byHash => do
    let h ← orFail (strOf rec "content_hash") .recordWithoutContentHash
    indexFirst rest (i + 1) (byHash.insertIfNew h i)

/-- The first `n` bytes of a text, if they are whole characters. -/
def bytePrefix : List Char → (n : Nat) → Option (List Char)
  | [], n => if n = 0 then some [] else none
  | c :: cs, n =>
    if n = 0 then some []
    else if c.utf8Size ≤ n then (bytePrefix cs (n - c.utf8Size)).map (c :: ·)
    else none

/-- The month a checkpoint is dated in. -/
def createdMonth (cp : CanonValue) : Except SplitError String := do
  let ts ← orFail (strOf cp "created_ts") .checkpointWithoutCreatedTs
  let month ← orFail (bytePrefix ts.toList 7) .createdTsTooShort
  return String.ofList month

/-- Put a checkpoint into the last month, or into a new one after it. -/
def addToMonth (groups : List (String × List CanonValue)) (month : String) (cp : CanonValue) :
    Except SplitError (List (String × List CanonValue)) :=
  match groups.getLast? with
  | some (last, group) =>
    if last = month then .ok (groups.dropLast ++ [(last, group ++ [cp])])
    else if month < last then .error (.monthsGoBackwards month last)
    else .ok (groups ++ [(month, [cp])])
  | none => .ok [(month, [cp])]

/-- Group checkpoints by month. -/
def groupByMonth : List CanonValue → List (String × List CanonValue) →
    Except SplitError (List (String × List CanonValue))
  | [], groups => .ok groups
  | cp :: rest, groups => do
    let month ← createdMonth cp
    let groups ← addToMonth groups month cp
    groupByMonth rest groups

/-- The sort key; a checkpoint without a number sorts first. -/
def seqOf (cp : CanonValue) : WithBot Int := checkpointSeq cp

/-- The frontier of a checkpoint and every ancestor. -/
def closure (records : List CanonValue) (byHash : TreeMap String Nat) (cp : CanonValue) :
    List String :=
  committedSet records byHash ((arrayOf cp "frontier").filterMap CanonValue.asStr)

/-- The records committed by `committed` and not before. -/
def monthRecords (records : List CanonValue) (committed prevClosure : List String) :
    List CanonValue :=
  records.filter fun rec =>
    (strOf rec "content_hash").any fun h => committed.contains h && !prevClosure.contains h

/-- The number, hash and count that a segment states of its base. -/
def baseFields (N : Normalizer) :
    Option CanonValue → Except SplitError (CanonValue × CanonValue × Int)
  | none => .ok (.null, .null, 0)
  | some b => do
    let seq ← orFail (checkpointSeq b) .baseWithoutSeq
    let hash ← orFail (strOf b "checkpoint_hash") .baseWithoutHash
    let count ← orFail (recordCount b) .baseWithoutRecordCount
    return (.int (.ofInt seq), .str (nfc N hash), count)

/-- The disclosures of the records that are carried. -/
def monthDisclosures (bundle : CanonValue) (mine : List CanonValue) : List CanonValue :=
  let mineHashes := mine.filterMap (strOf · "content_hash")
  (arrayOf bundle "disclosures").filter fun d =>
    (strOf d "record_id").any fun id => mine.any fun rec =>
      strOf rec "record_id" == some id && (strOf rec "content_hash").any mineHashes.contains

/-- The members of the segment of one month. -/
def segmentMembers (bundle : CanonValue) (members : List (String × CanonValue))
    (mine checkpoints : List CanonValue) (isLast : Bool) (block : CanonValue) :
    List (String × CanonValue) :=
  members.filter (fun m => !isHistoryMember m.1) ++
    (if isLast then headBoundKeys.filterMap fun k => (bundle.get k).map (k, ·) else []) ++
    [("records", .arr mine), ("checkpoints", .arr checkpoints)] ++
    (if (bundle.get "disclosures").isSome then
      [("disclosures", .arr (monthDisclosures bundle mine))] else []) ++
    [("segment", block)]

/-- The bundle of one month. -/
def segmentBundle (N : Normalizer) (bundle : CanonValue) (month : String)
    (base : Option CanonValue) (group mine : List CanonValue) (isLast : Bool) :
    Except SplitError CanonValue := do
  let (baseSeq, baseHash, baseCount) ← baseFields N base
  let members ← orFail bundle.asObject .bundleNotObject
  let block ← (CanonValue.object N [("format", .str segmentFormat), ("month", .str (nfc N month)),
    ("base_seq", baseSeq), ("base_checkpoint_hash", baseHash),
    ("base_record_count", .int (.ofInt baseCount))]).mapError .duplicateKey
  (CanonValue.object N (segmentMembers bundle members mine (base.toList ++ group) isLast
    block)).mapError .duplicateKey

/-- One segment a month, and the number of hashes the last checkpoint commits. -/
def splitMonths (N : Normalizer) (bundle : CanonValue) (records : List CanonValue)
    (byHash : TreeMap String Nat) : List (String × List CanonValue) → (prevClosure : List String) →
    (base : Option CanonValue) → (total : Nat) →
    Except SplitError (List (String × CanonValue) × Nat)
  | [], _, _, total => .ok ([], total)
  | (month, group) :: rest, prevClosure, base, _ => do
    let last ← orFail group.getLast? .emptyMonthGroup
    let committed := closure records byHash last
    let mine := monthRecords records committed prevClosure
    let expect ← orFail (recordCount last) .checkpointWithoutRecordCount
    require ((committed.length : Int) = expect)
      (.recordCountMismatch ((checkpointSeq last).getD (-1)) expect committed.length)
    let segment ← segmentBundle N bundle month base group mine rest.isEmpty
    let (out, total) ← splitMonths N bundle records byHash rest committed (some last)
      committed.length
    return ((month, segment) :: out, total)

/-- Split a whole-history bundle into one segment a month, oldest first. -/
def splitBundle (N : Normalizer) (bundle : CanonValue) :
    Except SplitError (List (String × CanonValue)) := do
  let records := arrayOf bundle "records"
  let cps := arrayOf bundle "checkpoints"
  require (cps ≠ []) .noCheckpoints
  let cps := cps.insertionSort fun a b => seqOf a ≤ seqOf b
  let byHash ← indexFirst records 0 ∅
  let groups ← groupByMonth cps []
  let (out, total) ← splitMonths N bundle records byHash groups [] none 0
  require (total = records.length) (.uncommitted records.length total)
  return out

end Averin
