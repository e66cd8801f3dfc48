import Averin.Canon.Json
import Averin.Checkpoint.Seal
import Averin.Core.Heads
import Averin.Server.GrantLog
import Averin.Server.IncrementalRead
import Averin.Server.Sealing
import Averin.Store.Records

/-!
# Cutting a checkpoint

A checkpoint states the heads of a project, how many records it holds and the root of its grant log.
The full cut computes them from the whole project; the incremental cut continues from what the
latest checkpoint states, with the records that came after it. Either one refuses when the numbers
of the grants have a gap.
-/

namespace Averin

/-- Why no body is cut. -/
inductive CutError where
  | ordinals (why : String)
  | count (counted after total : Int)
  | duplicateSeq (seq : Int)
  | foldedSeq (seq : Int)
  | gap (position seq : Int)
  | allocated (max recorded : Int)
  | priorHead
  | priorRoot
  | number
  deriving DecidableEq, Repr

/-- The log of grants is refused, where other errors only say that a cut could not be computed. -/
def CutError.refuses : CutError → Bool
  | .duplicateSeq _ | .foldedSeq _ | .gap _ _ | .allocated _ _ => true
  | _ => false

/-- One digit as `encoding/hex` reads it, of either case. -/
def hexDecodeDigit (c : UInt8) : Option UInt8 :=
  if hexValue c < 16 then some (.ofNat (hexValue c)) else none

/-- Two digits a byte. -/
def hexDecodeString : List UInt8 → Option (List UInt8)
  | [] => some []
  | hi :: lo :: rest => do
    let h ← hexDecodeDigit hi
    let l ← hexDecodeDigit lo
    let out ← hexDecodeString rest
    return (h <<< 4 ||| l) :: out
  | [_] => none

namespace Broker

variable (sha256 : List UInt8 → Vector UInt8 32)

/-- The largest number of a log, and of what came before it. -/
def maxSeqFrom (start : Int) (grants : List (Int × String)) : Int :=
  grants.foldl (fun m g => if g.1 > m then g.1 else m) start

/-- A head as a checkpoint states it. -/
def headBody (maxSeq : Int) (priorHeadHash cumulativeRoot : String) : Option CanonValue :=
  (jsonInt maxSeq).map fun n => .obj [("max_seq", n), ("prior_head_hash", .str priorHeadHash),
    ("cumulative_root", .str cumulativeRoot)]

/-- The head of a log of grants, after the head before it. -/
def brokerGrantHead (grants : List (Int × String)) (priorHeadHash : String) : Option CanonValue :=
  headBody (maxSeqFrom 0 grants) priorHeadHash (grantHeadRoot sha256 grants)

/-- The root of the empty log. -/
def emptyGrantHeadRoot : String := grantHeadRoot sha256 []

/-- Continue from a root. -/
def grantHeadRootFrom (priorRoot : String) (grants : List (Int × String)) : Option String := do
  let hexPart ← (bytes "sha256:").isPrefixOf? (bytes priorRoot)
  let acc ← hexDecodeString hexPart
  if acc.length ≠ 32 then none else return foldGrantHeadRoot sha256 acc grants

/-- The head of a log that continues the one with this root and this largest number. -/
def brokerGrantHeadFrom (priorRoot : String) (priorMaxSeq : Int) (after : List (Int × String)) :
    Except CutError CanonValue := do
  let root ← orFail (grantHeadRootFrom sha256 priorRoot after) .priorRoot
  orFail (headBody (maxSeqFrom priorMaxSeq after) priorRoot root) .number

end Broker

/-- The log is numbered from one without a gap, and no other number was drawn. -/
def checkGaplessGrantLog (gl : List (Int × String)) (maxAllocated : Int) :
    Except CutError Unit := do
  (neighbours gl).forM fun g => require (g.2.1 ≠ g.1.1) (.duplicateSeq g.2.1)
  gl.zipIdx.forM fun g => require (g.1.1 = (g.2 : Int) + 1) (.gap (g.2 + 1) g.1.1)
  require (maxAllocated = gl.length) (.allocated maxAllocated gl.length)

/-- The same of the grants after a head that covers the numbers up to `priorMax`. -/
def checkGaplessGrantLogAfter (gl : List (Int × String)) (priorMax maxAllocated : Int) :
    Except CutError Unit := do
  (neighbours gl).forM fun g => require (g.2.1 ≠ g.1.1) (.duplicateSeq g.2.1)
  gl.zipIdx.forM fun g => do
    require (¬ (1 ≤ g.1.1 ∧ g.1.1 ≤ priorMax)) (.foldedSeq g.1.1)
    require (g.1.1 = priorMax + g.2 + 1) (.gap (priorMax + g.2 + 1) g.1.1)
  require (maxAllocated = priorMax + gl.length) (.allocated maxAllocated (priorMax + gl.length))

/-- The records folded so far, and the hashes they name. -/
structure FrontierFold where
  hashes : List String := []
  referenced : Finset String := ∅

/-- Take in a record. -/
def FrontierFold.add (f : FrontierFold) (r : Record) : FrontierFold where
  hashes := f.hashes ++ [r.contentHash]
  referenced := f.referenced ∪ r.parents.toFinset

/-- The heads over the heads of what came before. -/
def FrontierFold.heads (f : FrontierFold) (base : List String) : List String :=
  sortedUnique (base.filter (· ∉ f.referenced) ++ f.hashes.filter (· ∉ f.referenced))

/-- The rows of a page. -/
def headsPageSize : Nat := 1000

namespace Project

variable (p : Project)

/-- The heads of the project. -/
def projectHeads : List String := headsOf p.records

/-- The number of the next checkpoint. -/
def nextCheckpointSeq : Int := p.checks.length

/-- The last checkpoint. -/
def latestCheckpoint : Option Checkpoint := p.checks.getLast?

/-- The hash of the last checkpoint. -/
def latestCheckpointHash : Option String := p.latestCheckpoint.map (·.checkpointHash)

/-- The rows after an ordinal, each with its own. -/
def ordinalPage (after : Nat) : List (Int × Record) :=
  (p.recordsAfter after headsPageSize).zipIdx.map fun r => (wrapInt64 (after + r.2 + 1), r.1)

/-- The store in memory gives this page of its rows, up to the last one. -/
theorem recordsAfter_eq_ordinalPage {recs : RecordSlice} (hitems : recs.items = p.records)
    {after : Nat} (hle : after ≤ p.records.length) :
    recs.recordsAfter after headsPageSize = some (p.ordinalPage after) := by
  have hfits := recs.length_lt
  have hpage : (headsPageSize : Int) = 1000 := rfl
  unfold RecordSlice.recordsAfter ordinalPage Project.recordsAfter
  have hsize : ¬ (headsPageSize : Int) ≤ 0 := by omega
  have hafter : ¬ (after : Int) < 0 := by omega
  rw [hitems] at hfits
  simp only [hitems, if_neg hsize, if_neg hafter, Int.toNat_natCast]
  by_cases hend : (p.records.length : Int) ≤ after
  · rw [if_pos hend, List.drop_eq_nil_of_le (by omega), List.take_nil]
    rfl
  rw [if_neg hend, wrapInt64_of_fits (by omega)]
  split_ifs with hpast hbounds
  · rw [Int.toNat_natCast, List.take_length, List.take_of_length_le]
    rw [List.length_drop]
    unfold headsPageSize at *
    omega
  · exact absurd ⟨by omega, by omega, by omega⟩ hbounds
  · have hstop : ((after : Int) + headsPageSize).toNat = after + headsPageSize := by omega
    rw [hstop, List.drop_take, Nat.add_sub_cancel_left]
  · omega

theorem map_ordinalPage (after : Nat) :
    (p.ordinalPage after).map (·.2) = (p.records.drop after).take headsPageSize := by
  rw [ordinalPage, List.map_map]
  exact List.zipIdx_map_fst 0 _

/-- A page is full, unless it is the last one. -/
theorem length_ordinalPage (after : Nat) :
    (p.ordinalPage after).length = min headsPageSize (p.records.length - after) := by
  rw [← List.length_map (f := fun r : Int × Record => r.2), map_ordinalPage, List.length_take,
    List.length_drop]

end Project

/-- How far the records were read, and what is kept of them. -/
structure CutTail where
  after : Nat
  fold : FrontierFold := {}
  gl : List (Int × String) := []

/-- Take in a page. -/
def CutTail.addPage (t : CutTail) (page : List Record) : CutTail where
  after := t.after + page.length
  fold := page.foldl FrontierFold.add t.fold
  gl := t.gl ++ grantLog page

/-- Read to the end page by page. -/
def Project.cutTail (p : Project) (t : CutTail) : Except CutError CutTail :=
  let page := p.ordinalPage t.after
  match checkPageOrdinals page t.after with
  | .error why => .error (.ordinals why)
  | .ok () =>
    if page.length < headsPageSize then .ok (t.addPage (page.map (·.2)))
    else p.cutTail (t.addPage (page.map (·.2)))
termination_by p.records.length - t.after
decreasing_by
  have hpage : page.length = _ := p.length_ordinalPage t.after
  rw [CutTail.addPage, List.length_map]
  change p.records.length - (t.after + page.length) < _
  unfold headsPageSize at *
  omega

/-- An optional number of a decoded struct. -/
def decodeIntPtr : Option CanonValue → Option (Option Int)
  | none | some .null => some none
  | some (.int n) => some (some n.toInt)
  | _ => none

/-- What is read of a head. -/
structure HeadFields where
  maxSeq : Int
  cumulativeRoot : String
  deriving DecidableEq, Repr

/-- Read a head. -/
def decodeHead (v : Option CanonValue) : Option HeadFields := do
  let head := CanonValue.obj (← decodeObj v)
  return ⟨← decodeInt (head.get "max_seq"), ← decodeStr (head.get "cumulative_root")⟩

/-- The heads of the brokers of a federation. -/
def decodeHeads (v : Option CanonValue) : Option (List (String × HeadFields)) := do
  (← decodeObj v).mapM fun m => (decodeHead (some m.2)).map (m.1, ·)

/-- What an incremental cut continues from. -/
structure CutBase where
  seq : Int
  hash : String
  count : Nat
  frontier : List String
  maxSeq : Int
  root : String
  federated : Option HeadFields

/-- Read a checkpoint to continue from, if it states what is needed. -/
def parseCutBase (l : Checkpoint) (brokerId : String) : Option CutBase := do
  let recordCount ← decodeIntPtr (l.json.get "record_count")
  let frontier ← decodeStrs (l.json.get "frontier")
  let head ← decodeHead (l.json.get "broker_grant_head")
  let heads ← decodeHeads (l.json.get "broker_grant_heads")
  let recordCount ← recordCount
  let frontier ← frontier
  if recordCount < 0 ∨ head.cumulativeRoot = "" then none
  else
    let base : CutBase := ⟨l.seq, l.checkpointHash, recordCount.toNat, frontier, head.maxSeq,
      head.cumulativeRoot, none⟩
    if brokerId = "" then return base
    else
      let e ← heads.lookup brokerId
      if e.cumulativeRoot = "" ∨ e.maxSeq ≠ base.maxSeq then none
      else return { base with federated := some e }

/-- The root the next head continues from. A checkpoint without a head starts anew. -/
def priorGrantHeadRoot (sha256 : List UInt8 → Vector UInt8 32) (checks : List Checkpoint) :
    Option String :=
  match checks.getLast? with
  | none => some (Broker.emptyGrantHeadRoot sha256)
  | some cp => do
    let head := CanonValue.obj (← decodeObj (cp.json.get "broker_grant_head"))
    let root ← decodeStr (head.get "cumulative_root")
    return if root = "" then Broker.emptyGrantHeadRoot sha256 else root

/-- The same for the head of one broker of a federation. -/
def priorFedHeadRoot (sha256 : List UInt8 → Vector UInt8 32) (checks : List Checkpoint)
    (brokerId : String) : Option String :=
  match checks.getLast? with
  | none => some (Broker.emptyGrantHeadRoot sha256)
  | some cp => do
    let heads ← (← decodeObj (cp.json.get "broker_grant_heads")).mapM fun m => do
      let head := CanonValue.obj (← decodeObj (some m.2))
      return (m.1, ← decodeStr (head.get "cumulative_root"))
    match heads.lookup brokerId with
    | some root => return if root = "" then Broker.emptyGrantHeadRoot sha256 else root
    | none => return Broker.emptyGrantHeadRoot sha256

/-- A server that cuts: what it seals with, its project, and its name in a federation, which is
empty without one. -/
structure Cutter (ed : Ed25519) extends Recorder ed where
  projectId : String
  brokerId : String

namespace Cutter

variable {ed : Ed25519} (S : Cutter ed)

/-- The members both cuts state. -/
def checkpointBody (seq : Int) (prev : Option String) (heads : List String) (count : Int)
    (grantHead : CanonValue) (created : String) : Option CanonValue := do
  let seqNumber ← jsonInt seq
  let countNumber ← jsonInt count
  return .obj [
    ("schema_version", .str "2"),
    ("canon_version", .str "rcp-1"),
    ("domain", .str "flightrecorder.checkpoint.v2"),
    ("checkpoint_id", .str ("cp-" ++ S.projectId ++ "-" ++ toString seq)),
    ("project_id", .str S.projectId),
    ("checkpoint_seq", seqNumber),
    ("prev_checkpoint_hash", prev.elim .null .str),
    ("frontier", .arr (heads.map .str)),
    ("record_count", countNumber),
    ("broker_grant_head", grantHead),
    ("created_ts", .str created),
    ("key", S.keyBlock)]

/-- The body of the checkpoint of a project, from all of its records. -/
def cutBodyFull (p : Project) (created : String) : Except CutError CanonValue := do
  let gl := grantLog p.grantRecords
  checkGaplessGrantLog gl p.maxBrokerSeq
  let prior ← orFail (priorGrantHeadRoot S.sha256 p.checks) .priorHead
  let grantHead ← orFail (Broker.brokerGrantHead S.sha256 gl prior) .number
  let body ← orFail (S.checkpointBody p.nextCheckpointSeq p.latestCheckpointHash p.projectHeads
    p.recordCount grantHead created) .number
  if S.brokerId = "" then return body
  else
    let priorFed ← orFail (priorFedHeadRoot S.sha256 p.checks S.brokerId) .priorHead
    let entry ← orFail (Broker.brokerGrantHead S.sha256 gl priorFed) .number
    return body.withField "broker_grant_heads" (.obj [(S.brokerId, entry)])

/-- The same body from the latest checkpoint and the records after it. Without a checkpoint to
continue from there is none. -/
def cutBodyIncremental (p : Project) (created : String) : Except CutError (Option CanonValue) :=
  match p.latestCheckpoint.bind (parseCutBase · S.brokerId) with
  | none => .ok none
  | some base =>
    if p.nextCheckpointSeq ≠ base.seq + 1 then .ok none
    else do
      let tail ← p.cutTail { after := base.count }
      require ((p.recordCount : Int) = tail.after)
        (.count base.count (tail.after - base.count) p.recordCount)
      let gl := tail.gl.insertionSort (·.1 ≤ ·.1)
      checkGaplessGrantLogAfter gl base.maxSeq p.maxBrokerSeq
      let grantHead ← Broker.brokerGrantHeadFrom S.sha256 base.root base.maxSeq gl
      let body ← orFail (S.checkpointBody (base.seq + 1) (some base.hash)
        (tail.fold.heads base.frontier) tail.after grantHead created) .number
      match base.federated with
      | none => return some body
      | some fed =>
        let entry ← Broker.brokerGrantHeadFrom S.sha256 fed.cumulativeRoot fed.maxSeq gl
        return some (body.withField "broker_grant_heads" (.obj [(S.brokerId, entry)]))

/-- Seal a body and keep what the store looks at. -/
def sealCheckpoint (body : CanonValue) : Option Checkpoint :=
  (Averin.sealCheckpoint S.N S.sha256 body S.sk).toOption.map fun sealed =>
    { json := sealed
      checkpointHash := (decodeStr (sealed.get "checkpoint_hash")).getD ""
      seq := (decodeInt (sealed.get "checkpoint_seq")).getD 0 }

end Cutter

end Averin
