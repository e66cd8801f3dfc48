import Mathlib.Data.Finset.Insert
import Averin.Canon.Object
import Averin.Core.Table

/-!
# A project of the store

What the store in memory keeps for one project, and the operations on records, on the numbers
of the broker and on recoveries. An operation that fails changes nothing. A record's text is
given by the value it spells; reading a field of it follows the decoder, which takes a default
for an absent field and refuses a field of another type.
-/

namespace Averin

/-- A text field of a decoded struct. -/
def decodeStr : Option CanonValue → Option String
  | none | some .null => some ""
  | some (.str s) => some s
  | _ => none

/-- A number field of a decoded struct. -/
def decodeInt : Option CanonValue → Option Int
  | none | some .null => some 0
  | some (.int n) => some n.toInt
  | _ => none

/-- A list of texts of a decoded struct, where there is one. -/
def decodeStrs : Option CanonValue → Option (Option (List String))
  | none | some .null => some none
  | some (.arr items) => (items.mapM fun v => decodeStr (some v)).map some
  | _ => none

/-- Texts that were written are read back. -/
theorem decodeStrs_map_str (texts : List String) :
    decodeStrs (some (.arr (texts.map .str))) = some (some texts) := by
  have hall : (texts.map CanonValue.str).mapM (fun v => decodeStr (some v)) = some texts := by
    induction texts with
    | nil => rfl
    | cons t texts ih =>
      rw [List.map_cons, List.mapM_cons, ih]
      rfl
  rw [decodeStrs, hall, Option.map_some]

/-- The members of a nested struct or map. -/
def decodeObj : Option CanonValue → Option (List (String × CanonValue))
  | none | some .null => some []
  | some (.obj members) => some members
  | _ => none

/-- A raw member decoded on its own, which must be there. -/
def unmarshalStr (v : Option CanonValue) : Option String := v.bind fun v => decodeStr (some v)

/-- The same of a number. -/
def unmarshalInt (v : Option CanonValue) : Option Int := v.bind fun v => decodeInt (some v)

/-- The identifier a record carries, empty without one. -/
def recordIDOf (json : CanonValue) : String := (decodeStr (json.get "record_id")).getD ""

/-- What opens one committed field of a record. -/
structure DisclosureSecret where
  recordId : String
  field : String
  valueDigest : String
  nonceHex : String
  deriving DecidableEq

/-- A sealed record and the fields the store looks at. -/
structure Record where
  json : CanonValue
  contentHash : String
  sessionId : String
  parents : List String
  disclosures : List DisclosureSecret

/-- A sealed checkpoint. -/
structure Checkpoint where
  json : CanonValue
  checkpointHash : String
  seq : Int

/-- A credential that is minted and not yet committed. -/
structure PendingGrant where
  grantId : String
  payload : List UInt8
  created : Int
  deriving DecidableEq

/-- The retirement of one reserved number. -/
structure RecoveryFence where
  projectId : String
  grantId : String
  operationId : String
  actorId : String
  sessionId : String
  reason : String
  requestDigest : String
  seq : Int
  generation : Int
  deriving DecidableEq

/-- How a recovery ended. -/
structure RecoveryResult where
  projectId : String
  outcome : String
  winningRecordHash : String
  seq : Int
  generation : Int
  deriving DecidableEq

/-- One revocation of a grant. The cutoff counts for a prospective one only. -/
structure RevocationEvent where
  projectId : String
  grantId : String
  mode : String
  cutoffOrder : Int
  issuer : String
  reason : String
  deriving DecidableEq

/-- The place of one receipt in the order of a project. -/
structure AuthorizationReceipt where
  ordinal : Int
  recordId : String
  grantId : String
  kind : String
  deriving DecidableEq

/-- All that is kept for a project. -/
structure Project where
  records : List Record := []
  idem : Table String Nat := ∅
  byHash : Finset String := ∅
  byRecordID : Finset String := ∅
  checks : List Checkpoint := []
  disclosure : List DisclosureSecret := []
  discSeen : Finset String := ∅
  brokerSeq : Table String Int := ∅
  voided : Finset String := ∅
  fences : Table Int RecoveryFence := ∅
  results : Table Int RecoveryResult := ∅
  pending : Table String PendingGrant := ∅
  revEvents : Table String RevocationEvent := ∅
  authOrder : Int := 0
  receipts : Table Int AuthorizationReceipt := ∅
  receiptByRecord : Table String Int := ∅

/-- Why the store refuses an operation. -/
inductive StoreError where
  | recordIDConflict (recordId : String)
  | brokerSeqVoided
  | recoveryFenced
  | recoveryConflict
  | notReserved (seq : Int) (grantId : String)
  | needsTransaction
  | invalidRevocation
  | cutoffBeyondOrder
  | invalidReceipt
  | orderConflict
  deriving DecidableEq, Repr

/-- The fields of a record that a recovery looks at. -/
structure WinnerFields where
  projectId : String
  recordId : String
  sessionId : String
  eventType : String
  source : String
  enforcementPoint : String
  authorityGrant : String
  kind : String
  brokerSeq : Int
  evidence : CanonValue

/-- Decode the fields. One of another type refuses the whole record. -/
def decodeWinner (raw : CanonValue) : Option WinnerFields := do
  let authority := CanonValue.obj (← decodeObj (raw.get "authority"))
  let extensions := CanonValue.obj (← decodeObj (raw.get "extensions"))
  let broker := CanonValue.obj (← decodeObj (extensions.get "broker"))
  let grantEvidence := CanonValue.obj (← decodeObj (broker.get "grant_evidence"))
  return {
    projectId := ← decodeStr (raw.get "project_id")
    recordId := ← decodeStr (raw.get "record_id")
    sessionId := ← decodeStr (raw.get "session_id")
    eventType := ← decodeStr (raw.get "event_type")
    source := ← decodeStr (authority.get "source")
    enforcementPoint := ← decodeStr (authority.get "enforcement_point")
    authorityGrant := ← decodeStr (authority.get "grant_id")
    kind := ← decodeStr (broker.get "kind")
    brokerSeq := ← decodeInt (grantEvidence.get "broker_seq")
    evidence := .obj (← decodeObj (broker.get "void_evidence")) }

/-- The evidence of a tombstone is attributed to the operation of the fence. -/
def attributedTo (sessionId : String) (ev : CanonValue) (f : RecoveryFence) : Bool :=
  sessionId = f.sessionId &&
  (f.actorId ≠ "" && unmarshalStr (ev.get "actor_id") = some f.actorId) &&
  (f.operationId ≠ "" && unmarshalStr (ev.get "operation_id") = some f.operationId) &&
  unmarshalStr (ev.get "reason") = some f.reason

/-- The record is the one a fence allows to win: the grant itself or a tombstone of it. A
tombstone is either attributed to the fence's operation or not attributed at all. -/
def validRecoveryWinner (raw : CanonValue) (f : RecoveryFence) (outcome : String) : Bool :=
  match decodeWinner raw with
  | none => false
  | some r =>
    if r.projectId ≠ f.projectId ∨ r.recordId ≠ f.grantId ∨ r.source ≠ "gateway_enforced" ∨
        r.enforcementPoint ≠ "credential_broker" ∨ r.authorityGrant ≠ f.grantId then false
    else if outcome = "recorded" then
      r.eventType = "credential_grant" && r.kind = "grant" && r.brokerSeq = f.seq
    else if outcome ≠ "voided" ∨ r.eventType ≠ "credential_grant_void" ∨
        r.kind ≠ "grant_void" then false
    else if unmarshalStr (r.evidence.get "domain") ≠ some "averin.broker.grant_void.v1" ∨
        unmarshalStr (r.evidence.get "project_id") ≠ some f.projectId ∨
        unmarshalStr (r.evidence.get "grant_id") ≠ some f.grantId ∨
        unmarshalInt (r.evidence.get "broker_seq") ≠ some f.seq then false
    else
      let hasActor := (r.evidence.get "actor_id").isSome
      let hasOp := (r.evidence.get "operation_id").isSome
      (!hasActor && !hasOp) || (hasActor && hasOp && attributedTo r.sessionId r.evidence f)

/-- What the tombstone of a record says of its voiding. -/
def voidEvidence (raw : CanonValue) : CanonValue :=
  let read : Option CanonValue := do
    let extensions := CanonValue.obj (← decodeObj (raw.get "extensions"))
    let broker := CanonValue.obj (← decodeObj (extensions.get "broker"))
    return .obj (← decodeObj (broker.get "void_evidence"))
  read.getD (.obj [])

/-- The key a tombstone is written under. -/
def voidIdem (seq : Int) : String := "grant-void:" ++ toString seq

/-- After a fence only an attributed tombstone may be written for its grant. -/
def recoveryTombstoneInsert (raw : CanonValue) (idem : String) (f : RecoveryFence) : Bool :=
  idem = voidIdem f.seq && validRecoveryWinner raw f "voided" &&
    ((voidEvidence raw).get "actor_id").isSome && ((voidEvidence raw).get "operation_id").isSome

namespace Project

variable (p : Project)

/-- The grant is retired by a fence. -/
def fenced (grantId : String) : Bool := (Table.values p.fences).any (·.grantId = grantId)

/-- The secrets of a record that are not there yet. -/
def putDisclosures (p : Project) : List DisclosureSecret → Project
  | [] => p
  | d :: rest =>
    let key := d.recordId ++ "\x00" ++ d.field
    if key ∈ p.discSeen then p.putDisclosures rest
    else putDisclosures { p with
      discSeen := insert key p.discSeen, disclosure := p.disclosure ++ [d] } rest

/-- The record under a key. -/
def recordByIdem (idemKey : String) : Option Record :=
  (p.idem.lookup idemKey).bind (p.records[·]?)

/-- The record already written under a key. -/
def known (idemKey : String) : Option Record :=
  if idemKey = "" then none else p.recordByIdem idemKey

/-- The record already written with this content. -/
def twin (contentHash : String) : Option Record :=
  if contentHash ∈ p.byHash then p.records.find? (·.contentHash = contentHash) else none

/-- A fence keeps the record out. -/
def fencedOut (idemKey : String) (rec : Record) : Bool :=
  recordIDOf rec.json ≠ "" && (Table.values p.fences).any fun f =>
    f.grantId = recordIDOf rec.json && !recoveryTombstoneInsert rec.json idemKey f

/-- Append a record and index it. -/
def appendRecord (idemKey : String) (rec : Record) : Project :=
  let rid := recordIDOf rec.json
  { p with
    records := p.records ++ [rec]
    byHash := insert rec.contentHash p.byHash
    byRecordID := if rid ≠ "" then insert rid p.byRecordID else p.byRecordID
    idem := if idemKey ≠ "" then p.idem.insert idemKey p.records.length else p.idem
    : Project }.putDisclosures rec.disclosures

/-- Write a record, unless it is there already under its key or with its content. -/
def putRecord (idemKey : String) (rec : Record) : Except StoreError ((Record × Bool) × Project) :=
  let rid := recordIDOf rec.json
  match p.known idemKey with
  | some r => .ok ((r, false), p)
  | none =>
    if p.fencedOut idemKey rec then .error .recoveryFenced
    else
      match p.twin rec.contentHash with
      | some r => .ok ((r, false), p)
      | none =>
        if rid ≠ "" ∧ rid ∈ p.byRecordID then .error (.recordIDConflict rid)
        else .ok ((rec, true), p.appendRecord idemKey rec)

/-- The record with an identifier. -/
def recordByRecordID (recordId : String) : Option Record :=
  p.records.find? (recordIDOf ·.json = recordId)

/-- The last number. -/
def maxBrokerSeq : Int := Table.maxValue p.brokerSeq

/-- The number of a grant, which is the next one unless it has one. -/
def allocateBrokerSeq (grantId : String) : Except StoreError ((Int × Bool) × Project) :=
  if grantId ∈ p.voided then .error .brokerSeqVoided
  else if p.fenced grantId then .error .recoveryFenced
  else
    match p.brokerSeq.lookup grantId with
    | some seq => .ok ((seq, false), p)
    | none =>
      .ok ((p.maxBrokerSeq + 1, true),
        { p with brokerSeq := p.brokerSeq.insert grantId (p.maxBrokerSeq + 1) })

/-- Give a number back, which only the largest one can be and only while nothing holds it. -/
def releaseBrokerSeq (grantId : String) : Project :=
  match p.brokerSeq.lookup grantId with
  | none => p
  | some seq =>
    if grantId ∈ p.voided then p
    else if p.fenced grantId then p
    else if grantId ∈ p.byRecordID then p
    else if (Table.values p.brokerSeq).any (· > seq) then p
    else { p with brokerSeq := p.brokerSeq.erase grantId }

/-- The grant that holds a number. -/
def brokerSeqAt (seq : Int) : Option (String × Bool) :=
  (p.brokerSeq.entries.find? (·.2 = seq)).map fun e => (e.1, e.1 ∈ p.voided)

/-- Mark a number of a grant as void. -/
def voidBrokerSeq (grantId : String) (seq : Int) : Except StoreError Project :=
  if p.brokerSeq.lookup grantId ≠ some seq then .error (.notReserved seq grantId)
  else .ok { p with voided := insert grantId p.voided }

/-- The fence of a number. -/
def recoveryFenceAt (seq : Int) : Option RecoveryFence := p.fences.lookup seq

/-- The fence of a grant. -/
def recoveryFenceByGrant (grantId : String) : Option RecoveryFence :=
  (Table.values p.fences).find? (·.grantId = grantId)

/-- Retire a reserved number. A fence is never replaced. -/
def putRecoveryFence (inTx : Bool) (f : RecoveryFence) :
    Except StoreError ((RecoveryFence × Bool) × Project) :=
  if !inTx then .error .needsTransaction
  else
    match p.fences.lookup f.seq with
    | some old => if old = f then .ok ((old, false), p) else .error .recoveryConflict
    | none =>
      if (Table.values p.fences).any fun old =>
          old.grantId = f.grantId || old.operationId = f.operationId then
        .error .recoveryConflict
      else if p.brokerSeq.lookup f.grantId ≠ some f.seq ∨ f.seq < 1 ∨ f.generation ≠ 1 then
        .error .recoveryConflict
      else .ok ((f, true), { p with fences := p.fences.insert f.seq f })

/-- The result of a number. -/
def recoveryResultAt (seq : Int) : Option RecoveryResult := p.results.lookup seq

/-- Record how a recovery ended, which a stored record must bear out. -/
def putRecoveryResult (inTx : Bool) (r : RecoveryResult) :
    Except StoreError ((RecoveryResult × Bool) × Project) :=
  if !inTx then .error .needsTransaction
  else
    match p.fences.lookup r.seq with
    | none => .error .recoveryConflict
    | some f =>
      if f.generation ≠ r.generation ∨ (r.outcome ≠ "recorded" ∧ r.outcome ≠ "voided") ∨
          r.winningRecordHash = "" then
        .error .recoveryConflict
      else if ¬ p.records.any fun rec => rec.contentHash = r.winningRecordHash &&
          validRecoveryWinner rec.json f r.outcome then
        .error .recoveryConflict
      else
        match p.results.lookup r.seq with
        | some old =>
          if old.outcome ≠ r.outcome ∨ old.winningRecordHash ≠ r.winningRecordHash then
            .error .recoveryConflict
          else .ok ((old, false), p)
        | none => .ok ((r, true), { p with results := p.results.insert r.seq r })

end Project

end Averin
