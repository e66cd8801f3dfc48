import Averin.Store.BrokerSeq
import Averin.Store.Temporal

/-!
# Recovering a broker number

An operator retires a number whose grant was never recorded. The request makes two
transactions: the first puts a fence on the number, the second looks at what is stored under
its grant and either finds the grant or sees to it that a tombstone stands there, and keeps
the result. Anything may happen between the two, and either may be lost and tried again.
-/

namespace Averin

/-- A recovery request, after it was authenticated and checked. -/
structure VoidRequest where
  projectId : String
  brokerSeq : Int
  sessionId : String
  operationId : String
  reason : String
  actorId : String
  deriving DecidableEq

/-- How a stored tombstone relates to a request. -/
inductive TombstoneClass where
  | same
  | legacy
  | conflict
  deriving DecidableEq, Repr

/-- The domain of a tombstone. -/
def grantVoidDomain : String := "averin.broker.grant_void.v1"

/-- The number, the evidence and the session of a tombstone of this grant. -/
def boundVoidRecord (raw : CanonValue) (projectId grantId : String) :
    Option (Int × CanonValue × String) := do
  let recordId ← decodeStr (raw.get "record_id")
  let project ← decodeStr (raw.get "project_id")
  let sessionId ← decodeStr (raw.get "session_id")
  let eventType ← decodeStr (raw.get "event_type")
  let authority := CanonValue.obj (← decodeObj (raw.get "authority"))
  let source ← decodeStr (authority.get "source")
  let enforcementPoint ← decodeStr (authority.get "enforcement_point")
  let authorityGrant ← decodeStr (authority.get "grant_id")
  let extensions := CanonValue.obj (← decodeObj (raw.get "extensions"))
  let broker := CanonValue.obj (← decodeObj (extensions.get "broker"))
  let kind ← decodeStr (broker.get "kind")
  let ev := CanonValue.obj (← decodeObj (broker.get "void_evidence"))
  if recordId ≠ grantId ∨ project ≠ projectId ∨ eventType ≠ "credential_grant_void" ∨
      source ≠ "gateway_enforced" ∨ enforcementPoint ≠ "credential_broker" ∨
      authorityGrant ≠ grantId ∨ kind ≠ "grant_void" then
    none
  else if unmarshalStr (ev.get "domain") ≠ some grantVoidDomain ∨
      unmarshalStr (ev.get "project_id") ≠ some projectId ∨
      unmarshalStr (ev.get "grant_id") ≠ some grantId then
    none
  else
    let seq ← unmarshalInt (ev.get "broker_seq")
    if seq < 1 then none else some (seq, ev, sessionId)

/-- How a record answers the request for a tombstone. -/
def recoveryTombstone (raw : CanonValue) (v : VoidRequest) (grantId : String) : TombstoneClass :=
  match boundVoidRecord raw v.projectId grantId with
  | none => .conflict
  | some (seq, ev, sessionId) =>
    if seq ≠ v.brokerSeq then .conflict
    else
      let hasActor := (ev.get "actor_id").isSome
      let hasOp := (ev.get "operation_id").isSome
      if ¬ hasActor ∧ ¬ hasOp then .legacy
      else if ¬ hasActor ∨ ¬ hasOp ∨ v.actorId = "" ∨ v.operationId = "" ∨
          unmarshalStr (ev.get "actor_id") ≠ some v.actorId ∨
          unmarshalStr (ev.get "operation_id") ≠ some v.operationId ∨
          unmarshalStr (ev.get "reason") ≠ some v.reason ∨ sessionId ≠ v.sessionId then
        .conflict
      else .same

/-- A record is the grant of a number. -/
def recordIsLandedGrant (raw : CanonValue) (seq : Int) : Bool :=
  let read : Option Bool := do
    let eventType ← decodeStr (raw.get "event_type")
    let authority := CanonValue.obj (← decodeObj (raw.get "authority"))
    let enforcementPoint ← decodeStr (authority.get "enforcement_point")
    let extensions := CanonValue.obj (← decodeObj (raw.get "extensions"))
    let broker := CanonValue.obj (← decodeObj (extensions.get "broker"))
    let kind ← decodeStr (broker.get "kind")
    let evidence := CanonValue.obj (← decodeObj (broker.get "grant_evidence"))
    let brokerSeq ← decodeInt (evidence.get "broker_seq")
    return eventType = "credential_grant" ∧ enforcementPoint = "credential_broker" ∧
      kind = "grant" ∧ brokerSeq = seq
  read.getD false

/-- The value under a path of keys. -/
def jsonPath (v : CanonValue) : List String → Option CanonValue
  | [] => some v
  | k :: keys => (v.get k).bind (jsonPath · keys)

/-- A text under a path, empty where there is none. -/
def jsonText (v : CanonValue) (keys : List String) : String :=
  ((jsonPath v keys).bind CanonValue.asStr).getD ""

/-- A positive number under a path, zero where there is none. -/
def jsonSeq (v : CanonValue) (keys : List String) : Int :=
  match (jsonPath v keys).bind CanonValue.asInt with
  | some n => if n < 1 then 0 else n
  | none => 0

/-- The number a record fills in the log of the broker, as a grant or as a tombstone. -/
def grantSeqOf (json : CanonValue) : Option Int :=
  let kind := jsonText json ["extensions", "broker", "kind"]
  let ep := jsonText json ["authority", "enforcement_point"]
  let void := jsonSeq json ["extensions", "broker", "void_evidence", "broker_seq"]
  let grant := jsonSeq json ["extensions", "broker", "grant_evidence", "broker_seq"]
  if kind = "grant_void" ∧ ep = "credential_broker" then
    if 1 ≤ void then some void else none
  else if kind ≠ "grant" ∨ ep ≠ "credential_broker" then none
  else if grant < 1 then none else some grant

/-- The log of the broker: the numbers with their records, in order. -/
def grantLog (records : List Record) : List (Int × String) :=
  (records.filterMap fun r => (grantSeqOf r.json).map (·, r.contentHash)).insertionSort
    (·.1 ≤ ·.1)

namespace Project

/-- The records of the broker. -/
def grantRecords (p : Project) : List Record :=
  p.records.filter fun r =>
    let kind := jsonText r.json ["extensions", "broker", "kind"]
    kind = "grant" || kind = "grant_void"

end Project

/-- Why a recovery does not succeed. -/
inductive RecoveryError where
  | notFound
  | conflict
  | store (e : StoreError)
  | sealing
  | unresolved
  deriving DecidableEq, Repr

/-- An error of the store as the request sees it. -/
def RecoveryError.ofStore : StoreError → RecoveryError
  | .recoveryConflict => .conflict
  | e => .store e

/-- What the first transaction leaves in hand: the fence, the grant and whether it was voided. -/
structure Fenced where
  request : VoidRequest
  fence : RecoveryFence
  grantId : String
  voided : Bool

section Protocol

variable (digest : VoidRequest → String → String)

/-- The fence a request asks for. -/
def wantedFence (v : VoidRequest) (grantId : String) : RecoveryFence where
  projectId := v.projectId
  grantId := grantId
  operationId := v.operationId
  actorId := v.actorId
  sessionId := v.sessionId
  reason := v.reason
  requestDigest := digest v grantId
  seq := v.brokerSeq
  generation := 1

/-- The first transaction. -/
def recoverFence (p : Project) (v : VoidRequest) : Except RecoveryError (Fenced × Project) :=
  match p.brokerSeqAt v.brokerSeq with
  | none => .error .notFound
  | some (grantId, voided) =>
    let prior := p.recordByIdem (voidIdem v.brokerSeq)
    if prior.any fun r => recoveryTombstone r.json v grantId = .conflict then .error .conflict
    else
      match p.putRecoveryFence true (wantedFence digest v grantId) with
      | .error e => .error (.ofStore e)
      | .ok ((fence, _), p') => .ok (⟨v, fence, grantId, voided⟩, p')

/-- Mark the number of a tombstone as void, and revoke its grant where revocations are kept. -/
def markVoid (revocation : Bool) (p : Project) (h : Fenced) : Except StoreError Project :=
  let marked := if h.voided then .ok p else p.voidBrokerSeq h.grantId h.request.brokerSeq
  match marked with
  | .error e => .error e
  | .ok p' =>
    if revocation then
      (p'.putRevocationEvent ⟨h.request.projectId, h.grantId, revocationTotal, 0,
        "averin-recovery", "recovery_void"⟩).map (·.2)
    else .ok p'

/-- The outcome and the record that decides it, after the record or tombstone is in place. -/
def recoverWinner (revocation : Bool) (sealVoid : Project → VoidRequest → String → Option Record)
    (p : Project) (h : Fenced) : Except RecoveryError ((String × Record) × Project) :=
  let v := h.request
  match p.recordByRecordID h.grantId with
  | some winner =>
    if recoveryTombstone winner.json v h.grantId ≠ .conflict then
      match markVoid revocation p h with
      | .error e => .error (.ofStore e)
      | .ok p' => .ok (("voided", winner), p')
    else if recordIsLandedGrant winner.json v.brokerSeq then .ok (("recorded", winner), p)
    else .error .conflict
  | none =>
    if (grantLog p.grantRecords).any (·.1 = v.brokerSeq) then .error .conflict
    else
      match sealVoid p v h.grantId with
      | none => .error .sealing
      | some rec =>
        match p.putRecord (voidIdem v.brokerSeq) rec with
        | .error e => .error (.ofStore e)
        | .ok ((stored, _), p') =>
          match p'.recordByRecordID h.grantId with
          | none => .error .unresolved
          | some winner =>
            if winner.json ≠ stored.json then .error .unresolved
            else
              match markVoid revocation p' h with
              | .error e => .error (.ofStore e)
              | .ok p'' => .ok (("voided", winner), p'')

/-- The second transaction. -/
def recoverReconcile (revocation : Bool)
    (sealVoid : Project → VoidRequest → String → Option Record) (p : Project) (h : Fenced) :
    Except RecoveryError (RecoveryResult × Project) :=
  let v := h.request
  match p.recoveryFenceAt v.brokerSeq with
  | none => .error .conflict
  | some current =>
    if current.requestDigest ≠ h.fence.requestDigest then .error .conflict
    else
      match p.recoveryResultAt v.brokerSeq with
      | some done => .ok (done, p)
      | none =>
        match recoverWinner revocation sealVoid p h with
        | .error e => .error e
        | .ok ((outcome, winner), p') =>
          match p'.putRecoveryResult true
              ⟨v.projectId, outcome, winner.contentHash, v.brokerSeq, 1⟩ with
          | .error e => .error (.ofStore e)
          | .ok ((result, _), p'') => .ok (result, p'')

end Protocol

end Averin
