import Averin.Server.Receipts
import Averin.Server.Refusals
import Averin.Server.UseRetry
import Averin.Store.CountedStore

/-!
# The write transactions of the server

The callback of every write request, over the store that counts its rows. What a handler decides
without the store, such as whether a request is valid, in time or the same as a stored one, and
what it builds, is given with the call. Two callbacks decide some failures themselves: a use and
an introspection answer a conflict and still undo their transaction, and an outcome answers it and
lets an empty transaction commit.
-/

namespace Averin

open CountedStore hiding sealAndStore putRecord

/-- How a transaction answers. -/
inductive TxReply where
  | created (row : CanonValue)
  | existing (row : CanonValue)
  | declined
  | done

/-- The answer with a stored row. -/
def TxReply.stored (row : CanonValue) (created : Bool) : TxReply :=
  if created then .created row else .existing row

/-- A callback that answers. -/
abbrev TxCallback := Callback TxReply TxReply

/-- Go on with what was built, or give up. -/
def orAbort {α : Type} : Option α → Callback TxReply α
  | some a => pure a
  | none => throw .callback

/-- Give up unless a check passes. -/
def check (b : Bool) : Callback TxReply Unit := if b then pure () else throw .callback

/-- Decide a conflict of identifiers, and pass on every other failure. -/
def onConflict {α : Type} (m h : Callback TxReply α) : Callback TxReply α :=
  tryCatch m fun
    | .store (.recordIDConflict _) => h
    | e => throw e

/-- The number of a grant. -/
def drawSeq (grantId : String) : Callback TxReply Int := do
  let (seq, _) ← write (·.allocateBrokerSeq grantId)
  check (1 ≤ seq)
  return seq

/-- One record that is ingested, or one span. -/
structure IngestCall where
  sessionId : String
  idem : String
  body : CanonValue
  disclosures : List DisclosureSecret

/-- Store a record. -/
def IngestCall.callback (S : Sealer) (c : IngestCall) : TxCallback := do
  let (row, created) ← CountedStore.sealAndStore S c.sessionId c.idem c.body c.disclosures
  return .stored row created

/-- A refusal of the gateway, after it was checked. -/
structure RefusalCall where
  request : RefusalRequest
  recordId : String

/-- The key of a refusal. -/
def RefusalCall.idem (c : RefusalCall) : String := "refusal:" ++ c.request.idempotencyKey

/-- Store a refusal once. -/
def RefusalCall.callback (S : Sealer) (c : RefusalCall) : TxCallback := do
  match ← read (·.recordByIdem c.idem) with
  | some stored => return .existing stored.json
  | none =>
    let (row, created) ← CountedStore.sealAndStore S c.request.sessionId c.idem
      (refusalRecord c.recordId c.request) []
    return .stored row created

/-- The request of a grant. `sameRequest` compares it with a stored record, which may be
unreadable, and `build` makes its record for a number. -/
structure GrantCall where
  idem : String
  sessionId : String
  grantId : String
  sameRequest : CanonValue → Option Bool
  inTime : Bool
  admitted : Bool
  build : Int → Option (CanonValue × List DisclosureSecret)

/-- A grant in one phase. -/
def GrantCall.callback (S : Sealer) (c : GrantCall) : TxCallback := do
  match ← read (·.recordByIdem c.idem) with
  | some prior =>
    if ← orAbort (c.sameRequest prior.json) then return .existing prior.json
    else return .declined
  | none =>
    check (c.inTime && c.admitted)
    let seq ← drawSeq c.grantId
    let (body, disclosures) ← orAbort (c.build seq)
    let (row, created) ← CountedStore.sealAndStore S c.sessionId c.idem body disclosures
    check created
    return .created row

/-- A grant whose credential is minted elsewhere. It is answered again without a comparison. -/
def GrantCall.native (S : Sealer) (c : GrantCall) : TxCallback := do
  match ← read (·.recordByIdem c.idem) with
  | some prior => return .existing prior.json
  | none =>
    let seq ← drawSeq c.grantId
    let (body, _) ← orAbort (c.build seq)
    let (row, created) ← CountedStore.sealAndStore S c.sessionId c.idem body []
    return .stored row created

/-- What a pending grant says of a request: its own proof is in time, and it is the same one. -/
structure PendingProof where
  inTime : Bool
  same : Bool

/-- The request of a grant in two phases. `live` reads the clock of the store. -/
structure PendingCall where
  grant : GrantCall
  live : Project → Bool
  proof : List UInt8 → Option PendingProof
  mint : Option PendingGrant

/-- Mint a credential and keep it as pending. -/
def PendingCall.keep (c : PendingCall) : TxCallback := do
  let row ← orAbort c.mint
  let (winning, _) ← write fun q => .ok (q.putPendingGrant c.grant.idem row)
  let proof ← orAbort (c.proof winning.payload)
  return if proof.same then .done else .declined

/-- The first phase, which stores no record. -/
def PendingCall.prepare (c : PendingCall) : TxCallback := do
  match ← read (·.recordByIdem c.grant.idem) with
  | some prior =>
    return if c.grant.sameRequest prior.json = some true then .existing prior.json else .declined
  | none =>
    if ← read fun q => (q.recoveryFenceByGrant c.grant.grantId).isSome then
      throw (.store .recoveryFenced)
    else if !c.grant.inTime then return .declined
    else
      match ← read (·.pending.lookup c.grant.idem) with
      | none => c.keep
      | some row =>
        if ← read c.live then
          let proof ← orAbort (c.proof row.payload)
          return if proof.inTime && proof.same then .done else .declined
        else
          write fun q => .ok ((), q.deletePendingGrant c.grant.idem)
          c.keep

/-- The second phase. `seen` is the pending grant the approvals were checked for. -/
def PendingCall.finalize (S : Sealer) (c : PendingCall) (seen : List UInt8) (proofInTime : Bool) :
    TxCallback := do
  match ← read (·.recordByIdem c.grant.idem) with
  | some prior =>
    return if c.grant.sameRequest prior.json = some true then .existing prior.json else .declined
  | none =>
    match ← read (·.pending.lookup c.grant.idem) with
    | none => return .declined
    | some row =>
      if row.payload ≠ seen then return .declined
      else if !(← read c.live) then return .declined
      else if !(c.grant.inTime && proofInTime) then return .declined
      else
        let seq ← drawSeq c.grant.grantId
        let (body, disclosures) ← orAbort (c.grant.build seq)
        let (stored, created) ← CountedStore.sealAndStore S c.grant.sessionId c.grant.idem body
          disclosures
        write fun q => .ok ((), q.deletePendingGrant c.grant.idem)
        return .stored stored created

/-- The record of a denied grant. `requestIdem` is the key of the request it denies. -/
structure DenialCall where
  requestIdem : String
  sessionId : String
  denialId : String
  recoveryId : String
  body : CanonValue

/-- What the key of a denial starts with. -/
def denialIdemPrefix : String := "denial:"

/-- A denial that collapsed on a foreign record is stored once more, under a key of its own. -/
def DenialCall.callback (S : Sealer) (c : DenialCall) : TxCallback := do
  match ← read (·.recordByIdem c.requestIdem) with
  | some _ => return .declined
  | none =>
    let (stored, created) ← CountedStore.sealAndStore S c.sessionId
      (denialIdemPrefix ++ c.denialId) c.body []
    if created then return .created stored
    else if jsonText stored ["record_id"] = c.denialId ∧
        jsonText stored ["event_type"] = "credential_grant_denied" then
      return .existing stored
    else
      let (row, fresh) ← CountedStore.sealAndStore S c.sessionId
        (denialIdemPrefix ++ "recovery-" ++ c.recoveryId) c.body []
      check fresh
      return .created row

section Gateway

variable {ed : Ed25519} (C : ResourceCore ed)

/-- Either phase of a use. `claims` are those of the replay ledger. -/
def ResourceCore.useCallback (u : UseInvocation) (commitment : String)
    (claims : Table LedgerKey String) : TxCallback := do
  let r := u.request
  match ← read (C.startUse · u commitment) with
  | .answered record _ => return .existing record
  | .conflict | .refused _ => return .declined
  | .consume c nonce =>
    reach
    match c.consume claims nonce u.jtiOwner with
    | .error _ => return .declined
    | .ok _ =>
      let ordinal ← write fun q => .ok q.allocateAuthorizationOrder
      let ev := c.evidence C.sha256 (C.shim r) (r.op commitment) r.nonce
      let body ← orAbort (C.buildUseRecord u ev commitment ordinal)
      let (stored, created) ← onConflict
        (CountedStore.sealAndStore C.sealer r.sessionId r.idem body
          [⟨C.useId r, "input", u.paramsDigest, r.paramsNonce⟩])
        (throw (.decided .declined))
      if created then
        write fun q => (q.putAuthorizationReceipt
          ⟨ordinal, C.useId r, ev.grantId, u.kind.text⟩).map (((), ·))
        return .created stored
      else if C.priorUseMatchesRequest stored r u.kind commitment then
        throw (.decided (.existing stored))
      else throw (.decided .declined)

/-- Store an introspection once. -/
def ResourceCore.introspectCallback (u : IntrospectionCall) : TxCallback := do
  let r := u.request
  match ← read (·.recordByIdem r.idem) with
  | some prior =>
    return if C.storedIntrospectionMatches prior.json r then .existing prior.json else .declined
  | none =>
    let introspectedAt := if r.introspectedAt = 0 then u.unix else r.introspectedAt
    match ← read (C.validateNativeIntrospection · r introspectedAt u.unix) with
    | .error _ => return .declined
    | .ok () =>
      let ordinal ← write fun q => .ok q.allocateAuthorizationOrder
      let body ← orAbort ((C.introspectionEvidence r introspectedAt ordinal).bind
        (C.buildIntrospectionRecord r u.stamp))
      let (stored, created) ← onConflict
        (CountedStore.sealAndStore C.sealer r.sessionId r.idem body [])
        (throw (.decided .declined))
      if created then
        write fun q => (q.putAuthorizationReceipt ⟨ordinal, C.introspectionId r, r.grantId,
          "introspection_transcript"⟩).map (((), ·))
        return .created stored
      else if C.storedIntrospectionMatches stored r then throw (.decided (.existing stored))
      else throw (.decided .declined)

/-- Store the outcome of an intent once. -/
def ResourceCore.outcomeCallback (u : OutcomeCall) : TxCallback := do
  let r := u.request
  match ← read (·.recordByIdem r.idem) with
  | some prior =>
    return if C.priorOutcomeMatches prior.json r then .existing prior.json else .declined
  | none =>
    match ← read (·.intentRecord r.sessionId r.intentRecordId) with
    | none => return .declined
    | some intent =>
      let i ← orAbort (decodeIntent intent.json)
      if i.kind ≠ "use_intent" then return .declined
      else if ← read fun q => (q.useOutcomeFor r.sessionId r.intentRecordId).isSome then
        return .declined
      else
        check (!i.order.any (·.asObject.isNone))
        let body ← orAbort (C.buildUseOutcomeRecord u i)
        match ← onConflict
          (do return some (← CountedStore.sealAndStore C.sealer r.sessionId r.idem body []))
          (pure none) with
        | none => return .declined
        | some (stored, created) =>
          if created then return .created stored
          else if C.priorOutcomeMatches stored r then return .existing stored
          else return .declined

end Gateway

section Recovery

variable (digest : VoidRequest → String → String) (revocation : Bool)
  (buildVoid : VoidRequest → String → Option CanonValue)

/-- The first transaction of a recovery. -/
def VoidRequest.fenceCallback (v : VoidRequest) : TxCallback := do
  let (grantId, _) ← orAbort (← read (·.brokerSeqAt v.brokerSeq))
  let prior ← read (·.recordByIdem (voidIdem v.brokerSeq))
  check (!prior.any fun r => recoveryTombstone r.json v grantId = .conflict)
  let _ ← write (·.putRecoveryFence true (wantedFence digest v grantId))
  return .done

/-- Mark what is void, as part of a callback. -/
def Fenced.markVoid (h : Fenced) : Callback TxReply Unit := do
  let v := h.request
  if !h.voided then
    write fun q => (q.voidBrokerSeq h.grantId v.brokerSeq).map (((), ·))
  if revocation then
    let _ ← write (·.putRevocationEvent ⟨v.projectId, h.grantId, revocationTotal, 0,
      "averin-recovery", "recovery_void"⟩)

/-- Keep the outcome of a recovery. -/
def Fenced.putResult (h : Fenced) (outcome : String) (winner : Record) : Callback TxReply Unit := do
  let v := h.request
  let _ ← write (·.putRecoveryResult true
    ⟨v.projectId, outcome, winner.contentHash, v.brokerSeq, 1⟩)

/-- The second transaction of a recovery, from what the first one left in hand. -/
def Fenced.reconcileCallback (S : Sealer) (h : Fenced) : TxCallback := do
  let v := h.request
  let current ← orAbort (← read (·.recoveryFenceAt v.brokerSeq))
  check (current.requestDigest = h.fence.requestDigest)
  match ← read (·.recoveryResultAt v.brokerSeq) with
  | some _ =>
    match ← read (·.recordByRecordID h.grantId) with
    | some winner => return .existing winner.json
    | none => return .done
  | none =>
    match ← read (·.recordByRecordID h.grantId) with
    | some winner =>
      if recoveryTombstone winner.json v h.grantId ≠ .conflict then
        h.markVoid revocation
        h.putResult "voided" winner
      else
        check (recordIsLandedGrant winner.json v.brokerSeq)
        h.putResult "recorded" winner
      return .existing winner.json
    | none =>
      check (!(← read fun q => (grantLog q.grantRecords).any (·.1 = v.brokerSeq)))
      let body ← orAbort (buildVoid v h.grantId)
      let (sealed, created) ← CountedStore.sealAndStore S v.sessionId (voidIdem v.brokerSeq) body []
      let winner ← orAbort (← read (·.recordByRecordID h.grantId))
      check (winner.json = sealed)
      h.markVoid revocation
      h.putResult "voided" winner
      return .stored sealed created

end Recovery

/-- A revocation. A project revokes so many grants only. The events are read once more at the end,
for the answer, and a revocation that cannot be answered is not kept. -/
def revokeCallback (cap : Nat) (ev : RevocationEvent) : TxCallback := do
  let ids ← read (·.revokedGrantIDs)
  check (ev.grantId ∈ ids || ids.length < cap)
  let _ ← write (·.putRevocationEvent ev)
  let _ ← read (·.revocationEvents)
  return .done

/-- A checkpoint, which `cut` seals over the project or gives up. -/
def checkpointCallback (cut : Project → Option Checkpoint) : TxCallback := do
  let cp ← orAbort (← read cut)
  write fun q => .ok ((), q.putCheckpoint cp)
  return .done

end Averin
