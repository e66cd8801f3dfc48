import Averin.Server.Use

/-!
# Introspections, outcomes and revocations

The other transactions that touch the order of a project. An introspection of a native grant is
checked against the stored grant and numbered like a use; the outcome of a use takes over the
number of its intent and draws none; a revocation is written once for a grant and a mode.
-/

namespace Averin

/-- An introspection request, after it was read and its identifiers were checked. -/
structure IntrospectionRequest where
  idem : String
  projectId : String
  sessionId : String
  grantId : String
  credentialRef : String
  effectiveScope : String
  effectiveExp : Int
  introspectedAt : Int
  transcriptHash : String

/-- A request with the clock its transaction reads. -/
structure IntrospectionCall where
  request : IntrospectionRequest
  unix : Int
  stamp : Stamp

/-- Why an introspection is refused. -/
inductive IntrospectionRefusal where
  | notCommitted | notNative | resource | lease | scope | outlives | window | notBeforeExp | future
  | expired | voided | revoked
  deriving DecidableEq, Repr

/-- What a stored native grant states. -/
structure NativeGrant where
  kind : String
  grantId : String
  mode : String
  leaseId : String
  resourceId : String
  scope : String
  issuedAt : Int
  exp : Int

/-- Read a native grant from its record. -/
def decodeNativeGrant (raw : CanonValue) : Option NativeGrant := do
  let extensions := CanonValue.obj (← decodeObj (raw.get "extensions"))
  let broker := CanonValue.obj (← decodeObj (extensions.get "broker"))
  let ev := CanonValue.obj (← decodeObj (broker.get "grant_evidence"))
  return {
    kind := ← decodeStr (broker.get "kind")
    grantId := ← decodeStr (ev.get "grant_id")
    mode := ← decodeStr (ev.get "mode")
    leaseId := ← decodeStr (ev.get "lease_id")
    resourceId := ← decodeStr (ev.get "resource_id")
    scope := ← decodeStr (ev.get "scope")
    issuedAt := ← decodeInt (ev.get "issued_at")
    exp := ← decodeInt (ev.get "exp") }

/-- The parts of a scope, without empty ones. -/
def scopeTokens (scope : String) : List (List Char) := (scope.toList.splitOn ' ').filter (· ≠ [])

/-- Every word of one scope is in the other. -/
def scopeSubset (sub sup : String) : Bool := (scopeTokens sub).all (· ∈ scopeTokens sup)

/-- How an introspection ends. -/
inductive IntrospectionEnd where
  | answered (record : CanonValue)
  | conflict
  | refused (r : IntrospectionRefusal)
  | recorded (record : CanonValue)

/-- What undoes a transaction of the gateway. -/
inductive GatewayFailure where
  | build
  | sealing (e : SealError)
  | collapsed
  | store (e : StoreError)
  | malformed
  deriving DecidableEq, Repr

section Introspection

variable {ed : Ed25519} (C : ResourceCore ed)

/-- The identifier of an introspection. -/
def ResourceCore.introspectionId (r : IntrospectionRequest) : String :=
  uuidV5Shaped C.sha256 "averin.introspection.id.v1" r.projectId r.idem

/-- The rule for an exact retry. A request without a time takes the stored one. -/
def ResourceCore.storedIntrospectionMatches (raw : CanonValue) (r : IntrospectionRequest) : Bool :=
  let read : Option Bool := do
    let recordId ← decodeStr (raw.get "record_id")
    let projectId ← decodeStr (raw.get "project_id")
    let sessionId ← decodeStr (raw.get "session_id")
    let extensions := CanonValue.obj (← decodeObj (raw.get "extensions"))
    let broker := CanonValue.obj (← decodeObj (extensions.get "broker"))
    let kind ← decodeStr (broker.get "kind")
    let e := CanonValue.obj (← decodeObj (broker.get "introspection_evidence"))
    let evKind ← decodeStr (e.get "kind")
    let grantId ← decodeStr (e.get "grant_id")
    let credentialRef ← decodeStr (e.get "credential_ref")
    let effectiveScope ← decodeStr (e.get "effective_scope")
    let resourceId ← decodeStr (e.get "resource_id")
    let transcriptHash ← decodeStr (e.get "transcript_hash")
    let introspectedAt ← decodeInt (e.get "introspected_at")
    let effectiveExp ← decodeInt (e.get "effective_exp")
    return recordId = C.introspectionId r ∧ projectId = r.projectId ∧ sessionId = r.sessionId ∧
      kind = "introspection_transcript" ∧ evKind = "introspection_transcript" ∧
      grantId = r.grantId ∧ credentialRef = r.credentialRef ∧ effectiveScope = r.effectiveScope ∧
      resourceId = C.resourceId ∧ transcriptHash = r.transcriptHash ∧
      effectiveExp = r.effectiveExp ∧ (r.introspectedAt = 0 ∨ r.introspectedAt = introspectedAt)
  read.getD false

/-- Check the stored grant before anything is numbered or signed. -/
def ResourceCore.validateNativeIntrospection (p : Project) (r : IntrospectionRequest)
    (introspectedAt unix : Int) : Except IntrospectionRefusal Unit := do
  let grantRec ← orFail (p.recordByRecordID r.grantId) .notCommitted
  let g ← orFail (decodeNativeGrant grantRec.json) .notNative
  require (g.kind = "grant" ∧ g.mode = "token_exchange" ∧ g.grantId = r.grantId) .notNative
  require (g.resourceId = C.resourceId) .resource
  require (g.leaseId = r.credentialRef) .lease
  require (scopeSubset r.effectiveScope g.scope = true) .scope
  require (r.effectiveExp ≤ g.exp) .outlives
  require (g.issuedAt ≤ introspectedAt ∧ introspectedAt < g.exp) .window
  require (introspectedAt < r.effectiveExp) .notBeforeExp
  require (introspectedAt ≤ unix + requestClockSkew) .future
  require (unix < g.exp) .expired
  require (p.terminalGrantVoided r.projectId r.grantId = false) .voided
  require (p.isRevoked r.grantId = false) .revoked

/-- The evidence of an introspection, with the signature of the resource over its challenge. -/
def ResourceCore.introspectionEvidence (r : IntrospectionRequest) (introspectedAt ordinal : Int) :
    Option CanonValue := do
  let at? ← jsonInt introspectedAt
  let effectiveExp ← jsonInt r.effectiveExp
  let order ← authorizationOrder r.projectId ordinal
  let challenge := C.sha256 (introspectionTranscriptPreimage r.grantId r.credentialRef
    r.effectiveScope C.resourceId introspectedAt r.effectiveExp)
  return .obj [("kind", .str "introspection_transcript"), ("grant_id", .str r.grantId),
    ("credential_ref", .str r.credentialRef), ("effective_scope", .str r.effectiveScope),
    ("resource_id", .str C.resourceId), ("transcript_hash", .str r.transcriptHash),
    ("introspected_at", at?), ("effective_exp", effectiveExp),
    ("sig", .str (B64.encode (C.key.sign challenge.toList).toList)), ("authorization_order", order)]

/-- The signed record of an introspection. -/
def ResourceCore.buildIntrospectionRecord (r : IntrospectionRequest) (stamp : Stamp)
    (ie : CanonValue) : Option CanonValue := do
  let evidenceHash ← rcpEvidenceHash C.N C.sha256 ie
  signLocalAuthorityV3 C.N C.sha256 C.key stamp (.obj [
    ("record_id", .str (C.introspectionId r)),
    ("project_id", .str r.projectId),
    ("session_id", .str r.sessionId),
    ("agent_id", .str "averin-resource"),
    ("agent_version", .str "averin-resource"),
    ("event_type", .str "tool_call"),
    ("observed_via", .str "broker"),
    ("action", .str r.effectiveScope),
    ("status", .str "ok"),
    ("authority", .obj [
      ("source", .str "gateway_enforced"),
      ("enforcement_point", .str "tool_gateway"),
      ("grant_id", .str r.grantId),
      ("evidence_hash", .str evidenceHash)]),
    ("extensions", .obj [("broker", .obj [
      ("kind", .str "introspection_transcript"),
      ("grant_id", .str r.grantId),
      ("resource_id", .str C.resourceId),
      ("introspection_evidence", ie)])])])

/-- Number, sign and store a checked introspection. -/
def ResourceCore.recordIntrospection (p : Project) (u : IntrospectionCall) (introspectedAt : Int) :
    Except GatewayFailure (CanonValue × Project) :=
  let r := u.request
  let (ordinal, p₁) := p.allocateAuthorizationOrder
  match (C.introspectionEvidence r introspectedAt ordinal).bind
    (C.buildIntrospectionRecord r u.stamp) with
  | none => .error .build
  | some body =>
    match sealCounted C.quota C.sealer p₁ r.sessionId r.idem body [] with
    | .error e => .error (.sealing e)
    | .ok ((stored, created), p₂) =>
      if created = false then .error .collapsed
      else
        match p₂.putAuthorizationReceipt
            ⟨ordinal, C.introspectionId r, r.grantId, "introspection_transcript"⟩ with
        | .error e => .error (.store e)
        | .ok p₃ => .ok (stored, p₃)

/-- The transaction of an introspection. -/
def ResourceCore.introspect (p : Project) (u : IntrospectionCall) :
    Except GatewayFailure (IntrospectionEnd × Project) :=
  let r := u.request
  match p.recordByIdem r.idem with
  | some prior =>
    if C.storedIntrospectionMatches prior.json r then .ok (.answered prior.json, p)
    else .ok (.conflict, p)
  | none =>
    let introspectedAt := if r.introspectedAt = 0 then u.unix else r.introspectedAt
    match C.validateNativeIntrospection p r introspectedAt u.unix with
    | .error refusal => .ok (.refused refusal, p)
    | .ok () => (C.recordIntrospection p u introspectedAt).map fun (stored, p') =>
      (.recorded stored, p')

end Introspection

/-- The request to complete an intent, after it was read and its identifiers were checked. -/
structure OutcomeRequest where
  idem : String
  projectId : String
  sessionId : String
  intentRecordId : String
  status : String

/-- The request with what the server reads for it. -/
structure OutcomeCall where
  request : OutcomeRequest
  evaluatedAt : String
  stamp : Stamp

/-- What the lookups of intents and outcomes read of a record: its identifier, its kind and the
intent it completes. -/
def probeUse (raw : CanonValue) : Option (String × String × String) := do
  let recordId ← decodeStr (raw.get "record_id")
  let extensions := CanonValue.obj (← decodeObj (raw.get "extensions"))
  let broker := CanonValue.obj (← decodeObj (extensions.get "broker"))
  let kind ← decodeStr (broker.get "kind")
  let outcome := CanonValue.obj (← decodeObj (broker.get "use_outcome"))
  let intentRef ← decodeStr (outcome.get "intent_ref")
  if kind = "" then none else some (recordId, kind, intentRef)

namespace Project

variable (p : Project)

/-- The record of the broker or the gateway under an identifier of the session. -/
def intentRecord (sessionId recordId : String) : Option Record :=
  p.records.find? fun r => r.sessionId = sessionId && (probeUse r.json).any (·.1 = recordId)

/-- The outcome of an intent. -/
def useOutcomeFor (sessionId intentRef : String) : Option Record :=
  p.records.find? fun r => r.sessionId = sessionId &&
    (probeUse r.json).any fun q => q.2.1 = "use_outcome" && q.2.2 = intentRef

end Project

/-- What an outcome takes from its intent: the grant, the hash and the place in the order. -/
structure IntentFields where
  contentHash : String
  kind : String
  grantId : String
  order : Option CanonValue

/-- Read an intent. A place that is stated must be an object. -/
def decodeIntent (raw : CanonValue) : Option IntentFields := do
  let contentHash ← decodeStr (raw.get "content_hash")
  let extensions := CanonValue.obj (← decodeObj (raw.get "extensions"))
  let broker := CanonValue.obj (← decodeObj (extensions.get "broker"))
  let kind ← decodeStr (broker.get "kind")
  let evidence := CanonValue.obj (← decodeObj (broker.get "use_evidence"))
  let grantId ← decodeStr (evidence.get "grant_id")
  return ⟨contentHash, kind, grantId, (evidence.get "authorization_order").filter (!·.isNull)⟩

/-- How an outcome ends. -/
inductive OutcomeEnd where
  | answered (record : CanonValue)
  | conflict
  | intentNotFound
  | notAnIntent (kind : String)
  | recorded (record : CanonValue)

section Outcome

variable {ed : Ed25519} (C : ResourceCore ed)

/-- The identifier of an outcome. -/
def ResourceCore.outcomeId (r : OutcomeRequest) : String :=
  "outcome-" ++ uuidV5Shaped C.sha256 "averin.use_outcome.id.v1" r.projectId r.idem

/-- The status of an outcome, with its default. -/
def OutcomeRequest.statusText (r : OutcomeRequest) : String :=
  if r.status = "" then "ok" else r.status

/-- A stored outcome is of the same intent and says the same. -/
def storedOutcomeMatchesRequest (raw : CanonValue) (intentRef status : String) : Bool :=
  let read : Option Bool := do
    let extensions := CanonValue.obj (← decodeObj (raw.get "extensions"))
    let broker := CanonValue.obj (← decodeObj (extensions.get "broker"))
    let outcome := CanonValue.obj (← decodeObj (broker.get "use_outcome"))
    let ref ← decodeStr (outcome.get "intent_ref")
    let st ← decodeStr (outcome.get "status")
    return ref = intentRef ∧ st = status
  read.getD false

/-- The rule for an exact retry. -/
def ResourceCore.priorOutcomeMatches (raw : CanonValue) (r : OutcomeRequest) : Bool :=
  jsonText raw ["record_id"] = C.outcomeId r && jsonText raw ["session_id"] = r.sessionId &&
    jsonText raw ["extensions", "broker", "kind"] = "use_outcome" &&
    storedOutcomeMatchesRequest raw r.intentRecordId r.statusText

/-- What the resource signs of an outcome. -/
def outcomePayload (r : OutcomeRequest) (i : IntentFields) : CanonValue :=
  .obj ([("grant_id", .str i.grantId), ("intent_hash", .str i.contentHash),
    ("intent_ref", .str r.intentRecordId), ("kind", .str "use_outcome"),
    ("status", .str r.statusText)] ++
    match i.order with
    | none => []
    | some order => [("authorization_order", order)])

/-- The signed record of an outcome. -/
def ResourceCore.buildUseOutcomeRecord (u : OutcomeCall) (i : IntentFields) :
    Option CanonValue := do
  let r := u.request
  let payload := outcomePayload r i
  let evidenceHash ← rcpEvidenceHash C.N C.sha256 payload
  signLocalAuthorityV3 C.N C.sha256 C.key u.stamp (.obj [
    ("record_id", .str (C.outcomeId r)),
    ("causal_prev_hashes", .arr [.str i.contentHash]),
    ("project_id", .str r.projectId),
    ("session_id", .str r.sessionId),
    ("agent_id", .str "averin-resource"),
    ("agent_version", .str "averin-resource"),
    ("event_type", .str "tool_call"),
    ("observed_via", .str "broker"),
    ("action", .str "use_outcome"),
    ("status", .str r.statusText),
    ("authority", .obj [
      ("source", .str "gateway_enforced"),
      ("enforcement_point", .str "tool_gateway"),
      ("grant_id", .str i.grantId),
      ("evidence_hash", .str evidenceHash),
      ("evaluated_at", .str u.evaluatedAt)]),
    ("extensions", .obj [("broker", .obj [
      ("kind", .str "use_outcome"),
      ("grant_id", .str i.grantId),
      ("intent_ref", .str r.intentRecordId),
      ("use_outcome", payload)])])])

/-- Store the outcome of an intent. -/
def ResourceCore.recordOutcome (p : Project) (u : OutcomeCall) (i : IntentFields) :
    Except GatewayFailure (OutcomeEnd × Project) :=
  let r := u.request
  -- An inherited place that is no object cannot be read.
  if i.order.any (·.asObject.isNone) then .error .malformed
  else
    match C.buildUseOutcomeRecord u i with
    | none => .error .build
    | some body =>
      match sealCounted C.quota C.sealer p r.sessionId r.idem body [] with
      | .error (.store (.recordIDConflict _)) => .ok (.conflict, p)
      | .error e => .error (.sealing e)
      | .ok ((stored, created), p') =>
        if created = true then .ok (.recorded stored, p')
        else if C.priorOutcomeMatches stored r then .ok (.answered stored, p')
        else .ok (.conflict, p')

/-- The transaction of an outcome. -/
def ResourceCore.useOutcome (p : Project) (u : OutcomeCall) :
    Except GatewayFailure (OutcomeEnd × Project) :=
  let r := u.request
  match p.recordByIdem r.idem with
  | some prior =>
    if C.priorOutcomeMatches prior.json r then .ok (.answered prior.json, p)
    else .ok (.conflict, p)
  | none =>
    match p.intentRecord r.sessionId r.intentRecordId with
    | none => .ok (.intentNotFound, p)
    | some intent =>
      match decodeIntent intent.json with
      | none => .error .malformed
      | some i =>
        if i.kind ≠ "use_intent" then .ok (.notAnIntent i.kind, p)
        else if (p.useOutcomeFor r.sessionId r.intentRecordId).isSome then .ok (.conflict, p)
        else C.recordOutcome p u i

end Outcome

/-- A revocation request, after it was read and its identifiers were checked. -/
structure RevokeRequest where
  projectId : String
  grantId : String
  prospective : Bool
  reason : String

/-- The event a request asks for, which never brings a cutoff of its own. -/
def RevokeRequest.event (r : RevokeRequest) (issuer : String) : RevocationEvent where
  projectId := r.projectId
  grantId := r.grantId
  mode := if r.prospective then revocationProspective else revocationTotal
  cutoffOrder := 0
  issuer := issuer
  reason := if r.reason = "" then
    (if r.prospective then revocationProspective else revocationTotal) else r.reason

/-- Why a revocation is not stored. -/
inductive RevokeError where
  | capacity
  | store (e : StoreError)
  deriving DecidableEq, Repr

/-- The grants that are revoked in some mode. -/
def Project.revokedGrantIDs (p : Project) : List String :=
  sortedUnique ((Table.values p.revEvents).map (·.grantId))

/-- The transaction of a revocation. A project revokes so many grants only. -/
def revokeGrantEvent (cap : Nat) (p : Project) (ev : RevocationEvent) :
    Except RevokeError ((RevocationEvent × Bool) × Project) :=
  if ev.grantId ∉ p.revokedGrantIDs ∧ cap ≤ p.revokedGrantIDs.length then .error .capacity
  else
    match p.putRevocationEvent ev with
    | .error e => .error (.store e)
    | .ok answer => .ok answer

end Averin
