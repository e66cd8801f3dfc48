import Averin.Core.Float64
import Averin.Resource.Shim
import Averin.Server.Recovery
import Averin.Server.Signing

/-!
# The use of a capability

Both phases of a use take the same way through one write transaction: an exact retry is
answered from the stored receipt, a key that is bound to another record is a conflict, and
otherwise the capability is checked once more, the revocations are read, what the use consumes is
claimed, a number is drawn and the receipt is built, sealed and stored under it.
-/

namespace Averin

namespace Project

variable (p : Project)

/-- The grant is retired for good: its recovery ended in a void, or a tombstone stands in its
place. -/
def terminalGrantVoided (projectId grantId : String) : Bool :=
  let fence := p.recoveryFenceByGrant grantId
  fence.any (fun f => (p.recoveryResultAt f.seq).any (·.outcome = "voided")) ||
    (p.recordByRecordID grantId).any fun winner =>
      match boundVoidRecord winner.json projectId grantId with
      | none => false
      | some (seq, _, _) => fence.all (·.seq = seq) && (p.brokerSeqAt seq).any (·.1 = grantId)

/-- What a use asks before it consumes anything. -/
def retired (projectId grantId : String) : Bool :=
  p.terminalGrantVoided projectId grantId || p.isRevoked grantId

end Project

/-- A use request, after it was read and its identifiers were checked. -/
structure UseRequest where
  idem : String
  projectId : String
  sessionId : String
  capability : String
  useSig : String
  action : String
  params : String
  nonce : String
  paramsNonce : String
  useSequenceNumber : Int

/-- The phases of a use that consume the credential. -/
inductive UseKind where
  | use
  | intent
  deriving DecidableEq, Repr

/-- The name of a kind. -/
def UseKind.text : UseKind → String
  | use => "use"
  | intent => "use_intent"

/-- A request with the clock, the texts and the claim owners its transaction draws. -/
structure UseInvocation where
  request : UseRequest
  kind : UseKind
  unix : Int
  evaluatedAt : String
  stamp : Stamp
  paramsDigest : String
  nonceOwner : String
  jtiOwner : String

/-- The gateway: the core, its key, who issues the capabilities, and how many records a project
may hold. -/
structure ResourceCore (ed : Ed25519) where
  N : Normalizer
  sha256 : List UInt8 → Vector UInt8 32
  sealer : Sealer
  key : SigningKey ed
  brokerPub : Vector UInt8 32
  resourceId : String
  quota : Nat

/-- What a stored receipt is compared by. -/
structure StoredUse where
  projectId : String
  authorityGrant : String
  commitment : String
  grantId : String
  jti : String
  resourceId : String
  action : String
  nonce : String
  useSig : String
  cnfPub : String
  popChallengeHash : String
  useSequenceNumber : Int

/-- Read a stored receipt. A member of another type refuses the whole. -/
def decodeStoredUse (raw : CanonValue) : Option StoredUse := do
  let authority := CanonValue.obj (← decodeObj (raw.get "authority"))
  let commit := CanonValue.obj (← decodeObj (raw.get "input_commit"))
  let extensions := CanonValue.obj (← decodeObj (raw.get "extensions"))
  let broker := CanonValue.obj (← decodeObj (extensions.get "broker"))
  let ue := CanonValue.obj (← decodeObj (broker.get "use_evidence"))
  return {
    projectId := ← decodeStr (raw.get "project_id")
    authorityGrant := ← decodeStr (authority.get "grant_id")
    commitment := ← decodeStr (commit.get "commitment")
    grantId := ← decodeStr (ue.get "grant_id")
    jti := ← decodeStr (ue.get "jti")
    resourceId := ← decodeStr (ue.get "resource_id")
    action := ← decodeStr (ue.get "action")
    nonce := ← decodeStr (ue.get "nonce")
    useSig := ← decodeStr (ue.get "use_sig")
    cnfPub := ← decodeStr (ue.get "cnf_pub")
    popChallengeHash := ← decodeStr (ue.get "pop_challenge_hash")
    useSequenceNumber := ← decodeInt (ue.get "use_sequence_number") }

/-- The format of an ordinal. -/
def authorizationOrderFormat : String := "averin.authorization_order.v1"

/-- The place of a receipt in the order of its project, as the receipt states it. -/
def authorizationOrder (projectId : String) (ordinal : Int) : Option CanonValue :=
  (jsonInt ordinal).map fun n => .obj [("format", .str authorizationOrderFormat),
    ("project_id", .str projectId), ("ordinal", n)]

/-- A number of the evidence, which is held as a double on the way into the body. -/
def evidenceNumber (n : Int) : Option CanonValue := jsonInt (Float64.rewritten n)

/-- The evidence as the receipt states it. An uncounted use states no number. -/
def UseEvidence.toJson (ev : UseEvidence) (kind projectId : String) (ordinal : Int) :
    Option CanonValue := do
  let usedAt ← evidenceNumber ev.usedAt
  let number ← if ev.useSequenceNumber = 0 then some []
    else (evidenceNumber ev.useSequenceNumber).map fun n => [("use_sequence_number", n)]
  let order ← authorizationOrder projectId ordinal
  return .obj ([("kind", .str kind), ("grant_id", .str ev.grantId), ("action", .str ev.action),
    ("resource_id", .str ev.resourceId), ("jti", .str ev.jti), ("nonce", .str ev.nonce),
    ("pop_challenge_hash", .str ev.popChallengeHash), ("cnf_kid", .str ev.cnfKid),
    ("ledger_commitment", .str ev.ledgerCommitment), ("used_at", usedAt),
    ("cnf_pub", .str ev.cnfPub), ("use_sig", .str ev.useSig)] ++ number ++
    [("authorization_order", order)])

/-- How a transaction goes on after what can be said without consuming anything. -/
inductive UseStart where
  | answered (record : CanonValue) (grantId : String)
  | conflict
  | refused (r : UseRefusal)
  | consume (c : Preflight) (claim : NonceClaim)

/-- Why a receipt is not stored after all. -/
inductive UseFailure where
  | build
  | sealing (e : SealError)
  | collapsed (same : Bool)
  | receipt (e : StoreError)
  deriving DecidableEq, Repr

section Handler

variable {ed : Ed25519} (C : ResourceCore ed)

/-- The identifier of a use. -/
def ResourceCore.useId (u : UseRequest) : String :=
  "use-" ++ uuidV5Shaped C.sha256 "averin.use.id.v1" u.projectId u.idem

/-- The resource's side of a use. -/
def ResourceCore.shim (u : UseRequest) : Shim := ⟨C.brokerPub, C.resourceId, u.projectId⟩

/-- The commitment to the parameters, which the proof of possession covers. -/
def ResourceCore.paramsCommitment (u : UseRequest) : Option String :=
  commitText C.sha256 .input (bytes u.params) u.paramsNonce

/-- The number a capability counts the request under. -/
def effectiveSequence (claims : Claims) (u : UseRequest) : Option Int :=
  if 0 < claims.useLimit then
    if u.useSequenceNumber < 1 ∨ u.useSequenceNumber > claims.useLimit then none
    else some u.useSequenceNumber
  else some 0

/-- The stored receipt is the one of this request. -/
def ResourceCore.storedUseMatchesRequest (raw : CanonValue) (u : UseRequest) (commitment : String) :
    Bool :=
  match verifyCapability ed u.capability C.brokerPub, decodeStoredUse raw with
  | .ok claims, some s =>
    if claims.version ≠ 2 ∨ s.projectId ≠ u.projectId ∨ claims.projectId ≠ s.projectId then false
    else if some s.useSequenceNumber ≠ effectiveSequence claims u then false
    else if s.action ≠ u.action ∨ s.nonce ≠ u.nonce ∨ s.commitment ≠ commitment ∨ claims.jti = "" ∨
        claims.jti ≠ s.authorityGrant ∨ claims.jti ≠ s.grantId ∨ claims.jti ≠ s.jti ∨
        claims.aud ≠ C.resourceId ∨ claims.aud ≠ s.resourceId ∨ claims.act ≠ s.action ∨
        claims.cnf = "" ∨ claims.cnf ≠ s.cnfPub then false
    else
      match B64.lenientFixed 64 u.useSig, B64.lenientFixed 32 claims.cnf,
        credentialBindingOf C.sha256 u.capability with
      | some useSig, some cnfPub, .ok binding =>
        let challenge := usePopChallenge C.sha256 claims.jti s.resourceId s.action commitment
          binding u.nonce
        B64.encode useSig.toList = s.useSig && s.popChallengeHash = rootText challenge &&
          ed.verifyStrict cnfPub challenge.toList useSig
      | _, _, _ => false
  | _, _ => false

/-- The rule for an exact retry. -/
def ResourceCore.priorUseMatchesRequest (raw : CanonValue) (u : UseRequest) (kind : UseKind)
    (commitment : String) : Bool :=
  jsonText raw ["record_id"] = C.useId u && jsonText raw ["session_id"] = u.sessionId &&
    jsonText raw ["extensions", "broker", "kind"] = kind.text &&
    C.storedUseMatchesRequest raw u commitment

/-- The operation a request is for. -/
def UseRequest.op (u : UseRequest) (commitment : String) : Op :=
  ⟨u.action, commitment, u.useSequenceNumber⟩

/-- The beginning of the transaction. -/
def ResourceCore.startUse (p : Project) (u : UseInvocation) (commitment : String) : UseStart :=
  let r := u.request
  match p.recordByIdem r.idem with
  | some prior =>
    if C.priorUseMatchesRequest prior.json r u.kind commitment then
      .answered prior.json (jsonText prior.json ["authority", "grant_id"])
    else .conflict
  | none =>
    match preflightUse C.sha256 ed (C.shim r) r.capability r.useSig (r.op commitment) r.nonce
      u.unix with
    | .error e => .refused e
    | .ok c =>
      if p.retired r.projectId c.claims.jti then .refused (.revoked c.claims.jti)
      else
        match Preflight.nonceClaim (C.shim r) r.nonce u.nonceOwner with
        | .error e => .refused e
        | .ok claim => .consume c claim

/-- The body of the receipt. -/
def ResourceCore.buildUseRecord (u : UseInvocation) (ev : UseEvidence) (commitment : String)
    (ordinal : Int) : Option CanonValue := do
  let r := u.request
  let useEvidence ← ev.toJson u.kind.text r.projectId ordinal
  let evidenceHash ← rcpEvidenceHash C.N C.sha256 useEvidence
  signLocalAuthorityV3 C.N C.sha256 C.key u.stamp (.obj [
    ("record_id", .str (C.useId r)),
    ("project_id", .str r.projectId),
    ("session_id", .str r.sessionId),
    ("agent_id", .str "averin-resource"),
    ("agent_version", .str "averin-resource"),
    ("event_type", .str "tool_call"),
    ("observed_via", .str "broker"),
    ("action", .str ev.action),
    ("status", .str "ok"),
    ("authority", .obj [
      ("source", .str "gateway_enforced"),
      ("enforcement_point", .str "tool_gateway"),
      ("grant_id", .str ev.grantId),
      ("evidence_hash", .str evidenceHash),
      ("evaluated_at", .str u.evaluatedAt)]),
    ("input_commit", .obj [
      ("alg", .str "sha256"),
      ("commitment", .str commitment),
      ("low_entropy", .bool true)]),
    ("extensions", .obj [("broker", .obj [
      ("kind", .str u.kind.text),
      ("grant_id", .str ev.grantId),
      ("resource_id", .str ev.resourceId),
      ("use_evidence", useEvidence)])])])

/-- The end of the transaction, once the claims are taken: draw a number, build the receipt, store
it, and keep its place. Whatever fails undoes all of it. -/
def ResourceCore.recordUse (p : Project) (u : UseInvocation) (c : Preflight) (commitment : String) :
    Except UseFailure (CanonValue × Project) :=
  let r := u.request
  let (ordinal, p₁) := p.allocateAuthorizationOrder
  let ev := c.evidence C.sha256 (C.shim r) (r.op commitment) r.nonce
  match C.buildUseRecord u ev commitment ordinal with
  | none => .error .build
  | some body =>
    match sealCounted C.quota C.sealer p₁ r.sessionId r.idem body
      [⟨C.useId r, "input", u.paramsDigest, r.paramsNonce⟩] with
    | .error e => .error (.sealing e)
    | .ok ((stored, created), p₂) =>
      if created = false then
        .error (.collapsed (C.priorUseMatchesRequest stored r u.kind commitment))
      else
        match p₂.putAuthorizationReceipt ⟨ordinal, C.useId r, ev.grantId, u.kind.text⟩ with
        | .error e => .error (.receipt e)
        | .ok p₃ => .ok (stored, p₃)

end Handler

end Averin
