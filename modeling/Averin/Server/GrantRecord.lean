import Averin.Broker.Approvals
import Averin.Server.Committed
import Averin.Server.Signing
import Averin.Server.StoredGrant

/-!
# The record of a grant

The broker prepares the evidence of a grant once its number is drawn, commits to the credential and
signs a record that carries both. The sealed record has the identifier of the grant, fills the
number in the log, and is the one its own request is compared with.
-/

namespace Averin

/-- What a grant is issued from: its request, the texts of the credential and the clock. -/
structure GrantIssue where
  req : Broker.Request
  grantId : String
  descriptor : List UInt8
  descriptorDigest : String
  nonceHex : String
  issuedAt : Int64
  exp : Int64
  evaluatedAt : String
  expiresAt : String
  stamp : Stamp

section Build

variable {ed : Ed25519} (N : Normalizer) (sha256 : List UInt8 → Vector UInt8 32)
  (lower : Char → Char) (key : SigningKey ed)

/-- What the broker states about the grant. The request is named for the second version only, and
the limit for a reusable grant. -/
def grantEvidence (i : GrantIssue) (scopeClass : String) (cnfPub : Vector UInt8 32)
    (seq : Int64) : GrantEvidence where
  grantId := i.grantId
  authorizingPrincipal := i.req.principal
  delegationChain := i.req.delegationChain
  agentId := i.req.agentId
  action := i.req.action
  resourceId := i.req.resource
  scope := i.req.scope
  scopeClass := scopeClass
  cnfKid := cnfKid sha256 cnfPub
  credentialBinding := rootText (sha256 i.descriptor)
  brokerSeq := seq
  issuedAt := i.issuedAt
  exp := i.exp
  request := if i.req.popVersion = 2 then
      some ⟨i.req.projectId, (i.req.semanticHash sha256).toOption.getD ""⟩ else none
  useLimit := if scopeClass = Broker.scopeBoundedReuse then some i.req.useLimit else none
  brokerId := i.req.brokerId

/-- The grant as it is prepared with a number, for a request that was validated. -/
def prepareGrant (i : GrantIssue) (seq : Int64) : Option Prepared := do
  guard (Broker.trimSpace i.grantId ≠ "")
  let scopeClass ← (Broker.classifyScope lower i.req.scope i.req.scopeClass).toOption
  guard (scopeClass = Broker.scopeBoundedReuse → 1 ≤ i.req.useLimit.toInt)
  let cnfPub ← B64.lenientFixed 32 i.req.agentPubKey
  guard (1 ≤ seq.toInt)
  return {
    grantId := i.grantId
    credentialBinding := rootText (sha256 i.descriptor)
    evidence := grantEvidence sha256 i scopeClass cnfPub seq }

/-- What the record says as the broker's. -/
def grantMembers (p : Prepared) : List (String × CanonValue) :=
  [("kind", .str "grant"), ("issuance_status", .str "recorded"),
    ("scope_class", .str p.evidence.scopeClass),
    ("conformance_level", .str conformanceL1GrantOnly),
    ("credential_binding", .str p.credentialBinding), ("grant_evidence", p.evidence.toJson)]

/-- The unsigned body of the record. -/
def grantBody (i : GrantIssue) (p : Prepared) (evidenceHash commitment : String) : CanonValue :=
  .obj [
    ("record_id", .str i.grantId),
    ("project_id", .str i.req.projectId),
    ("session_id", .str i.req.sessionId),
    ("agent_id", .str i.req.agentId),
    ("agent_version", .str "averin-broker"),
    ("event_type", .str "credential_grant"),
    ("observed_via", .str "broker"),
    ("action", .str i.req.action),
    ("status", .str "ok"),
    ("authority", .obj [
      ("source", .str "gateway_enforced"),
      ("enforcement_point", .str "credential_broker"),
      ("grant_type", .str grantTypeIDJAG),
      ("grant_id", .str i.grantId),
      ("authorizing_principal", .str i.req.principal),
      ("delegation_chain", .arr (i.req.delegationChain.map .str)),
      ("evidence_hash", .str evidenceHash),
      ("evaluated_at", .str i.evaluatedAt),
      ("expires_at", .str i.expiresAt)]),
    ("credential_commit", .obj [
      ("alg", .str "sha256"),
      ("commitment", .str commitment),
      ("low_entropy", .bool true)]),
    ("extensions", .obj [("broker", .obj (grantMembers p))])]

/-- The signed record of a grant, with what opens its commitment. -/
def buildGrantRecord (i : GrantIssue) (p : Prepared) :
    Option (CanonValue × List DisclosureSecret) := do
  let evidenceHash ← rcpEvidenceHash N sha256 p.evidence.toJson
  let commitment ← commitText sha256 .credential i.descriptor i.nonceHex
  let rec ← signLocalAuthorityV3 N sha256 key i.stamp (grantBody i p evidenceHash commitment)
  return (rec, [⟨i.grantId, "credential", i.descriptorDigest, i.nonceHex⟩])

/-- The record of a grant for a number that the store drew, which has sixty-four bits. -/
def GrantIssue.build (i : GrantIssue) (seq : Int) : Option (CanonValue × List DisclosureSecret) :=
  if -2 ^ 63 ≤ seq ∧ seq < 2 ^ 63 then
    (prepareGrant sha256 lower i (Int64.ofInt seq)).bind (buildGrantRecord N sha256 key i)
  else none

end Build

/-- A step that answers goes on with its answer. -/
theorem bind_of_eq_some {α β : Type} {x : Option α} {a : α} {f : α → Option β} (h : x = some a) :
    (x >>= f) = f a := by
  rw [h]
  rfl

namespace GrantEvidence

variable {ev : GrantEvidence}

/-- A text every grant has is read back. -/
theorem decodeStr_fixed (k : String) {t : String}
    (hk : (CanonValue.obj ev.fixedMembers).get k = some (.str t)) :
    decodeStr (ev.toJson.get k) = some t := by
  rw [get_toJson_fixed hk]
  rfl

theorem decodeInt_fixed (k : String) {n : Int64}
    (hk : (CanonValue.obj ev.fixedMembers).get k = some (.int n)) :
    decodeInt (ev.toJson.get k) = some n.toInt := by
  rw [get_toJson_fixed hk]
  rfl

theorem decodeStrs_chain :
    decodeStrs (ev.toJson.get "delegation_chain") = some (some ev.delegationChain) := by
  rw [get_toJson_fixed rfl]
  exact decodeStrs_map_str _

/-- Without a limit zero is read. -/
theorem decodeInt_useLimit : decodeInt (ev.toJson.get "use_limit") =
    some ((ev.useLimit.map Int64.toInt).getD 0) := by
  rw [get_toJson_useLimit]
  cases ev.useLimit <;> rfl

/-- What ties the grant to its request is read back. -/
theorem decode_request {r : RequestBinding} (h : ev.request = some r) :
    decodeInt (ev.toJson.get "pop_version") = some 2 ∧
      decodeStr (ev.toJson.get "project_id") = some r.projectId ∧
        decodeStr (ev.toJson.get "request_hash") = some r.requestHash := by
  have hmembers := requestMembers_of_request h
  refine ⟨?_, ?_, ?_⟩ <;>
    rw [get_toJson_request (by simp [fixedMembers]) (by rw [hmembers]; rfl)] <;> rfl

end GrantEvidence

variable {ed : Ed25519} {N : Normalizer} {sha256 : List UInt8 → Vector UInt8 32}
  {lower : Char → Char} {key : SigningKey ed} {S : Sealer} {i : GrantIssue} {seq : Int}
  {body stored : CanonValue} {disclosures : List DisclosureSecret} {p : Project}
  {sessionId : String}

/-- The evidence of a grant for a number, and what it was made from. -/
structure PreparedFor (sha256 : List UInt8 → Vector UInt8 32) (lower : Char → Char)
    (i : GrantIssue) (seq : Int) (prepared : Prepared) : Prop where
  made : prepareGrant sha256 lower i (Int64.ofInt seq) = some prepared
  number : prepared.evidence.brokerSeq.toInt = seq
  positive : 1 ≤ seq
  request : i.req.popVersion = 2 → prepared.evidence.request =
    some ⟨i.req.projectId, (i.req.semanticHash sha256).toOption.getD ""⟩

/-- What a record says of the grant it was built for. -/
structure GrantOf (i : GrantIssue) (prepared : Prepared) (raw : CanonValue) : Prop where
  recordId : raw.get "record_id" = some (.str i.grantId)
  extensions : raw.get "extensions" = some (.obj [("broker", .obj (grantMembers prepared))])
  point : (raw.get "authority").bind (·.get "enforcement_point") = some (.str "credential_broker")

/-- What a retry reads of the evidence of a grant. -/
def storedGrantOf (ev : GrantEvidence) (r : RequestBinding) : Broker.StoredGrant where
  kind := "grant"
  popVersion := 2
  projectId := r.projectId
  requestHash := r.requestHash
  agentId := ev.agentId
  action := ev.action
  resourceId := ev.resourceId
  scope := ev.scope
  scopeClass := ev.scopeClass
  useLimit := (ev.useLimit.map Int64.toInt).getD 0
  cnfKid := ev.cnfKid
  authzPrincipal := ev.authorizingPrincipal
  delegationChain := ev.delegationChain
  issuedAt := ev.issuedAt.toInt
  exp := ev.exp.toInt

/-- A grant that is prepared has its number and names its request. -/
theorem preparedFor_of_prepareGrant {prepared : Prepared} (hrange : -2 ^ 63 ≤ seq ∧ seq < 2 ^ 63)
    (h : prepareGrant sha256 lower i (Int64.ofInt seq) = some prepared) :
    PreparedFor sha256 lower i seq prepared := by
  have hread : (Int64.ofInt seq).toInt = seq :=
    Int64.toInt_ofInt_of_le hrange.1 (by omega)
  have hmade := h
  simp only [prepareGrant, Option.bind_eq_bind, Option.bind_eq_some_iff, Option.guard_eq_some'] at h
  obtain ⟨-, -, scopeClass, -, -, -, cnfPub, -, -, hpos, h⟩ := h
  obtain rfl := Option.some.inj h
  exact ⟨hmade, hread, hread ▸ hpos, fun hversion => if_pos hversion⟩

/-- The signed record says what the grant was issued for. -/
theorem grantOf_built (hname : i.grantId ≠ "")
    (h : i.build N sha256 lower key seq = some (body, disclosures)) :
    ∃ prepared, PreparedFor sha256 lower i seq prepared ∧ GrantOf i prepared body := by
  unfold GrantIssue.build at h
  split_ifs at h with hrange
  obtain ⟨prepared, hprepared, h⟩ := Option.bind_eq_some_iff.mp h
  obtain ⟨evidenceHash, -, h⟩ := Option.bind_eq_some_iff.mp h
  obtain ⟨commitment, -, h⟩ := Option.bind_eq_some_iff.mp h
  obtain ⟨signed, hsigned, h⟩ := Option.bind_eq_some_iff.mp h
  obtain ⟨rfl, -⟩ := Prod.mk.inj (Option.some.inj h)
  refine ⟨prepared, preparedFor_of_prepareGrant hrange hprepared, ?_, ?_, ?_⟩
  · rw [get_signLocalAuthorityV3_recordId hsigned hname]
    rfl
  · rw [get_signLocalAuthorityV3 hsigned rfl (by decide) (by decide)]
    rfl
  · rw [get_authority_signLocalAuthorityV3 hsigned rfl (by decide) (by decide) (by decide)]
    rfl

/-- The sealed record says the same. -/
theorem GrantOf.sealed {prepared : Prepared} (h : GrantOf i prepared body) (hname : i.grantId ≠ "")
    (hsealed : S.sealRecord p sessionId body = some stored) : GrantOf i prepared stored := by
  have hkeeps := S.keeps p sessionId body stored hsealed (by rw [h.extensions]; rfl)
  refine ⟨?_, ?_, ?_⟩
  · rw [S.keepsId p sessionId body stored hsealed]
    · exact h.recordId
    · rw [textField, h.recordId]
      exact hname
  · rw [hkeeps _ (by decide), h.extensions]
  · rw [hkeeps _ (by decide), h.point]

namespace GrantOf

variable {prepared : Prepared} {raw : CanonValue}

/-- The record has the name of the grant. -/
theorem recordIDOf (h : GrantOf i prepared raw) : recordIDOf raw = i.grantId := by
  rw [Averin.recordIDOf, h.recordId]
  rfl

/-- The record fills the number it was built for. -/
theorem grantSeqOf (h : GrantOf i prepared raw) (hp : PreparedFor sha256 lower i seq prepared) :
    grantSeqOf raw = some seq := by
  have hkind : jsonText raw ["extensions", "broker", "kind"] = "grant" := by
    rw [jsonText_cons h.extensions]
    rfl
  have hpoint : jsonText raw ["authority", "enforcement_point"] = "credential_broker" := by
    obtain ⟨authority, hauthority, hget⟩ := Option.bind_eq_some_iff.mp h.point
    rw [jsonText_cons hauthority, jsonText_of_get hget]
  have hnum : jsonSeq raw ["extensions", "broker", "grant_evidence", "broker_seq"] = seq := by
    rw [jsonSeq_cons h.extensions, jsonSeq_cons rfl, jsonSeq_cons rfl]
    apply jsonSeq_of_decodeInt _ hp.positive
    rw [GrantEvidence.get_toJson_fixed rfl]
    exact congrArg some hp.number
  unfold Averin.grantSeqOf
  dsimp only
  have hpos := hp.positive
  rw [hkind, hpoint, hnum, if_neg (by decide), if_neg (by decide), if_neg (by omega)]

/-- The record of a request of the second version is read as what was prepared for it. -/
theorem readStoredGrant_eq {r : RequestBinding} (h : GrantOf i prepared raw)
    (hrequest : prepared.evidence.request = some r) :
    Broker.readStoredGrant raw = some (storedGrantOf prepared.evidence r) := by
  have hextensions : decodeObj (raw.get "extensions") = some [("broker",
      .obj (grantMembers prepared))] := by
    rw [h.extensions]
    rfl
  have hbroker : decodeObj ((CanonValue.obj [("broker", .obj (grantMembers prepared))]).get
      "broker") = some (grantMembers prepared) := rfl
  have hkind : decodeStr ((CanonValue.obj (grantMembers prepared)).get "kind") = some "grant" := rfl
  have hevidence : (decodeObj ((CanonValue.obj (grantMembers prepared)).get "grant_evidence")).map
      CanonValue.obj = some prepared.evidence.toJson := rfl
  obtain ⟨hversion, hprojectId, hhash⟩ := GrantEvidence.decode_request hrequest
  unfold Broker.readStoredGrant
  rw [bind_of_eq_some hextensions, bind_of_eq_some hbroker, bind_of_eq_some hkind,
    bind_of_eq_some hevidence, bind_of_eq_some hversion, bind_of_eq_some hprojectId,
    bind_of_eq_some hhash, bind_of_eq_some (GrantEvidence.decodeStr_fixed "agent_id" rfl),
    bind_of_eq_some (GrantEvidence.decodeStr_fixed "action" rfl),
    bind_of_eq_some (GrantEvidence.decodeStr_fixed "resource_id" rfl),
    bind_of_eq_some (GrantEvidence.decodeStr_fixed "scope" rfl),
    bind_of_eq_some (GrantEvidence.decodeStr_fixed "scope_class" rfl),
    bind_of_eq_some GrantEvidence.decodeInt_useLimit,
    bind_of_eq_some (GrantEvidence.decodeStr_fixed "cnf_kid" rfl),
    bind_of_eq_some (GrantEvidence.decodeStr_fixed "authorizing_principal" rfl),
    bind_of_eq_some GrantEvidence.decodeStrs_chain,
    bind_of_eq_some (GrantEvidence.decodeInt_fixed "issued_at" rfl),
    bind_of_eq_some (GrantEvidence.decodeInt_fixed "exp" rfl)]
  rfl

/-- The record carries the hash of its request, so a retry is compared with that. -/
theorem commitsGrant (h : GrantOf i prepared raw) (hp : PreparedFor sha256 lower i seq prepared)
    (hversion : i.req.popVersion = 2) {hash : String}
    (hhash : i.req.semanticHash sha256 = .ok hash) : Broker.CommitsGrant sha256 raw i.req := by
  have hrequest := hp.request hversion
  rw [hhash] at hrequest
  exact ⟨_, hash, h.readStoredGrant_eq hrequest, hhash, rfl⟩

/-- A retry of the request is answered from the record. -/
theorem matches_request (h : GrantOf i prepared raw)
    (hp : PreparedFor sha256 lower i seq prepared) (hversion : i.req.popVersion = 2)
    {hash : String} (hhash : i.req.semanticHash sha256 = .ok hash) (wholeSeconds : Int64 → Int) :
    Broker.storedGrantMatchesRequest sha256 lower wholeSeconds raw i.req = .ok true := by
  have hrequest := hp.request hversion
  rw [hhash] at hrequest
  simp only [Broker.storedGrantMatchesRequest, bind_eq_ok_iff, orFail_eq_ok_iff]
  refine ⟨_, h.readStoredGrant_eq hrequest, ?_⟩
  rw [if_neg (by simp [storedGrantOf]), if_pos hversion, if_neg (by simp [storedGrantOf]), hhash]
  exact congrArg Except.ok (decide_eq_true rfl)

end GrantOf

/-- The issuing of a grant under a key, with its record sealed for the session. -/
def GrantIssue.issuance (N : Normalizer) (sha256 : List UInt8 → Vector UInt8 32)
    (lower : Char → Char) (key : SigningKey ed) (S : Sealer) (i : GrantIssue) (idem : String)
    (hname : i.grantId ≠ "") : Issuance where
  idemKey := idem
  grantId := i.grantId
  build p seq := (i.build N sha256 lower key seq).bind fun b =>
    (S.sealRecord p i.req.sessionId b.1).map (sealedRecord · b.2)
  named := hname
  build_grant := by
    intro p seq rec h
    obtain ⟨⟨body, disclosures⟩, hbuild, h⟩ := Option.bind_eq_some_iff.mp h
    obtain ⟨sealed, hsealed, rfl⟩ := Option.map_eq_some_iff.mp h
    obtain ⟨prepared, hprepared, hgrant⟩ := grantOf_built hname hbuild
    have hgrant := hgrant.sealed hname hsealed
    exact ⟨hgrant.recordIDOf, hgrant.grantSeqOf hprepared⟩

/-- The request of the grant as its transaction sees it: in time, and admitted. -/
def GrantIssue.call (N : Normalizer) (sha256 : List UInt8 → Vector UInt8 32)
    (lower : Char → Char) (key : SigningKey ed) (wholeSeconds : Int64 → Int) (i : GrantIssue)
    (idem : String) (inTime admitted : Bool) : GrantCall where
  idem := idem
  sessionId := i.req.sessionId
  grantId := i.grantId
  sameRequest raw :=
    (Broker.storedGrantMatchesRequest sha256 lower wholeSeconds raw i.req).toOption
  inTime := inTime
  admitted := admitted
  build := i.build N sha256 lower key

/-- The transaction of the request issues the grant. -/
theorem GrantIssue.call_issues {wholeSeconds : Int64 → Int} {idem : String}
    {inTime admitted : Bool} (hname : i.grantId ≠ "") :
    (i.call N sha256 lower key wholeSeconds idem inTime admitted).Issues S
      (i.issuance N sha256 lower key S idem hname) :=
  ⟨rfl, rfl, fun _ _ => rfl⟩

end Averin
