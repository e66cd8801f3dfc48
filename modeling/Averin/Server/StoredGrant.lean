import Averin.Broker.Request
import Averin.Store.Project
import Averin.Verify.Approvals

/-!
# The stored grant of a request

A retry is answered from the grant that stands under its key if the grant was issued for the same
request. A grant of the second version carries the hash of its request; a historical one is
compared field by field.
-/

namespace Averin

namespace Broker

/-- The fields of a stored grant that are compared. -/
structure StoredGrant where
  kind : String
  popVersion : Int
  projectId : String
  requestHash : String
  agentId : String
  action : String
  resourceId : String
  scope : String
  scopeClass : String
  useLimit : Int
  cnfKid : String
  authzPrincipal : String
  delegationChain : List String
  issuedAt : Int
  exp : Int

/-- Read the fields of a stored record; a value of another type fails. -/
def readStoredGrant (record : CanonValue) : Option StoredGrant := do
  let extensions ← decodeObj (record.get "extensions")
  let broker ← decodeObj ((CanonValue.obj extensions).get "broker")
  let kind ← decodeStr ((CanonValue.obj broker).get "kind")
  let ge ← (decodeObj ((CanonValue.obj broker).get "grant_evidence")).map CanonValue.obj
  return {
    kind := kind
    popVersion := ← decodeInt (ge.get "pop_version")
    projectId := ← decodeStr (ge.get "project_id")
    requestHash := ← decodeStr (ge.get "request_hash")
    agentId := ← decodeStr (ge.get "agent_id")
    action := ← decodeStr (ge.get "action")
    resourceId := ← decodeStr (ge.get "resource_id")
    scope := ← decodeStr (ge.get "scope")
    scopeClass := ← decodeStr (ge.get "scope_class")
    useLimit := ← decodeInt (ge.get "use_limit")
    cnfKid := ← decodeStr (ge.get "cnf_kid")
    authzPrincipal := ← decodeStr (ge.get "authorizing_principal")
    delegationChain := (← decodeStrs (ge.get "delegation_chain")).getD []
    issuedAt := ← decodeInt (ge.get "issued_at")
    exp := ← decodeInt (ge.get "exp") }

/-- Why a stored grant is not compared. -/
inductive MatchError where
  | unreadable
  | request (e : Request.RequestError)
  deriving DecidableEq, Repr

section Match

variable (sha256 : List UInt8 → Vector UInt8 32) (lower : Char → Char) (wholeSeconds : Int64 → Int)

/-- A historical grant was issued for the request: every field that shapes the grant agrees. -/
def historicalMatch (ge : StoredGrant) (req : Request) : Bool :=
  ge.popVersion = 0 &&
    match B64.lenientFixed 32 req.agentPubKey with
    | none => false
    | some pub =>
      match classifyScope lower req.scope req.scopeClass with
      | .error _ => false
      | .ok wantClass =>
        ge.agentId = req.agentId && ge.action = req.action && ge.resourceId = req.resource &&
          ge.scope = req.scope && ge.scopeClass = wantClass &&
          (wantClass ≠ scopeBoundedReuse || ge.useLimit = req.useLimit.toInt) &&
          ge.cnfKid = cnfKid sha256 pub && ge.authzPrincipal = req.principal &&
          wrapInt64 (ge.exp - ge.issuedAt) = wholeSeconds req.ttl &&
          ge.delegationChain = req.delegationChain

/-- The stored record is the grant of the request. `wholeSeconds` are the seconds of a lifetime,
as a historical grant counts them. -/
def storedGrantMatchesRequest (record : CanonValue) (req : Request) : Except MatchError Bool := do
  let ge ← orFail (readStoredGrant record) .unreadable
  if ge.kind ≠ "grant" then return false
  else if req.popVersion = 2 then
    if ge.popVersion ≠ 2 ∨ ge.projectId ≠ req.projectId then return false
    else
      let h ← (req.semanticHash sha256).mapError .request
      return ge.requestHash = h
  else return historicalMatch sha256 lower wholeSeconds ge req

end Match

/-- A record carries the grant that was issued for a request of the second version. -/
def CommitsGrant (sha256 : List UInt8 → Vector UInt8 32) (record : CanonValue) (req : Request) :
    Prop :=
  ∃ ge h, readStoredGrant record = some ge ∧ req.semanticHash sha256 = .ok h ∧ ge.requestHash = h

namespace Request

variable {sha256 : List UInt8 → Vector UInt8 32} {historical : Request → List UInt8}
  {ed : Ed25519} {lower : Char → Char} {wholeSeconds : Int64 → Int} {record : CanonValue}
  {r r' : Request}

/-- The hash of the second version is that of the subject. -/
theorem semanticHash_eq_ok_iff {h : String} :
    r.semanticHash sha256 = .ok h ↔
      r.popVersion = 2 ∧ ∃ b, r.v2Subject = .ok b ∧ rootText (sha256 b) = h := by
  simp only [semanticHash, bind_eq_ok_iff, require_eq_ok_iff, mapError_eq_ok_iff, exists_const]
  refine and_congr_right fun _ => exists_congr fun b => and_congr_right fun _ => ?_
  exact ⟨Except.ok.inj, congrArg Except.ok⟩

/-- What matches a record of the second version has the hash that the record carries. -/
theorem semanticHash_of_matches (hv : r.popVersion = 2)
    (h : storedGrantMatchesRequest sha256 lower wholeSeconds record r = .ok true) :
    ∃ ge, readStoredGrant record = some ge ∧ r.semanticHash sha256 = .ok ge.requestHash := by
  simp only [storedGrantMatchesRequest, bind_eq_ok_iff, orFail_eq_ok_iff] at h
  obtain ⟨ge, hge, h⟩ := h
  refine ⟨ge, hge, ?_⟩
  rw [if_pos hv] at h
  split_ifs at h
  · cases h
  · cases h
  · simp only [bind_eq_ok_iff, mapError_eq_ok_iff] at h
    obtain ⟨t, ht, heq⟩ := h
    have hrequest : ge.requestHash = t := of_decide_eq_true (Except.ok.inj heq)
    rw [hrequest, ht]

/-- Two valid requests of the second version have one signed preimage exactly if they agree on
everything but the signature and the broker, and one subject exactly if they agree on everything
but these and the times; the class counts with its default. So a stored grant of the one matches
the other only if they are one request, up to a collision of the hash. -/
theorem framing_exact (r r' : Request) (record : CanonValue)
    (hv : r.popVersion = 2) (hv' : r'.popVersion = 2)
    (h : r.validate sha256 historical ed = .ok ()) (h' : r'.validate sha256 historical ed = .ok ())
    (hrecord : CommitsGrant sha256 record r) :
    (r.v2ChallengePreimage = r'.v2ChallengePreimage ↔ r.semantic = r'.semantic) ∧
      (r.v2Subject = r'.v2Subject ↔ r.subject = r'.subject) ∧
      (storedGrantMatchesRequest sha256 lower wholeSeconds record r' = .ok true →
        r.subject = r'.subject ∨
          ∃ b b', r.v2Subject = .ok b ∧ r'.v2Subject = .ok b' ∧ b ≠ b' ∧ sha256 b = sha256 b') := by
  have hvalid := validateV2_of_validate hv h
  have hvalid' := validateV2_of_validate hv' h'
  refine ⟨v2ChallengePreimage_eq_iff hv hv' hvalid hvalid', v2Subject_eq_iff hv hv' hvalid hvalid',
    fun hmatch => ?_⟩
  obtain ⟨ge, t, hge, ht, hrequest⟩ := hrecord
  obtain ⟨ge', hge', hhash⟩ := semanticHash_of_matches hv' hmatch
  obtain rfl := Option.some.inj (hge.symm.trans hge')
  obtain ⟨-, b, hb, hroot⟩ := semanticHash_eq_ok_iff.mp ht
  obtain ⟨-, b', hb', hroot'⟩ := semanticHash_eq_ok_iff.mp hhash
  have hsha : sha256 b = sha256 b' :=
    rootText_injective (hroot.trans (hrequest.symm.trans hroot'.symm))
  by_cases hbb : b = b'
  · refine Or.inl (subject_eq_of_v2Subject hv hv' hvalid hvalid' ?_)
    rw [hb, hb', hbb]
  · exact Or.inr ⟨b, b', hb, hb', hbb, hsha⟩

/-- A request for one operation, good for an hour. -/
def sample : Request where
  popVersion := 2
  projectId := "p"
  idempotencyKey := "k"
  sessionId := "s"
  issuedAt := 1700000000
  requestExpiresAt := 1700000600
  agentId := "agent"
  action := "db.query"
  resource := "orders"
  scope := "read:orders"
  scopeClass := ""
  useLimit := 0
  agentPubKey := blankKeyText
  agentSig := blankSigText
  principal := "policy"
  delegationChain := ["caller", "agent"]
  justification := ""
  ttl := 3600000000000
  brokerId := ""

/-- The record of the grant that is issued for it. -/
def sampleGrant : CanonValue :=
  .obj [("extensions", .obj [("broker", .obj [("kind", .str "grant"), ("grant_evidence", .obj
    [("pop_version", .int 2), ("project_id", .str "p"),
      ("request_hash", .str (rootText (blankHash [])))])])])]

theorem validate_sample : sample.validate blankHash (fun _ => []) anySig = .ok () := by
  decide +kernel

/-- The broker's name is not signed. -/
theorem framing_exact_sample :
    sample.v2ChallengePreimage = { sample with brokerId := "b" }.v2ChallengePreimage := by
  have hcommits : CommitsGrant blankHash sampleGrant sample := by
    obtain ⟨⟨b, hb⟩, -⟩ := of_validateV2 (validateV2_of_validate rfl validate_sample)
    exact ⟨_, _, rfl, semanticHash_eq_ok_iff.mpr ⟨rfl, b, hb, rfl⟩, rfl⟩
  have hexact := @framing_exact blankHash (fun _ => []) anySig id (fun _ => 0) sample
    { sample with brokerId := "b" } sampleGrant rfl rfl validate_sample (by decide +kernel) hcommits
  exact hexact.1.mpr rfl

end Request

end Broker

end Averin
