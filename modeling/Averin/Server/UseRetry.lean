import Averin.Server.Use
import Averin.Store.Records
import Averin.Verify.Approvals
import Averin.Verify.RevocationProof

/-!
# Retries of a use

A use that was committed is answered again from its receipt, without another look at the clock,
the revocations or what was consumed, as long as the request is the same; another request under
its key is turned away. The receipt holds the number of a counted use as a double, so this holds
of the numbers that come through a double unchanged.
-/

namespace Averin

/-- The store and the ledger of claims a use works on. -/
structure UseState where
  project : Project := {}
  claims : Table LedgerKey String := ∅

/-- What the handler reads before its transaction. -/
structure UseReads where
  looked : Project
  voidRead : Project
  unix : Int

/-- The answer to a use request. One that collapsed is answered from the row it collapsed on. -/
inductive UseReply where
  | badParams
  | conflict
  | refused (r : UseRefusal)
  | failed (f : UseFailure)
  | collapsed
  | answered (record : CanonValue) (grantId : String) (idempotent : Bool)

/-- Take the claims of a use, the nonce first. Where the second is not free the first is given
back. -/
def Preflight.consume (c : Preflight) (claims : Table LedgerKey String) (nonce : NonceClaim)
    (jtiOwner : String) : Except UseRefusal (Table LedgerKey String) := do
  require ((claims.lookup (LedgerClaim.nonce nonce).key).isNone) .nonceReplay
  let claims := claims.insert (LedgerClaim.nonce nonce).key nonce.owner
  if c.spends then
    let jti ← c.jtiClaim jtiOwner
    require ((claims.lookup (LedgerClaim.jti jti).key).isNone) .doubleSpend
    return claims.insert (LedgerClaim.jti jti).key jti.owner
  else return claims

/-- The answer where the receipt is not stored. -/
def UseFailure.reply : UseFailure → UseReply
  | collapsed true => .collapsed
  | collapsed false => .conflict
  | sealing (.store (.recordIDConflict _)) => .conflict
  | f => .failed f

section Handler

variable {ed : Ed25519} (C : ResourceCore ed)

/-- The write transaction of a use. Only a stored receipt leaves anything behind. -/
def ResourceCore.useTransaction (s : UseState) (u : UseInvocation) (commitment : String) :
    UseReply × UseState :=
  match C.startUse s.project u commitment with
  | .answered record grantId => (.answered record grantId true, s)
  | .conflict => (.conflict, s)
  | .refused r => (.refused r, s)
  | .consume c nonce =>
    match c.consume s.claims nonce u.jtiOwner with
    | .error r => (.refused r, s)
    | .ok claims =>
      match C.recordUse s.project u c commitment with
      | .error f => (f.reply, s)
      | .ok (stored, p) => (.answered stored c.claims.jti false, ⟨p, claims⟩)

/-- Both phases of a use. What is stored under the key is looked up first; what would be refused
anyway does not reach the transaction. -/
def ResourceCore.handleUsePhase (reads : UseReads) (s : UseState) (u : UseInvocation) :
    UseReply × UseState :=
  let r := u.request
  match C.paramsCommitment r with
  | none => (.badParams, s)
  | some commitment =>
    match reads.looked.recordByIdem r.idem with
    | some prior =>
      if C.priorUseMatchesRequest prior.json r u.kind commitment then
        (.answered prior.json (jsonText prior.json ["authority", "grant_id"]) true, s)
      else (.conflict, s)
    | none =>
      match preflightUse C.sha256 ed (C.shim r) r.capability r.useSig (r.op commitment) r.nonce
        reads.unix with
      | .error e => (.refused e, s)
      | .ok c =>
        if reads.voidRead.terminalGrantVoided r.projectId c.claims.jti then
          (.refused (.revoked c.claims.jti), s)
        else C.useTransaction s u commitment

/-- What happens to the project and the ledger: a use, any other call to the store, or any change
of the claims by others. -/
inductive UseEvent where
  | request (reads : UseReads) (u : UseInvocation)
  | call (c : StoreCall)
  | claims (t : Table LedgerKey String)

/-- One event. -/
def ResourceCore.stepUse (s : UseState) : UseEvent → UseState
  | .request reads u => (C.handleUsePhase reads s u).2
  | .call c => { s with project := s.project.call c }
  | .claims t => { s with claims := t }

/-- The state after some events. -/
def ResourceCore.runUses (s : UseState) (events : List UseEvent) : UseState :=
  events.foldl C.stepUse s

end Handler

variable {ed : Ed25519} {C : ResourceCore ed}

/-- A receipt that was stored, with what it was built from and where it stands. -/
structure RecordedUse (C : ResourceCore ed) (p : Project) (u : UseInvocation) (c : Preflight)
    (commitment : String) (stored : CanonValue) (p' : Project) (body : CanonValue) : Prop where
  built : C.buildUseRecord u (c.evidence C.sha256 (C.shim u.request) (u.request.op commitment)
    u.request.nonce) commitment p.allocateAuthorizationOrder.1 = some body
  sealed : C.sealer.sealRecord p.allocateAuthorizationOrder.2 u.request.sessionId body = some stored
  jti : c.claims.jti ≠ ""
  calls : ∃ cs, p' = p.calls cs
  known : p.RowInv → u.request.idem ≠ "" → ∃ rec, p'.known u.request.idem = some rec ∧
    rec.json = stored

/-- A sealed body that was written anew is the row it was written as. -/
theorem sealCounted_created {quota : Nat} {S : Sealer} {p p' : Project} {sessionId idem : String}
    {body stored : CanonValue} {disclosures : List DisclosureSecret}
    (h : sealCounted quota S p sessionId idem body disclosures = .ok ((stored, true), p')) :
    ∃ rec, S.sealRecord p sessionId body = some stored ∧ rec.json = stored ∧
      p.putRecord idem rec = .ok ((rec, true), p') := by
  unfold sealCounted at h
  split at h
  · cases h
  · next stored' created p₂ hstore =>
    split_ifs at h
    obtain ⟨⟨rfl, rfl⟩, rfl⟩ := by simpa using h
    unfold sealAndStore at hstore
    split at hstore
    · cases hstore
    · next sealed hsealed =>
      split at hstore
      · cases hstore
      · next row created p₃ hput =>
        obtain ⟨⟨rfl, rfl⟩, rfl⟩ := by simpa using hstore
        obtain ⟨rfl, -⟩ := Project.putRecord_created hput
        exact ⟨_, hsealed, rfl, hput⟩

/-- Keeping a receipt that succeeds is the call. -/
theorem call_putAuthorizationReceipt {p p' : Project} {r : AuthorizationReceipt}
    (h : p.putAuthorizationReceipt r = .ok p') : p.call (.putAuthorizationReceipt r) = p' := by
  change p.after ((p.putAuthorizationReceipt r).map (((), ·))) = p'
  rw [h]
  rfl

/-- What a recorded use left, and where it stands. -/
theorem recordUse_cases {p p' : Project} {u : UseInvocation} {c : Preflight} {commitment : String}
    {stored : CanonValue} (h : C.recordUse p u c commitment = .ok (stored, p')) :
    ∃ body, RecordedUse C p u c commitment stored p' body := by
  unfold ResourceCore.recordUse at h
  dsimp only at h
  split at h
  · cases h
  · next body hbody =>
    split at h
    · cases h
    · next stored' created p₂ hseal =>
      by_cases hcreated : created = false
      · rw [if_pos hcreated] at h
        cases h
      · rw [if_neg hcreated] at h
        rw [Bool.not_eq_false] at hcreated
        subst hcreated
        split at h
        · cases h
        · next p₃ hput =>
          obtain ⟨rfl, rfl⟩ := Prod.mk.inj (Except.ok.inj h)
          obtain ⟨rec, hsealed, hjson, hrec⟩ := sealCounted_created hseal
          obtain ⟨receipt, hreceipt, hgrantId⟩ :
              ∃ r, p₂.putAuthorizationReceipt r = .ok p₃ ∧ r.grantId = c.claims.jti :=
            ⟨_, hput, rfl⟩
          obtain ⟨-, -, -, hgrant, -⟩ := Project.putAuthorizationReceipt_cases hreceipt
          have hdraw : p.call .allocateAuthorizationOrder = p.allocateAuthorizationOrder.2 := rfl
          refine ⟨body, hbody, hsealed, hgrantId ▸ hgrant, ⟨[.allocateAuthorizationOrder,
            .op (.putRecord u.request.idem rec), .putAuthorizationReceipt receipt], ?_⟩, ?_⟩
          · rw [Project.calls, List.foldl_cons, List.foldl_cons, List.foldl_cons, List.foldl_nil,
              hdraw, Project.call_putRecord hrec, call_putAuthorizationReceipt hreceipt]
          · intro hinv hidem
            obtain ⟨hinv₁, -⟩ := hinv.call .allocateAuthorizationOrder
            rw [hdraw] at hinv₁
            have hwrites := hinv₁.writes u.request.idem rec
            unfold Project.Writes at hwrites
            rw [hrec] at hwrites
            obtain ⟨hinv₂, -⟩ := hinv₁.call (.op (.putRecord u.request.idem rec))
            rw [Project.call_putRecord hrec] at hinv₂
            obtain ⟨hinv₃, hlater⟩ := hinv₂.call (.putAuthorizationReceipt receipt)
            rw [call_putAuthorizationReceipt hreceipt] at hinv₃ hlater
            exact ⟨rec, hinv₂.known_later hinv₃ hlater (hwrites.2.2.1 hidem), hjson⟩

/-- What the body of a receipt says of its use. -/
structure ReceiptOf (C : ResourceCore ed) (u : UseInvocation) (ev : UseEvidence)
    (commitment : String) (ordinal : Int) (raw useEvidence : CanonValue) : Prop where
  evidence : ev.toJson u.kind.text u.request.projectId ordinal = some useEvidence
  recordId : raw.get "record_id" = some (.str (C.useId u.request))
  projectId : raw.get "project_id" = some (.str u.request.projectId)
  sessionId : raw.get "session_id" = some (.str u.request.sessionId)
  inputCommit : raw.get "input_commit" = some (.obj [("alg", .str "sha256"),
    ("commitment", .str commitment), ("low_entropy", .bool true)])
  extensions : raw.get "extensions" = some (.obj [("broker", .obj [("kind", .str u.kind.text),
    ("grant_id", .str ev.grantId), ("resource_id", .str ev.resourceId),
    ("use_evidence", useEvidence)])])
  grantId : (raw.get "authority").bind (·.get "grant_id") = some (.str ev.grantId)

/-- The identifier of a use is not empty. -/
theorem useId_ne (r : UseRequest) : C.useId r ≠ "" := by
  intro h
  have hlen := congrArg String.length h
  rw [ResourceCore.useId, String.length_append] at hlen
  simp at hlen

/-- The body that is built is a receipt of the use. -/
theorem receiptOf_built {u : UseInvocation} {ev : UseEvidence} {commitment : String} {ordinal : Int}
    {body : CanonValue} (h : C.buildUseRecord u ev commitment ordinal = some body) :
    ∃ useEvidence, ReceiptOf C u ev commitment ordinal body useEvidence := by
  unfold ResourceCore.buildUseRecord at h
  obtain ⟨useEvidence, hevidence, h⟩ := Option.bind_eq_some_iff.mp h
  obtain ⟨evidenceHash, -, h⟩ := Option.bind_eq_some_iff.mp h
  refine ⟨useEvidence, hevidence, ?_, ?_, ?_, ?_, ?_, ?_⟩
  · rw [get_signLocalAuthorityV3_recordId h (useId_ne u.request)]
    rfl
  · rw [get_signLocalAuthorityV3 h rfl (by decide) (by decide)]
    rfl
  · rw [get_signLocalAuthorityV3 h rfl (by decide) (by decide)]
    rfl
  · rw [get_signLocalAuthorityV3 h rfl (by decide) (by decide)]
    rfl
  · rw [get_signLocalAuthorityV3 h rfl (by decide) (by decide)]
    rfl
  · rw [get_authority_signLocalAuthorityV3 h rfl (by decide) (by decide) (by decide)]
    rfl

/-- The sealed receipt says the same. -/
theorem ReceiptOf.sealed {u : UseInvocation} {ev : UseEvidence} {commitment : String}
    {ordinal : Int} {body useEvidence stored : CanonValue} {p : Project} {sessionId : String}
    (h : ReceiptOf C u ev commitment ordinal body useEvidence)
    (hsealed : C.sealer.sealRecord p sessionId body = some stored) :
    ReceiptOf C u ev commitment ordinal stored useEvidence := by
  have hkeeps := C.sealer.keeps p sessionId body stored hsealed
    (by rw [h.extensions]; rfl)
  refine ⟨h.evidence, ?_, ?_, ?_, ?_, ?_, ?_⟩
  · rw [C.sealer.keepsId p sessionId body stored hsealed]
    · exact h.recordId
    · rw [textField, h.recordId]
      exact useId_ne u.request
  · rw [hkeeps _ (by decide), h.projectId]
  · rw [hkeeps _ (by decide), h.sessionId]
  · rw [hkeeps _ (by decide), h.inputCommit]
  · rw [hkeeps _ (by decide), h.extensions]
  · rw [hkeeps _ (by decide), h.grantId]

/-- A number is read back as its double. -/
theorem evidenceNumber_decoded {n : Int} {v : CanonValue} (h : evidenceNumber n = some v) :
    decodeInt (some v) = some (Float64.rewritten n) := by
  have hint := asInt_jsonInt h
  cases v with
  | int m => exact hint
  | null | bool _ | str _ | arr _ | obj _ => cases hint

/-- The members of the evidence that a retry is compared by. -/
theorem toJson_decoded {ev : UseEvidence} {kind projectId : String} {ordinal : Int}
    {useEvidence : CanonValue} (h : ev.toJson kind projectId ordinal = some useEvidence) :
    ∃ members, useEvidence = .obj members ∧
      (∀ m ∈ [("grant_id", ev.grantId), ("action", ev.action), ("resource_id", ev.resourceId),
          ("jti", ev.jti), ("nonce", ev.nonce), ("pop_challenge_hash", ev.popChallengeHash),
          ("cnf_pub", ev.cnfPub), ("use_sig", ev.useSig)],
        useEvidence.get m.1 = some (.str m.2)) ∧
      decodeInt (useEvidence.get "use_sequence_number") =
        some (Float64.rewritten ev.useSequenceNumber) := by
  unfold UseEvidence.toJson at h
  obtain ⟨usedAt, -, h⟩ := Option.bind_eq_some_iff.mp h
  dsimp only at h
  split_ifs at h with hzero
  · obtain ⟨number, hnumber, h⟩ := Option.bind_eq_some_iff.mp h
    obtain rfl := Option.some.inj hnumber
    obtain ⟨order, -, h⟩ := Option.bind_eq_some_iff.mp h
    obtain rfl := Option.some.inj h
    refine ⟨_, rfl, by simp [CanonValue.get, CanonValue.member], ?_⟩
    rw [hzero]
    rfl
  · obtain ⟨number, hnumber, h⟩ := Option.bind_eq_some_iff.mp h
    obtain ⟨order, -, h⟩ := Option.bind_eq_some_iff.mp h
    obtain rfl := Option.some.inj h
    obtain ⟨n, hn, rfl⟩ := Option.map_eq_some_iff.mp hnumber
    exact ⟨_, rfl, by simp [CanonValue.get, CanonValue.member], evidenceNumber_decoded hn⟩

theorem decodeStr_of_get {v : CanonValue} {k text : String} (h : v.get k = some (.str text)) :
    decodeStr (v.get k) = some text := by
  rw [h]
  rfl

/-- A receipt read back. -/
theorem ReceiptOf.decoded {u : UseInvocation} {ev : UseEvidence} {commitment : String}
    {ordinal : Int} {raw useEvidence : CanonValue}
    (h : ReceiptOf C u ev commitment ordinal raw useEvidence) :
    decodeStoredUse raw = some {
      projectId := u.request.projectId
      authorityGrant := ev.grantId
      commitment := commitment
      grantId := ev.grantId
      jti := ev.jti
      resourceId := ev.resourceId
      action := ev.action
      nonce := ev.nonce
      useSig := ev.useSig
      cnfPub := ev.cnfPub
      popChallengeHash := ev.popChallengeHash
      useSequenceNumber := Float64.rewritten ev.useSequenceNumber } := by
  obtain ⟨members, rfl, htexts, hnumber⟩ := toJson_decoded h.evidence
  simp only [List.forall_mem_cons] at htexts
  obtain ⟨hgrant, haction, hresource, hjti, hnonce, hpop, hcnf, hsig, -⟩ := htexts
  obtain ⟨authority, hauthority, hgrantId⟩ := Option.bind_eq_some_iff.mp h.grantId
  obtain ⟨fields, rfl⟩ : ∃ fields, authority = .obj fields := by
    cases authority with
    | obj fields => exact ⟨fields, rfl⟩
    | null | bool _ | int _ | str _ | arr _ => cases hgrantId
  -- The nested objects first, then the members in the order they are read.
  refine Option.bind_eq_some_iff.mpr ⟨fields, by rw [hauthority]; rfl, ?_⟩
  refine Option.bind_eq_some_iff.mpr ⟨_, by rw [h.inputCommit]; rfl, ?_⟩
  refine Option.bind_eq_some_iff.mpr ⟨_, by rw [h.extensions]; rfl, ?_⟩
  refine Option.bind_eq_some_iff.mpr ⟨_, rfl, ?_⟩
  refine Option.bind_eq_some_iff.mpr ⟨members, rfl, ?_⟩
  refine Option.bind_eq_some_iff.mpr ⟨_, decodeStr_of_get h.projectId, ?_⟩
  refine Option.bind_eq_some_iff.mpr ⟨_, decodeStr_of_get hgrantId, ?_⟩
  refine Option.bind_eq_some_iff.mpr ⟨commitment, rfl, ?_⟩
  refine Option.bind_eq_some_iff.mpr ⟨_, decodeStr_of_get hgrant, ?_⟩
  refine Option.bind_eq_some_iff.mpr ⟨_, decodeStr_of_get hjti, ?_⟩
  refine Option.bind_eq_some_iff.mpr ⟨_, decodeStr_of_get hresource, ?_⟩
  refine Option.bind_eq_some_iff.mpr ⟨_, decodeStr_of_get haction, ?_⟩
  refine Option.bind_eq_some_iff.mpr ⟨_, decodeStr_of_get hnonce, ?_⟩
  refine Option.bind_eq_some_iff.mpr ⟨_, decodeStr_of_get hsig, ?_⟩
  refine Option.bind_eq_some_iff.mpr ⟨_, decodeStr_of_get hcnf, ?_⟩
  refine Option.bind_eq_some_iff.mpr ⟨_, decodeStr_of_get hpop, ?_⟩
  exact Option.bind_eq_some_iff.mpr ⟨_, hnumber, rfl⟩

/-- What a preflight that passes has checked. -/
structure PreflightPassed (sha256 : List UInt8 → Vector UInt8 32) (ed : Ed25519) (s : Shim)
    (token useSigB64 : String) (op : Op) (nonce : String) (c : Preflight) : Prop where
  issued : verifyCapability ed token s.issuingPub = .ok c.claims
  version : c.claims.version = 2
  project : c.claims.projectId = s.projectId
  audience : c.claims.aud = s.resourceId
  action : op.action = c.claims.act
  cnf : B64.lenientFixed 32 c.claims.cnf = some c.cnfPub
  useSig : B64.lenientFixed 64 useSigB64 = some c.useSig
  possession : ed.verifyStrict c.cnfPub c.challenge.toList c.useSig = true
  bound : ∃ binding, credentialBindingOf sha256 token = .ok binding ∧
    c.challenge = usePopChallenge sha256 c.claims.jti s.resourceId op.action op.paramsCommitment
      binding nonce
  sequence : 0 < c.claims.useLimit →
    1 ≤ op.useSequenceNumber ∧ op.useSequenceNumber ≤ c.claims.useLimit
  useSeq : c.useSeq = usedSequence c.claims op

/-- What a use has that passes. -/
theorem preflightUse_passed {sha256 : List UInt8 → Vector UInt8 32} {s : Shim}
    {token useSigB64 : String} {op : Op} {nonce : String} {unix : Int} {c : Preflight}
    (h : preflightUse sha256 ed s token useSigB64 op nonce unix = .ok c) :
    PreflightPassed sha256 ed s token useSigB64 op nonce c := by
  simp only [preflightUse, bind_eq_ok_iff, require_eq_ok_iff, orFail_eq_ok_iff] at h
  obtain ⟨claims, hclaims, ⟨⟩, hproject, -, -, ⟨⟩, haud, ⟨⟩, haction, -, -, cnfPub, hcnf, binding,
    hbinding, useSig, hsig, ⟨⟩, hpossession, ⟨⟩, hsequence, h⟩ := h
  obtain rfl := Except.ok.inj h
  have hversion : claims.version = 2 ∧ claims.projectId = s.projectId := by
    unfold checkProject at hproject
    rw [bind_eq_ok_iff] at hproject
    obtain ⟨-, -, hproject⟩ := hproject
    split_ifs at hproject with hv
    exact ⟨hv, (require_eq_ok_iff.mp hproject).2⟩
  exact {
    issued := hclaims
    version := hversion.1
    project := hversion.2
    audience := haud
    action := haction.2
    cnf := hcnf
    useSig := hsig
    possession := hpossession
    bound := ⟨binding, hbinding, rfl⟩
    sequence := require_eq_ok_iff.mp hsequence
    useSeq := rfl }

/-- A request has the operation of a stored receipt. -/
structure StoredMatch (C : ResourceCore ed) (r : UseRequest) (commitment : String) (s : StoredUse)
    (claims : Claims) : Prop where
  issued : verifyCapability ed r.capability C.brokerPub = .ok claims
  version : claims.version = 2
  project : s.projectId = r.projectId ∧ claims.projectId = s.projectId
  sequence : some s.useSequenceNumber = effectiveSequence claims r
  action : s.action = r.action ∧ claims.act = s.action
  nonce : s.nonce = r.nonce
  params : s.commitment = commitment
  jti : claims.jti ≠ "" ∧ claims.jti = s.authorityGrant ∧ claims.jti = s.grantId ∧
    claims.jti = s.jti
  resource : claims.aud = C.resourceId ∧ claims.aud = s.resourceId
  cnf : claims.cnf ≠ "" ∧ claims.cnf = s.cnfPub
  possession : ∃ useSig cnfPub binding, B64.lenientFixed 64 r.useSig = some useSig ∧
    B64.lenientFixed 32 claims.cnf = some cnfPub ∧
    credentialBindingOf C.sha256 r.capability = .ok binding ∧
    B64.encode useSig.toList = s.useSig ∧
    s.popChallengeHash = rootText (usePopChallenge C.sha256 claims.jti s.resourceId s.action
      commitment binding r.nonce) ∧
    ed.verifyStrict cnfPub (usePopChallenge C.sha256 claims.jti s.resourceId s.action commitment
      binding r.nonce).toList useSig = true

/-- A stored use matches when all its fields do. -/
theorem storedUseMatchesRequest_iff {raw : CanonValue} {r : UseRequest} {commitment : String} :
    C.storedUseMatchesRequest raw r commitment = true ↔
      ∃ s claims, decodeStoredUse raw = some s ∧ StoredMatch C r commitment s claims := by
  unfold ResourceCore.storedUseMatchesRequest
  constructor
  · intro h
    split at h
    · next claims s hissued hs =>
      split_ifs at h with hproject hsequence hfields
      split at h
      · next useSig cnfPub binding hsig hcnf hbinding =>
        simp only [not_or, not_not] at hproject hsequence hfields
        obtain ⟨hversion, hp, hp'⟩ := hproject
        obtain ⟨ha, hn, hc, hj, hj1, hj2, hj3, hr1, hr2, ha', hcnf1, hcnf2⟩ := hfields
        simp only [Bool.and_eq_true, decide_eq_true_eq] at h
        exact ⟨s, claims, hs, hissued, hversion, ⟨hp, hp'⟩, hsequence, ⟨ha, ha'⟩, hn, hc,
          ⟨hj, hj1, hj2, hj3⟩, ⟨hr1, hr2⟩, ⟨hcnf1, hcnf2⟩, useSig, cnfPub, binding, hsig, hcnf,
          hbinding, h.1.1, h.1.2, h.2⟩
      · cases h
    · cases h
  · rintro ⟨s, claims, hs, h⟩
    obtain ⟨useSig, cnfPub, binding, hsig, hcnf, hbinding, hencode, hchallenge, hverify⟩ :=
      h.possession
    rw [h.issued, hs]
    dsimp only
    rw [if_neg (by simp only [not_or, not_not]; exact ⟨h.version, h.project⟩),
      if_neg (not_not.mpr h.sequence), if_neg, hsig, hcnf, hbinding]
    · dsimp only
      simp only [Bool.and_eq_true, decide_eq_true_eq]
      exact ⟨⟨hencode, hchallenge⟩, hverify⟩
    · simp only [not_or, not_not]
      exact ⟨h.action.1, h.nonce, h.params, h.jti.1, h.jti.2.1, h.jti.2.2.1, h.jti.2.2.2,
        h.resource.1, h.resource.2, h.action.2, h.cnf.1, h.cnf.2⟩

theorem useTransaction_calls (s : UseState) (u : UseInvocation) (commitment : String) :
    ∃ cs, (C.useTransaction s u commitment).2.project = s.project.calls cs := by
  unfold ResourceCore.useTransaction
  split
  · exact ⟨[], rfl⟩
  · exact ⟨[], rfl⟩
  · exact ⟨[], rfl⟩
  · split
    · exact ⟨[], rfl⟩
    · split
      · exact ⟨[], rfl⟩
      · next stored p hrecord =>
        obtain ⟨body, hbody⟩ := recordUse_cases hrecord
        exact hbody.calls

theorem stepUse_calls (s : UseState) (e : UseEvent) :
    ∃ cs, (C.stepUse s e).project = s.project.calls cs := by
  cases e with
  | request reads u =>
    unfold ResourceCore.stepUse ResourceCore.handleUsePhase
    dsimp only
    split
    · exact ⟨[], rfl⟩
    · split
      · split_ifs <;> exact ⟨[], rfl⟩
      · split
        · exact ⟨[], rfl⟩
        · split_ifs
          · exact ⟨[], rfl⟩
          · exact useTransaction_calls s u _
  | call c => exact ⟨[c], rfl⟩
  | claims t => exact ⟨[], rfl⟩

/-- Rows only come in, whatever happens. -/
theorem runUses_rows {s : UseState} (h : s.project.RowInv) (events : List UseEvent) :
    (C.runUses s events).project.RowInv ∧ s.project.RowsLater (C.runUses s events).project := by
  induction events generalizing s with
  | nil => exact ⟨h, Project.RowsLater.refl _⟩
  | cons e events ih =>
    obtain ⟨cs, hcs⟩ := stepUse_calls (C := C) s e
    obtain ⟨hinv, hlater⟩ := h.calls cs
    rw [← hcs] at hinv hlater
    obtain ⟨hinv', hlater'⟩ := ih hinv
    exact ⟨hinv', hlater.trans hlater'⟩

/-- The payload of a capability. -/
def capabilityPayload (token : String) : Option (List UInt8) :=
  (cutDot token).bind fun parts => B64.lenientDecode parts.1

/-- The bytes behind the commitment to the parameters. -/
def UseRequest.paramsPreimage (r : UseRequest) : Option (List UInt8) :=
  (hex32 r.paramsNonce).bind fun nonce =>
    (commitPreimage .input (bytes r.params) nonce.toList).toOption

/-- The commitment is the hash of its preimage. -/
theorem paramsCommitment_eq (r : UseRequest) :
    C.paramsCommitment r = r.paramsPreimage.map fun pre => rootText (C.sha256 pre) := by
  unfold ResourceCore.paramsCommitment commitText UseRequest.paramsPreimage
  cases hex32 r.paramsNonce with
  | none => rfl
  | some nonce =>
    simp only [Option.bind_eq_bind, Option.bind_some]
    cases (commitPreimage .input (bytes r.params) nonce.toList).toOption <;> rfl

/-- The binding is the hash of the payload. -/
theorem credentialBindingOf_eq_ok_iff {sha256 : List UInt8 → Vector UInt8 32}
    {token binding : String} : credentialBindingOf sha256 token = .ok binding ↔
      ∃ payload, capabilityPayload token = some payload ∧ binding = rootText (sha256 payload) := by
  simp only [credentialBindingOf, bind_eq_ok_iff, orFail_eq_ok_iff, capabilityPayload,
    Option.bind_eq_some_iff]
  constructor
  · rintro ⟨parts, hparts, payload, hpayload, hbinding⟩
    exact ⟨payload, ⟨parts, hparts, hpayload⟩, (Except.ok.inj hbinding).symm⟩
  · rintro ⟨payload, ⟨parts, hparts, hpayload⟩, rfl⟩
    exact ⟨parts, hparts, payload, hpayload, rfl⟩

/-- A capability that verifies has its payload. -/
theorem payload_of_verifyCapability {token : String} {issuingPub : Vector UInt8 32}
    {claims : Claims} (h : verifyCapability ed token issuingPub = .ok claims) :
    ∃ payload, capabilityPayload token = some payload ∧ unmarshalClaims payload = some claims := by
  simp only [verifyCapability, bind_eq_ok_iff, orFail_eq_ok_iff] at h
  obtain ⟨parts, hparts, -, -, -, -, payload, hpayload, hclaims⟩ := h
  exact ⟨payload, Option.bind_eq_some_iff.mpr ⟨parts, hparts, hpayload⟩, hclaims⟩

/-- The bytes behind the challenge of a request. -/
def ResourceCore.challengePreimage (C : ResourceCore ed) (r : UseRequest) : Option (List UInt8) :=
  match verifyCapability ed r.capability C.brokerPub, C.paramsCommitment r,
    credentialBindingOf C.sha256 r.capability with
  | .ok claims, some commitment, .ok binding =>
    some (usePopPreimage claims.jti C.resourceId r.action commitment binding r.nonce)
  | _, _, _ => none

/-- A value comes of a success. -/
theorem eq_ok_of_toOption {ε α : Type} {x : Except ε α} {a : α} (h : x.toOption = some a) :
    x = .ok a := by
  cases x with
  | error e => cases h
  | ok b => exact congrArg _ (Option.some.inj h)

/-- All that is hashed to recognize a request. -/
def ResourceCore.hashed (C : ResourceCore ed) (r : UseRequest) : List (List UInt8) :=
  r.paramsPreimage.toList ++ (capabilityPayload r.capability).toList ++
    (C.challengePreimage r).toList

theorem mem_hashed_params {r : UseRequest} {pre : List UInt8} (h : r.paramsPreimage = some pre) :
    pre ∈ C.hashed r := by
  simp [ResourceCore.hashed, h]

theorem mem_hashed_payload {r : UseRequest} {payload : List UInt8}
    (h : capabilityPayload r.capability = some payload) : payload ∈ C.hashed r := by
  simp [ResourceCore.hashed, h]

theorem mem_hashed_challenge {r : UseRequest} {claims : Claims} {commitment binding : String}
    (hissued : verifyCapability ed r.capability C.brokerPub = .ok claims)
    (hparams : C.paramsCommitment r = some commitment)
    (hbinding : credentialBindingOf C.sha256 r.capability = .ok binding) :
    usePopPreimage claims.jti C.resourceId r.action commitment binding r.nonce ∈ C.hashed r := by
  simp [ResourceCore.hashed, ResourceCore.challengePreimage, hissued, hparams, hbinding]

/-- A commitment to parameters has one value and one nonce behind it. -/
theorem commitPreimage_inj {domain : FieldDomain} {value value' : List UInt8}
    {nonce nonce' : Vector UInt8 32} {pre : List UInt8}
    (h : commitPreimage domain value nonce.toList = .ok pre)
    (h' : commitPreimage domain value' nonce'.toList = .ok pre) :
    value = value' ∧ nonce = nonce' := by
  have hparts : ∀ {v : List UInt8} {n : Vector UInt8 32},
      commitPreimage domain v n.toList = .ok pre → ∃ tag field, lpStrInto commitTag = some tag ∧
        lpStrInto domain.asStr = some field ∧
          pre = tag ++ field ++ framed 4 n.toList ++ framed 4 v := by
    intro v n hv
    obtain ⟨-, -, hbytes⟩ := bind_eq_ok_iff.mp hv
    rw [orFail_eq_ok_iff] at hbytes
    obtain ⟨tag, htag, hbytes⟩ := Option.bind_eq_some_iff.mp hbytes
    obtain ⟨field, hfield, hbytes⟩ := Option.bind_eq_some_iff.mp hbytes
    obtain ⟨n', hn, hbytes⟩ := Option.bind_eq_some_iff.mp hbytes
    obtain ⟨v', hv, hbytes⟩ := Option.bind_eq_some_iff.mp hbytes
    unfold lpInto at hn hv
    split_ifs at hn hv
    rw [← Option.some.inj hn, ← Option.some.inj hv] at hbytes
    exact ⟨tag, field, htag, hfield, (Option.some.inj hbytes).symm⟩
  obtain ⟨tag, field, htag, hfield, hpre⟩ := hparts h
  obtain ⟨tag', field', htag', hfield', hpre'⟩ := hparts h'
  obtain rfl := Option.some.inj (htag.symm.trans htag')
  obtain rfl := Option.some.inj (hfield.symm.trans hfield')
  have heq := hpre.symm.trans hpre'
  simp only [List.append_assoc] at heq
  have heq := List.append_cancel_left (List.append_cancel_left heq)
  have hlen : ∀ n : Vector UInt8 32, (framed 4 n.toList).length = 36 := by
    intro n
    rw [framed, List.length_append, length_beBytes, Vector.length_toList]
  obtain ⟨hnonce, hvalue⟩ := List.append_inj heq (by rw [hlen, hlen])
  exact ⟨framed_injective 4 hvalue, Vector.toList_inj.mp (framed_injective 4 hnonce)⟩

/-- In a challenge with all else given the descriptor is determined. -/
theorem usePopPreimage_binding {grantId resourceId action commitment binding binding' nonce :
    String} (h : usePopPreimage grantId resourceId action commitment binding nonce =
      usePopPreimage grantId resourceId action commitment binding' nonce) : binding = binding' := by
  simp only [usePopPreimage, List.flatMap_cons, List.flatMap_nil, List.append_nil] at h
  have h := List.append_cancel_left (List.append_cancel_left (List.append_cancel_left
    (List.append_cancel_left (List.append_cancel_left h))))
  exact bytes_injective (framed_injective 4 (List.append_cancel_right h))

/-- Two requests under one key ask for the same use. -/
structure SameUse (r r' : UseRequest) (kind kind' : UseKind) : Prop where
  sessionId : r'.sessionId = r.sessionId
  kind : kind' = kind
  action : r'.action = r.action
  nonce : r'.nonce = r.nonce
  params : r'.params = r.params
  paramsNonce : hex32 r'.paramsNonce = hex32 r.paramsNonce
  useSig : B64.lenientFixed 64 r'.useSig = B64.lenientFixed 64 r.useSig
  payload : capabilityPayload r'.capability = capabilityPayload r.capability
  sequence : ∀ claims, (capabilityPayload r.capability).bind unmarshalClaims = some claims →
    0 < claims.useLimit → r'.useSequenceNumber = r.useSequenceNumber

/-- From a state on, the request is answered with its stored record and no other request under
its key is. Neither changes anything. -/
structure ExactRetry (C : ResourceCore ed) (u : UseInvocation) (stored : CanonValue)
    (grantId : String) (looked : Project) (s : UseState) : Prop where
  same : ∀ reads u', reads.looked = looked → u'.request = u.request → u'.kind = u.kind →
    C.handleUsePhase reads s u' = (.answered stored grantId true, s)
  other : ∀ reads u', reads.looked = looked → u'.request.idem = u.request.idem →
    u'.request.projectId = u.request.projectId →
      ¬ SameUse u.request u'.request u.kind u'.kind →
      ¬ Collision C.sha256 (C.hashed u.request ++ C.hashed u'.request) →
        ∃ reply, (reply = .badParams ∨ reply = .conflict) ∧ C.handleUsePhase reads s u' = (reply, s)

/-- The key of the holder is spelled as it is encoded, and a counted use has a number that comes
through a double unchanged. -/
def ResourceCore.Repeatable (C : ResourceCore ed) (r : UseRequest) : Prop :=
  ∀ claims, verifyCapability ed r.capability C.brokerPub = .ok claims →
    B64.isSpelled 32 claims.cnf = true ∧
      (0 < claims.useLimit → Float64.rewritten r.useSequenceNumber = r.useSequenceNumber)

/-- A committed use: the request, its checked capability and the receipt it is found under. -/
structure CommittedUse (C : ResourceCore ed) (u : UseInvocation) (stored : CanonValue)
    (commitment : String) (c : Preflight) : Prop where
  params : C.paramsCommitment u.request = some commitment
  passed : PreflightPassed C.sha256 ed (C.shim u.request) u.request.capability u.request.useSig
    (u.request.op commitment) u.request.nonce c
  jti : c.claims.jti ≠ ""
  receipt : ∃ ordinal useEvidence, ReceiptOf C u (c.evidence C.sha256 (C.shim u.request)
    (u.request.op commitment) u.request.nonce) commitment ordinal stored useEvidence

/-- What a use that goes on has found. -/
theorem startUse_consume {p : Project} {u : UseInvocation} {commitment : String} {c : Preflight}
    {nonce : NonceClaim} (h : C.startUse p u commitment = .consume c nonce) :
    preflightUse C.sha256 ed (C.shim u.request) u.request.capability u.request.useSig
      (u.request.op commitment) u.request.nonce u.unix = .ok c := by
  unfold ResourceCore.startUse at h
  dsimp only at h
  split at h
  · split_ifs at h
  · split at h
    · cases h
    · next c' hpreflight =>
      split_ifs at h
      split at h
      · cases h
      · obtain ⟨rfl, -⟩ := UseStart.consume.inj h
        exact hpreflight

/-- A new record is only answered by a transaction that stored it. -/
theorem useTransaction_answered {s s' : UseState} {u : UseInvocation} {commitment grantId : String}
    {stored : CanonValue}
    (h : C.useTransaction s u commitment = (.answered stored grantId false, s')) :
    ∃ c nonce p, C.startUse s.project u commitment = .consume c nonce ∧
      C.recordUse s.project u c commitment = .ok (stored, p) ∧ grantId = c.claims.jti ∧
        s'.project = p := by
  unfold ResourceCore.useTransaction at h
  split at h
  · cases h
  · cases h
  · cases h
  · next c nonce hstart =>
    split at h
    · cases h
    · split at h
      · next f hf =>
        obtain ⟨hreply, -⟩ := Prod.mk.inj h
        unfold UseFailure.reply at hreply
        split at hreply <;> cases hreply
      · next stored' p hrecord =>
        obtain ⟨hreply, rfl⟩ := Prod.mk.inj h
        obtain ⟨rfl, rfl, -⟩ := UseReply.answered.inj hreply
        exact ⟨c, nonce, p, hstart, hrecord, rfl, rfl⟩

/-- What is answered as a new record has been committed, and is found under its key. -/
theorem committed_of_handleUsePhase {reads : UseReads} {s s' : UseState} {u : UseInvocation}
    {stored : CanonValue} {grantId : String} (hinv : s.project.RowInv)
    (hidem : u.request.idem ≠ "")
    (h : C.handleUsePhase reads s u = (.answered stored grantId false, s')) :
    ∃ commitment c, CommittedUse C u stored commitment c ∧ grantId = c.claims.jti ∧
      s'.project.RowInv ∧ ∃ rec, s'.project.known u.request.idem = some rec ∧
        rec.json = stored := by
  unfold ResourceCore.handleUsePhase at h
  dsimp only at h
  split at h
  · cases h
  · next commitment hparams =>
    split at h
    · split_ifs at h <;> cases h
    · split at h
      · cases h
      · split_ifs at h
        · cases h
        · obtain ⟨c, nonce, p, hstart, hrecord, rfl, hproject⟩ := useTransaction_answered h
          obtain ⟨body, hbody⟩ := recordUse_cases hrecord
          obtain ⟨useEvidence, hreceipt⟩ := receiptOf_built hbody.built
          obtain ⟨cs, hcs⟩ := hbody.calls
          rw [hproject]
          refine ⟨commitment, c, ⟨hparams, preflightUse_passed (startUse_consume hstart),
            hbody.jti, _, useEvidence, hreceipt.sealed hbody.sealed⟩, rfl, ?_,
            hbody.known hinv hidem⟩
          rw [hcs]
          exact (hinv.calls cs).1

/-- A use that passes every check is answered with its new record. -/
theorem handleUsePhase_of_recorded (reads : UseReads) (s : UseState) {u : UseInvocation}
    {commitment : String} {c c' : Preflight} {nonce : NonceClaim} {claims : Table LedgerKey String}
    {stored : CanonValue} {p : Project} (hparams : C.paramsCommitment u.request = some commitment)
    (hlooked : reads.looked.recordByIdem u.request.idem = none)
    (hfirst : preflightUse C.sha256 ed (C.shim u.request) u.request.capability u.request.useSig
      (u.request.op commitment) u.request.nonce reads.unix = .ok c')
    (hvoid : reads.voidRead.terminalGrantVoided u.request.projectId c'.claims.jti = false)
    (hfresh : s.project.recordByIdem u.request.idem = none)
    (hpreflight : preflightUse C.sha256 ed (C.shim u.request) u.request.capability
      u.request.useSig (u.request.op commitment) u.request.nonce u.unix = .ok c)
    (hlive : s.project.retired u.request.projectId c.claims.jti = false)
    (hnonce : Preflight.nonceClaim (C.shim u.request) u.request.nonce u.nonceOwner = .ok nonce)
    (hclaims : c.consume s.claims nonce u.jtiOwner = .ok claims)
    (hrecord : C.recordUse s.project u c commitment = .ok (stored, p)) :
    C.handleUsePhase reads s u = (.answered stored c.claims.jti false, ⟨p, claims⟩) := by
  have hstart : C.startUse s.project u commitment = .consume c nonce := by
    simp only [ResourceCore.startUse, hfresh, hpreflight, hlive, hnonce, Bool.false_eq_true,
      if_false]
  simp only [ResourceCore.handleUsePhase, hparams, hlooked, hfirst, hvoid, Bool.false_eq_true,
    if_false, ResourceCore.useTransaction, hstart, hclaims, hrecord]

/-- A counted use has its own number. -/
theorem effectiveSequence_eq {claims : Claims} {r : UseRequest} {n : Int}
    (hlimit : 0 < claims.useLimit) (h : effectiveSequence claims r = some n) :
    n = r.useSequenceNumber := by
  rw [effectiveSequence, if_pos hlimit] at h
  split_ifs at h
  exact (Option.some.inj h).symm

namespace CommittedUse

variable {u : UseInvocation} {stored : CanonValue} {commitment : String} {c : Preflight}

/-- What the receipt holds, as a retry reads it. -/
def storedUse (C : ResourceCore ed) (u : UseInvocation) (commitment : String) (c : Preflight) :
    StoredUse where
  projectId := u.request.projectId
  authorityGrant := c.claims.jti
  commitment := commitment
  grantId := c.claims.jti
  jti := c.claims.jti
  resourceId := C.resourceId
  action := u.request.action
  nonce := u.request.nonce
  useSig := B64.encode c.useSig.toList
  cnfPub := B64.encode c.cnfPub.toList
  popChallengeHash := rootText c.challenge
  useSequenceNumber := Float64.rewritten c.useSeq

/-- The receipt is read back as the use. -/
theorem decoded (h : CommittedUse C u stored commitment c) :
    decodeStoredUse stored = some (storedUse C u commitment c) := by
  obtain ⟨ordinal, useEvidence, hreceipt⟩ := h.receipt
  exact hreceipt.decoded

theorem identity (h : CommittedUse C u stored commitment c) :
    jsonText stored ["record_id"] = C.useId u.request ∧
      jsonText stored ["session_id"] = u.request.sessionId ∧
      jsonText stored ["extensions", "broker", "kind"] = u.kind.text ∧
      jsonText stored ["authority", "grant_id"] = c.claims.jti := by
  obtain ⟨ordinal, useEvidence, hreceipt⟩ := h.receipt
  obtain ⟨authority, hauthority, hgrantId⟩ := Option.bind_eq_some_iff.mp hreceipt.grantId
  refine ⟨?_, ?_, ?_, ?_⟩
  · rw [jsonText, jsonPath, hreceipt.recordId]
    rfl
  · rw [jsonText, jsonPath, hreceipt.sessionId]
    rfl
  · rw [jsonText, jsonPath, hreceipt.extensions]
    rfl
  · rw [jsonText, jsonPath, hauthority, Option.bind_some, jsonPath, hgrantId]
    rfl

/-- The number in the receipt is the one of the request, if that comes through a double. -/
theorem sequence_iff (h : CommittedUse C u stored commitment c) :
    some (Float64.rewritten c.useSeq) = effectiveSequence c.claims u.request ↔
      (0 < c.claims.useLimit →
        Float64.rewritten u.request.useSequenceNumber = u.request.useSequenceNumber) := by
  rw [h.passed.useSeq, usedSequence, effectiveSequence]
  split_ifs with hlimit hrange
  · have hsequence : 1 ≤ u.request.useSequenceNumber ∧
        u.request.useSequenceNumber ≤ c.claims.useLimit := h.passed.sequence hlimit
    omega
  · rw [Option.some.injEq]
    exact ⟨fun heq _ => heq, fun heq => heq hlimit⟩
  · rw [Float64.rewritten_of_lt (by decide)]
    simp [hlimit]

/-- The request itself is recognized if it is repeatable, and only then. -/
theorem match_self_iff (h : CommittedUse C u stored commitment c) :
    C.priorUseMatchesRequest stored u.request u.kind commitment = true ↔
      C.Repeatable u.request := by
  obtain ⟨hid, hsession, hkind, -⟩ := h.identity
  rw [ResourceCore.priorUseMatchesRequest, hid, hsession, hkind]
  simp only [decide_true, Bool.true_and, storedUseMatchesRequest_iff]
  constructor
  · rintro ⟨s, claims, hs, hmatch⟩ claims' hissued
    obtain rfl := Option.some.inj (h.decoded.symm.trans hs)
    obtain rfl := Except.ok.inj (hmatch.issued.symm.trans h.passed.issued)
    obtain rfl := Except.ok.inj (hmatch.issued.symm.trans hissued)
    refine ⟨?_, h.sequence_iff.mp hmatch.sequence⟩
    rw [B64.isSpelled, h.passed.cnf]
    exact decide_eq_true hmatch.cnf.2
  · intro hrep
    obtain ⟨hcnf, hsequence⟩ := hrep c.claims h.passed.issued
    obtain ⟨binding, hbinding, hchallenge⟩ := h.passed.bound
    have haction : u.request.action = c.claims.act := h.passed.action
    have hne : c.claims.cnf ≠ "" := by
      intro hempty
      have hcnf := h.passed.cnf
      rw [hempty] at hcnf
      cases hcnf
    rw [B64.isSpelled, h.passed.cnf] at hcnf
    exact ⟨_, c.claims, h.decoded, {
      issued := h.passed.issued
      version := h.passed.version
      project := ⟨rfl, h.passed.project⟩
      sequence := h.sequence_iff.mpr hsequence
      action := ⟨rfl, haction.symm⟩
      nonce := rfl
      params := rfl
      jti := ⟨h.jti, rfl, rfl, rfl⟩
      resource := ⟨h.passed.audience, h.passed.audience⟩
      cnf := ⟨hne, of_decide_eq_true hcnf⟩
      possession := ⟨c.useSig, c.cnfPub, binding, h.passed.useSig, h.passed.cnf, hbinding, rfl,
        congrArg rootText hchallenge, hchallenge ▸ h.passed.possession⟩ }⟩

/-- What is recognized asks for the same use. -/
theorem sameUse_of_match (h : CommittedUse C u stored commitment c) {u' : UseInvocation}
    {commitment' : String} (hparams : C.paramsCommitment u'.request = some commitment')
    (hno : ¬ Collision C.sha256 (C.hashed u.request ++ C.hashed u'.request))
    (hrep : C.Repeatable u.request)
    (hmatch : C.priorUseMatchesRequest stored u'.request u'.kind commitment' = true) :
    SameUse u.request u'.request u.kind u'.kind := by
  obtain ⟨-, hsession, hkind, -⟩ := h.identity
  simp only [ResourceCore.priorUseMatchesRequest, Bool.and_eq_true, decide_eq_true_eq, hsession,
    hkind, storedUseMatchesRequest_iff] at hmatch
  obtain ⟨⟨⟨-, hsession'⟩, hkind'⟩, s, claims, hs, hm⟩ := hmatch
  obtain rfl := Option.some.inj (h.decoded.symm.trans hs)
  obtain ⟨useSig, cnfPub, binding', husesig, -, hbinding', hencode, hpop, -⟩ := hm.possession
  have hcommitment : commitment = commitment' := hm.params
  subst hcommitment
  have hleft : ∀ {pre}, pre ∈ C.hashed u.request →
      pre ∈ C.hashed u.request ++ C.hashed u'.request := List.mem_append_left _
  have hright : ∀ {pre}, pre ∈ C.hashed u'.request →
      pre ∈ C.hashed u.request ++ C.hashed u'.request := List.mem_append_right _
  have hpayload : capabilityPayload u'.request.capability =
      capabilityPayload u.request.capability := by
    obtain ⟨binding, hbinding, hchallenge⟩ := h.passed.bound
    have hjti : claims.jti = c.claims.jti := hm.jti.2.1
    have haction : u.request.action = u'.request.action := hm.action.1
    have hnonce : u.request.nonce = u'.request.nonce := hm.nonce
    have hsame := rootText_injective hpop
    rw [hchallenge] at hsame
    have hpre := eq_of_not_collision hno
      (hleft (mem_hashed_challenge h.passed.issued h.params hbinding))
      (hright (mem_hashed_challenge hm.issued hparams hbinding')) (by
        rw [← haction]
        exact hsame)
    rw [hjti, ← haction, ← hnonce] at hpre
    obtain rfl := usePopPreimage_binding hpre
    obtain ⟨payload, hp, hb⟩ := credentialBindingOf_eq_ok_iff.mp hbinding
    obtain ⟨payload', hp', hb'⟩ := credentialBindingOf_eq_ok_iff.mp hbinding'
    rw [hp, hp', eq_of_not_collision hno (hleft (mem_hashed_payload hp))
      (hright (mem_hashed_payload hp')) (rootText_injective (hb.symm.trans hb'))]
  have hclaims : claims = c.claims := by
    obtain ⟨payload, hp, hc⟩ := payload_of_verifyCapability hm.issued
    obtain ⟨payload', hp', hc'⟩ := payload_of_verifyCapability h.passed.issued
    rw [hpayload, hp'] at hp
    obtain rfl := Option.some.inj hp
    exact Option.some.inj (hc.symm.trans hc')
  have hparamsEq : u'.request.params = u.request.params ∧
      hex32 u'.request.paramsNonce = hex32 u.request.paramsNonce := by
    have h₁ := h.params
    rw [paramsCommitment_eq, Option.map_eq_some_iff] at h₁ hparams
    obtain ⟨pre, hpre, hroot⟩ := h₁
    obtain ⟨pre', hpre', hroot'⟩ := hparams
    obtain rfl := eq_of_not_collision hno (hleft (mem_hashed_params hpre))
      (hright (mem_hashed_params hpre')) (rootText_injective (hroot.trans hroot'.symm))
    obtain ⟨nonce, hnonce, hok⟩ := Option.bind_eq_some_iff.mp hpre
    obtain ⟨nonce', hnonce', hok'⟩ := Option.bind_eq_some_iff.mp hpre'
    obtain ⟨hvalue, rfl⟩ := commitPreimage_inj (eq_ok_of_toOption hok) (eq_ok_of_toOption hok')
    exact ⟨(bytes_injective hvalue).symm, hnonce'.trans hnonce.symm⟩
  refine ⟨hsession'.symm, ?_, hm.action.1.symm, hm.nonce.symm, hparamsEq.1, hparamsEq.2, ?_,
    hpayload, ?_⟩
  · revert hkind'
    cases u.kind <;> cases u'.kind <;> simp [UseKind.text]
  · rw [husesig, h.passed.useSig, Vector.toList_inj.mp (B64.encode_injective hencode)]
  · intro claims' hclaims' hlimit
    have hsame : claims' = c.claims := by
      obtain ⟨payload, hp, hc⟩ := payload_of_verifyCapability h.passed.issued
      rw [hp, Option.bind_some] at hclaims'
      exact Option.some.inj (hclaims'.symm.trans hc)
    rw [hsame] at hlimit
    have hself := h.sequence_iff.mpr (hrep c.claims h.passed.issued).2
    have hsequence := hm.sequence
    rw [hclaims] at hsequence
    exact (effectiveSequence_eq hlimit hsequence.symm).symm.trans
      (effectiveSequence_eq hlimit hself.symm)

end CommittedUse

/-- With a record under the key nothing but the rule for a retry is asked. -/
theorem handleUsePhase_of_known {reads : UseReads} {u : UseInvocation} {commitment : String}
    {rec : Record} (hparams : C.paramsCommitment u.request = some commitment)
    (hlooked : reads.looked.recordByIdem u.request.idem = some rec) (s : UseState) :
    C.handleUsePhase reads s u =
      if C.priorUseMatchesRequest rec.json u.request u.kind commitment then
        (.answered rec.json (jsonText rec.json ["authority", "grant_id"]) true, s)
      else (.conflict, s) := by
  simp only [ResourceCore.handleUsePhase, hparams, hlooked]

/-- A committed use is answered again from its receipt in every later state, and no other request
under its key is, if and only if it is repeatable. -/
theorem use_retry_exact_iff {before later latest : List UseEvent} {reads : UseReads}
    {s' : UseState} {u : UseInvocation} {stored : CanonValue} {grantId : String}
    (hidem : u.request.idem ≠ "")
    (hcommitted : C.handleUsePhase reads (C.runUses {} before) u =
      (.answered stored grantId false, s')) :
    ExactRetry C u stored grantId (C.runUses s' later).project
      (C.runUses (C.runUses s' later) latest) ↔ C.Repeatable u.request := by
  have hempty : ({} : UseState).project.RowInv := Project.rowInv_empty
  obtain ⟨hinv, -⟩ := runUses_rows (C := C) hempty before
  obtain ⟨commitment, c, huse, rfl, hinv', rec, hknown, rfl⟩ :=
    committed_of_handleUsePhase hinv hidem hcommitted
  obtain ⟨hinv'', hlater⟩ := runUses_rows (C := C) hinv' later
  have hfound : (C.runUses s' later).project.recordByIdem u.request.idem = some rec := by
    have hknown := hinv'.known_later hinv'' hlater hknown
    rwa [Project.known, if_neg hidem] at hknown
  obtain ⟨-, -, -, hgrant⟩ := huse.identity
  constructor
  · intro hretry
    have hsame := hretry.same ⟨_, {}, 0⟩ u rfl rfl rfl
    rw [handleUsePhase_of_known huse.params hfound] at hsame
    split_ifs at hsame with hmatch
    · exact huse.match_self_iff.mp hmatch
    · cases hsame
  · intro hrep
    refine ⟨?_, ?_⟩
    · intro reads' u' hlooked hrequest hkind
      rw [handleUsePhase_of_known (hrequest ▸ huse.params) (by rw [hlooked, hrequest, hfound]),
        hrequest, hkind, if_pos (huse.match_self_iff.mpr hrep), hgrant]
    · intro reads' u' hlooked hkey hproject hother hno
      cases hparams : C.paramsCommitment u'.request with
      | none =>
        refine ⟨.badParams, .inl rfl, ?_⟩
        simp only [ResourceCore.handleUsePhase, hparams]
      | some commitment' =>
        refine ⟨.conflict, .inr rfl, ?_⟩
        rw [handleUsePhase_of_known hparams (by rw [hlooked, hkey, hfound]), if_neg]
        exact fun hmatch => hother (huse.sameUse_of_match hparams hno hrep hmatch)

/-- A signature of zeros. -/
def zeroSig : Vector UInt8 64 := Vector.replicate 64 0

/-- A key that signs with it. -/
def openKey : SigningKey anySig := ⟨fun _ => zeroSig, Vector.replicate 32 0, fun _ => rfl⟩

/-- A server that seals with it. -/
def sampleRecorder : Recorder anySig where
  N := .identity
  sha256 := blankHash
  sk := openKey
  keyBlock := .obj []
  now _ := "2026-01-01T00:00:00.000Z"
  freshId _ := "id"
  freshSpan _ := "x"
  displaySeq _ _ := 0

/-- A resource that signs with it. -/
def sampleCore : ResourceCore anySig where
  N := .identity
  sha256 := blankHash
  sealer := sampleRecorder.sealer
  key := openKey
  brokerPub := Vector.replicate 32 0
  resourceId := "r"
  quota := 0

/-- The descriptor of a capability for so many uses. -/
def sampleDescriptor (limit : Int64) : CanonValue :=
  .obj [("act", .str "a"), ("aud", .str "r"),
    ("cnf", .str "AAAAAAAAAAAAAAAAAAAAAAAAAAAAAAAAAAAAAAAAAAA"), ("exp", .int 2), ("iat", .int 1),
    ("jti", .str "g"), ("nbf", .int 1), ("project_id", .str "p"), ("use_limit", .int limit),
    ("version", .int 2)]

/-- The capability, as it is sent. -/
def sampleCapability (limit : Int64) : String :=
  B64.encode (writeCanonical .identity (sampleDescriptor limit)).bytes ++ "." ++
    B64.encode zeroSig.toList

/-- The last of so many uses. -/
def lastUse (limit : Int64) : UseInvocation where
  request := {
    idem := "k"
    projectId := "p"
    sessionId := "s"
    capability := sampleCapability limit
    useSig := B64.encode zeroSig.toList
    action := "a"
    params := ""
    nonce := "n"
    paramsNonce := "0000000000000000000000000000000000000000000000000000000000000000"
    useSequenceNumber := limit.toInt }
  kind := .use
  unix := 1
  evaluatedAt := "2026-01-01T00:00:00.000Z"
  stamp := ⟨"2026-01-01T00:00:00.000Z", "id", "x"⟩
  paramsDigest := ""
  nonceOwner := "o"
  jtiOwner := "o"

/-- What the capability claims. -/
def sampleClaims (limit : Int64) : Claims where
  version := 2
  projectId := "p"
  typ := ""
  alg := ""
  kid := ""
  iss := ""
  sub := ""
  aud := "r"
  act := "a"
  jti := "g"
  scope := ""
  cnf := "AAAAAAAAAAAAAAAAAAAAAAAAAAAAAAAAAAAAAAAAAAA"
  mode := ""
  nbf := 1
  iat := 1
  exp := 2
  singleUse := false
  useLimit := limit.toInt

/-- The payload stands before the dot. -/
theorem cutDot_encode (payload : List UInt8) (rest : String) :
    cutDot (B64.encode payload ++ "." ++ rest) = some (B64.encode payload, rest) := by
  have hne : ∀ c ∈ (B64.encode payload).toList, decide (c ≠ '.') = true := by
    intro c hc
    rw [B64.encode_eq, String.toList_ofList, List.mem_map] at hc
    obtain ⟨n, hn, rfl⟩ := hc
    obtain ⟨chunk, -, hmem⟩ := List.mem_flatMap.mp hn
    obtain ⟨b, hb, hval⟩ := B64.utf8_letter (B64.mem_sixBits hmem)
    rw [decide_eq_true_eq]
    intro hdot
    rw [hdot] at hb
    obtain rfl := (List.cons.inj hb).1
    cases hval
  have hspan : ((B64.encode payload).toList ++ '.' :: rest.toList).span (· ≠ '.') =
      ((B64.encode payload).toList, '.' :: rest.toList) := by
    rw [List.span_eq_takeWhile_dropWhile, List.takeWhile_append_of_pos hne,
      List.dropWhile_append_of_pos hne]
    simp
  rw [cutDot, String.toList_append, String.toList_append, List.append_assoc]
  have hdot : ".".toList ++ rest.toList = '.' :: rest.toList := rfl
  rw [hdot, hspan]
  dsimp only
  rw [String.ofList_toList, String.ofList_toList]

theorem lenientDecode_encode (v : List UInt8) : B64.lenientDecode (B64.encode v) = some v :=
  B64.lenientDecode_of_decode (B64.decode_encode v)

theorem lenientFixed_encode {n : Nat} (v : Vector UInt8 n) :
    B64.lenientFixed n (B64.encode v.toList) = some v :=
  B64.lenientFixed_eq_some_iff.mpr (lenientDecode_encode v.toList)

/-- Members in the order of their keys stay where they are. -/
theorem sortMembers_of_keys {α : Type} {members : List (String × α)}
    (h : (members.map Prod.fst).Pairwise fun k k' =>
      (!unitsLt (utf16Units (bytes k')) (utf16Units (bytes k))) = true) :
    sortMembers members = members := List.mergeSort_of_pairwise (List.pairwise_map.mp h)

/-- The members of the descriptor stand in order. -/
theorem reorder_sampleDescriptor (limit : Int64) :
    reorder (sampleDescriptor limit) = sampleDescriptor limit := by
  have hkeys : ["act", "aud", "cnf", "exp", "iat", "jti", "nbf", "project_id", "use_limit",
      "version"].Pairwise fun k k' =>
        (!unitsLt (utf16Units (bytes k')) (utf16Units (bytes k))) = true := by decide +kernel
  have hint : ∀ n, reorder (.int n) = .int n := fun _ => rfl
  rw [sampleDescriptor, reorder_obj]
  simp only [List.map_cons, List.map_nil, reorder_str, hint]
  refine congrArg _ (sortMembers_of_keys ?_)
  exact hkeys

/-- The sample is read back. -/
theorem unmarshalClaims_sampleDescriptor (limit : Int64) :
    unmarshalClaims (writeCanonical .identity (sampleDescriptor limit)).bytes =
      some (sampleClaims limit) := by
  have hkeys : DistinctNfcKeys .identity (sampleDescriptor limit) := by
    refine .obj (by simp) ?_
    simp only [List.forall_mem_cons, List.not_mem_nil, false_imp_iff, implies_true, and_true]
    exact ⟨.str trivial, .str trivial, .str trivial, .int 2, .int 1, .str trivial, .int 1,
      .str trivial, .int limit, .int 2⟩
  have hdepth : (sampleDescriptor limit).depth = 1 := rfl
  obtain ⟨t, ht, hparse⟩ := parse_serialize_canonical hkeys (by rw [hdepth]; decide)
  obtain ⟨t', ht', hbytes⟩ := exists_serialize .identity (sampleDescriptor limit)
  obtain rfl := Option.some.inj (ht.symm.trans ht')
  rw [parse, hbytes] at hparse
  rw [unmarshalClaims, hparse]
  change claimsOf (reorder (sampleDescriptor limit)) = _
  rw [reorder_sampleDescriptor]
  rfl

/-- The sample verifies. -/
theorem verifyCapability_sample (limit : Int64) :
    verifyCapability anySig (sampleCapability limit) (Vector.replicate 32 0) =
      .ok (sampleClaims limit) := by
  simp only [verifyCapability, bind_eq_ok_iff, orFail_eq_ok_iff, require_eq_ok_iff]
  exact ⟨_, cutDot_encode _ _, zeroSig, lenientFixed_encode zeroSig, (), rfl, _,
    lenientDecode_encode _, unmarshalClaims_sampleDescriptor limit⟩

/-- The capability once it is checked. -/
def samplePreflight (limit : Int64) : Preflight where
  claims := sampleClaims limit
  unix := 1
  challenge := Vector.replicate 32 0
  cnfPub := Vector.replicate 32 0
  useSig := zeroSig
  bounded := 0 < (sampleClaims limit).useLimit
  useSeq := limit.toInt

/-- What the sample's parameters commit to. -/
def sampleCommitment : String := rootText (Vector.replicate 32 0)

/-- The sample passes. -/
theorem preflightUse_sample {limit : Int64} (h : 0 < limit.toInt) :
    preflightUse blankHash anySig (sampleCore.shim (lastUse limit).request)
      (lastUse limit).request.capability (lastUse limit).request.useSig
      ((lastUse limit).request.op sampleCommitment) (lastUse limit).request.nonce 1 =
        .ok (samplePreflight limit) := by
  have hcnf : B64.lenientFixed 32 (sampleClaims limit).cnf = some (Vector.replicate 32 0) := by
    have hspelled : (sampleClaims limit).cnf =
        B64.encode (Vector.replicate 32 (0 : UInt8)).toList := by
      change "AAAAAAAAAAAAAAAAAAAAAAAAAAAAAAAAAAAAAAAAAAA" = _
      decide +kernel
    rw [hspelled]
    exact lenientFixed_encode _
  have hpayload : capabilityPayload (lastUse limit).request.capability =
      some (writeCanonical .identity (sampleDescriptor limit)).bytes :=
    Option.bind_eq_some_iff.mpr ⟨_, cutDot_encode _ _, lenientDecode_encode _⟩
  have hproject : checkProject (sampleCore.shim (lastUse limit).request) (sampleClaims limit) =
      .ok () := by
    simp only [checkProject, bind_eq_ok_iff, require_eq_ok_iff]
    exact ⟨(), show "p" ≠ "" by decide, rfl⟩
  have hwindow : checkWindow (sampleClaims limit) 1 = .ok () := rfl
  have hsequence : checkSequence (sampleClaims limit)
      ((lastUse limit).request.op sampleCommitment) = .ok () :=
    require_eq_ok_iff.mpr fun hlimit => ⟨hlimit, le_refl limit.toInt⟩
  have huseSeq : usedSequence (sampleClaims limit) ((lastUse limit).request.op sampleCommitment) =
      limit.toInt := if_pos h
  simp only [preflightUse, bind_eq_ok_iff, orFail_eq_ok_iff, require_eq_ok_iff]
  refine ⟨_, verifyCapability_sample limit, (), hproject, (), hwindow, (), rfl, (), ?_, (), ?_, _,
    hcnf, _, credentialBindingOf_eq_ok_iff.mpr ⟨_, hpayload, rfl⟩, zeroSig,
    lenientFixed_encode zeroSig, (), rfl, (), hsequence, ?_⟩
  · exact ⟨show "a" ≠ "" by decide, rfl⟩
  · change isBlank "n" = false
    decide
  · rw [huseSeq]
    rfl

/-- Where nothing was consumed a credential with a key is free. -/
theorem exists_consume_empty {c : Preflight} {nonce : NonceClaim} {jtiOwner : String}
    (h : consumeKey c.claims.jti c.useSeq ≠ "") :
    ∃ claims, c.consume ∅ nonce jtiOwner = .ok claims := by
  simp only [Preflight.consume, bind_eq_ok_iff, require_eq_ok_iff]
  by_cases hspends : c.spends = true
  · simp only [hspends, if_true, Preflight.jtiClaim, bind_eq_ok_iff, require_eq_ok_iff]
    refine ⟨_, (), rfl, _, ⟨(), h, rfl⟩, (), ?_, rfl⟩
    rw [Table.lookup_insert_eq, if_neg (by simp [LedgerClaim.key])]
    rfl
  · simp only [hspends, Bool.false_eq_true, if_false]
    exact ⟨_, (), rfl, rfl⟩

/-- The use is committed by an empty store, if its receipt is built. -/
theorem handleUsePhase_sample (limit : Int64) (h : 0 < limit.toInt)
    (hrecord : (sampleCore.recordUse {} (lastUse limit) (samplePreflight limit)
      sampleCommitment).isOk = true) :
    ∃ stored s', sampleCore.handleUsePhase ⟨{}, {}, 1⟩ (sampleCore.runUses {} []) (lastUse limit) =
      (.answered stored "g" false, s') := by
  obtain ⟨⟨stored, p⟩, hok⟩ : ∃ r, sampleCore.recordUse {} (lastUse limit) (samplePreflight limit)
      sampleCommitment = .ok r := by
    cases hr : sampleCore.recordUse {} (lastUse limit) (samplePreflight limit) sampleCommitment with
    | error e => rw [hr] at hrecord; cases hrecord
    | ok r => exact ⟨r, rfl⟩
  obtain ⟨claims, hclaims⟩ : ∃ claims, (samplePreflight limit).consume ∅
      ⟨"p", "r", "n", "o"⟩ "o" = .ok claims := by
    apply exists_consume_empty
    have hkey : consumeKey (samplePreflight limit).claims.jti (samplePreflight limit).useSeq =
        "g" ++ "#" ++ toString limit.toInt := if_pos h
    rw [hkey]
    intro hempty
    have hlen := congrArg String.length hempty
    simp at hlen
  have hparams : sampleCore.paramsCommitment (lastUse limit).request = some sampleCommitment := by
    have hzero : hex32 (lastUse limit).request.paramsNonce = some (Vector.replicate 32 0) := by
      change hex32 "0000000000000000000000000000000000000000000000000000000000000000" = _
      decide +kernel
    rw [paramsCommitment_eq, UseRequest.paramsPreimage, hzero]
    rfl
  have hnone : ({} : Project).recordByIdem (lastUse limit).request.idem = none := rfl
  have hvoid : ({} : Project).terminalGrantVoided (lastUse limit).request.projectId
      (samplePreflight limit).claims.jti = false := rfl
  have hlive : ({} : Project).retired (lastUse limit).request.projectId
      (samplePreflight limit).claims.jti = false := rfl
  have hnonce : Preflight.nonceClaim (sampleCore.shim (lastUse limit).request)
      (lastUse limit).request.nonce (lastUse limit).nonceOwner = .ok ⟨"p", "r", "n", "o"⟩ := rfl
  have hpreflight := preflightUse_sample h
  exact ⟨stored, ⟨p, claims⟩, handleUsePhase_of_recorded ⟨{}, {}, 1⟩ {} hparams hnone
    hpreflight hvoid hnone hpreflight hlive hnonce hclaims hok⟩

theorem recordUse_sample_two : (sampleCore.recordUse {} (lastUse 2) (samplePreflight 2)
    sampleCommitment).isOk = true := by decide +kernel

theorem recordUse_sample_large : (sampleCore.recordUse {} (lastUse 9007199254740993)
    (samplePreflight 9007199254740993) sampleCommitment).isOk = true := by decide +kernel

/-- The second of two uses is repeatable. -/
theorem repeatable_sample_two : sampleCore.Repeatable (lastUse 2).request := by
  intro claims hclaims
  obtain rfl := Except.ok.inj ((verifyCapability_sample 2).symm.trans hclaims)
  refine ⟨?_, fun _ => ?_⟩
  · change B64.isSpelled 32 "AAAAAAAAAAAAAAAAAAAAAAAAAAAAAAAAAAAAAAAAAAA" = true
    decide +kernel
  · change Float64.rewritten 2 = 2
    decide +kernel

/-- The second of two uses is committed, and answered again whatever follows. -/
theorem use_retry_exact_iff_two : ∃ stored s',
    sampleCore.handleUsePhase ⟨{}, {}, 1⟩ (sampleCore.runUses {} []) (lastUse 2) =
        (.answered stored "g" false, s') ∧
      ∀ later latest, ExactRetry sampleCore (lastUse 2) stored "g"
        (sampleCore.runUses s' later).project
        (sampleCore.runUses (sampleCore.runUses s' later) latest) := by
  obtain ⟨stored, s', h⟩ := handleUsePhase_sample 2 (by decide) recordUse_sample_two
  exact ⟨stored, s', h, fun later latest =>
    (use_retry_exact_iff (show "k" ≠ "" by decide) h).mpr repeatable_sample_two⟩

/-- A use under the first number that a double does not hold is committed, and the same request is
turned away right after. -/
theorem counted_use_not_repeated : ∃ stored s',
    sampleCore.handleUsePhase ⟨{}, {}, 1⟩ (sampleCore.runUses {} [])
        (lastUse 9007199254740993) = (.answered stored "g" false, s') ∧
      sampleCore.handleUsePhase ⟨s'.project, s'.project, 1⟩ s' (lastUse 9007199254740993) =
        (.conflict, s') := by
  obtain ⟨stored, s', h⟩ := handleUsePhase_sample 9007199254740993 (by decide)
    recordUse_sample_large
  have hidem : (lastUse 9007199254740993).request.idem ≠ "" := show "k" ≠ "" by decide
  have hempty : (sampleCore.runUses {} []).project.RowInv := Project.rowInv_empty
  obtain ⟨commitment, c, huse, -, -, rec, hknown, rfl⟩ := committed_of_handleUsePhase hempty hidem h
  rw [Project.known, if_neg hidem] at hknown
  refine ⟨rec.json, s', h, ?_⟩
  rw [handleUsePhase_of_known huse.params hknown, if_neg]
  rw [huse.match_self_iff]
  intro hrep
  have hnumber := (hrep _ (verifyCapability_sample _)).2 (by decide)
  exact absurd hnumber (by decide +kernel)

end Averin
