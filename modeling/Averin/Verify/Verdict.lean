import Averin.Verify.GrantLog

/-!
# The claim decision kernel

The verifier boils its passes down to facts, and a pure function of the facts and of the
caller's policy decides each claim: refuted by adverse evidence, else satisfied by its
support, else insufficient. Claims that imply each other are decided consistently, and taking
support away only ever takes claims away.
-/

namespace Averin

/-- The decision on a claim. -/
inductive ClaimDecision where
  | satisfied | insufficient | refuted
  deriving DecidableEq, Repr

/-- The claim a caller asks about. -/
inductive RequestedClaim where
  | integrity | authenticated | authorized | historicalAuthorizedAsOfSnapshot
  | completeBrokered | completeIntrospected
  deriving DecidableEq, Repr

/-- Which evidence of revocation a caller wants. -/
inductive RevocationRequirement where
  | pinned | disclosed | merkle | both
  deriving DecidableEq, Repr

/-- What a caller asks for. -/
structure ClaimPolicy where
  requested : RequestedClaim := .integrity
  revocation : RevocationRequirement := .pinned
  requireDisclosure : Bool := false
  requireAttestation : Bool := false
  deriving DecidableEq, Repr

/-- The decisions on all claims. -/
structure ClaimResults where
  integrity : ClaimDecision
  authenticated : ClaimDecision
  authorized : ClaimDecision
  historicalAuthorizedAsOfSnapshot : ClaimDecision
  temporal : ClaimDecision
  completeBrokered : ClaimDecision
  completeIntrospected : ClaimDecision
  requested : RequestedClaim
  requestedDecision : ClaimDecision
  deriving DecidableEq, Repr

/-- A record whose seal verified, with the key that sealed it. -/
structure PinnedRecordSeal where
  recordHash : String
  keyBytes : Vector UInt8 32
  deriving DecidableEq, Repr

/-- A checkpoint with a verified anchor. -/
structure AnchoredCheckpoint where
  checkpointHash : String
  timestamp : String
  sequence : Int
  deriving DecidableEq, Repr

/-- What the completeness claims rest on. -/
structure CapstoneFacts where
  manifest : Bool
  twoPhase : Bool
  noIncompleteIntent : Bool
  taxonomy : Bool
  everyActionVerified : Bool
  everyPopReverified : Bool
  grantLog : Bool
  attestation : Bool
  noViolation : Bool
  noPending : Bool
  boundedReuse : Bool
  cosignatures : Bool
  delegation : Bool
  revocation : Bool
  federation : Bool
  coverage : Bool
  brokeredSurface : Bool
  introspectedSurface : Bool
  deriving DecidableEq, Repr

/-- What the historical claim rests on. -/
structure HistoricalFacts where
  /-- The caller asked for the historical view; the bundle has no say in it. -/
  selected : Bool
  snapshotVerified : Bool
  brokeredUseValid : Bool
  introspectedUseValid : Bool
  adverse : Bool
  checkedContradiction : Bool
  v2ListUsable : Bool
  v2MerkleUsable : Bool
  merklePathsComplete : Bool
  deriving DecidableEq, Repr

/-- What was found of a bundle, and whether each part was validated. -/
structure ValidatedFacts where
  historical : HistoricalFacts
  structuralIntegrity : Bool
  recordCount : Nat
  pinnedRecordSeals : List PinnedRecordSeal
  pinnedSignerKeys : List (Vector UInt8 32)
  pinnedRoleAuthority : Bool
  latestCheckpointSequence : Int
  anchors : List AnchoredCheckpoint
  attestationValid : Bool
  brokeredUseValid : Bool
  introspectedUseValid : Bool
  capstone : CapstoneFacts
  immutableRecordContradiction : Bool
  checkedContradiction : Bool
  adverseDisclosure : Bool
  adverseAnchor : Bool
  revokedMembership : Bool
  /-- The caller pinned a revocation issuer. -/
  revocationIssuerPinned : Bool
  disclosedRevocationFresh : Bool
  merkleRevocationFresh : Bool
  merkleNonmembershipComplete : Bool
  disclosureComplete : Bool
  policy : ClaimPolicy
  deriving DecidableEq, Repr

/-- The seals of the proven records whose key is known and pinned, in the order of the trust
list; `proven` tells which trust entries reached the level of proven integrity. -/
def pinnedRecordSeals (trust : List RecordTrust) (proven : RecordTrust → Bool)
    (records : List CanonValue) (keys : String → Int → Option (Vector UInt8 32))
    (pinned : List (Vector UInt8 32)) : List PinnedRecordSeal :=
  trust.filterMap fun rt => do
    if proven rt then
      let recKey ← (recordAt records rt).get "key"
      let id ← (recKey.get "signing_key_id").bind CanonValue.asStr
      let epoch ← (recKey.get "key_epoch").bind CanonValue.asInt
      let keyBytes ← keys id epoch
      if pinned.contains keyBytes then some ⟨rt.contentHash, keyBytes⟩ else none
    else none

namespace CapstoneFacts

variable (c : CapstoneFacts)

/-- What both completeness claims need. -/
def base : Bool :=
  c.manifest && c.twoPhase && c.noIncompleteIntent && c.taxonomy && c.everyActionVerified &&
    c.everyPopReverified && c.grantLog && c.attestation && c.noViolation && c.noPending &&
    c.boundedReuse && c.cosignatures && c.delegation && c.revocation && c.federation && c.coverage

/-- The brokered part of it is complete. -/
def brokered : Bool := c.base && c.brokeredSurface

/-- So is the introspected part. -/
def introspected : Bool := c.base && c.introspectedSurface

end CapstoneFacts

/-- The search stops before the end of the keys. -/
def keyPinned (keys : List (Vector UInt8 32)) (key : Vector UInt8 32) : Bool :=
  keys.findIdx (· == key) < keys.length

/-- A record is sealed by a pinned key. -/
def sealPinned (s : PinnedRecordSeal) (keys : List (Vector UInt8 32)) : Bool :=
  !s.recordHash.isEmpty && keyPinned keys s.keyBytes

/-- The search for a seal that is not pinned reaches the end. -/
def sealsPinned (seals : List PinnedRecordSeal) (keys : List (Vector UInt8 32)) : Bool :=
  seals.findIdx (fun s => !sealPinned s keys) == seals.length

/-- An anchor is of the checkpoint with this number. -/
def anchorsCheckpoint (a : AnchoredCheckpoint) (sequence : Int) : Bool :=
  a.sequence == sequence && !a.checkpointHash.isEmpty && !a.timestamp.isEmpty

/-- The checkpoint is anchored. -/
def anchoredAt (anchors : List AnchoredCheckpoint) (sequence : Int) : Bool :=
  anchors.findIdx (anchorsCheckpoint · sequence) < anchors.length

/-- What refutes comes before what satisfies. -/
def decision (refuted satisfied : Bool) : ClaimDecision :=
  if refuted then .refuted else if satisfied then .satisfied else .insufficient

section Kernel

variable (f : ValidatedFacts)

/-- Every record is sealed by a pinned key. -/
def pinnedRecordKeys : Bool :=
  f.recordCount > 0 && f.pinnedRecordSeals.length == f.recordCount &&
    sealsPinned f.pinnedRecordSeals f.pinnedSignerKeys

/-- There is the evidence of revocation that was asked for. -/
def revocationReady : Bool :=
  match f.policy.revocation with
  | .pinned => !f.revocationIssuerPinned || f.disclosedRevocationFresh
  | .disclosed => f.revocationIssuerPinned && f.disclosedRevocationFresh
  | .merkle =>
    f.revocationIssuerPinned && f.merkleRevocationFresh && f.merkleNonmembershipComplete
  | .both =>
    f.revocationIssuerPinned && f.disclosedRevocationFresh && f.merkleRevocationFresh &&
      f.merkleNonmembershipComplete

/-- Something speaks against the uses. -/
def adverse : Bool :=
  f.immutableRecordContradiction || f.checkedContradiction || f.revokedMembership ||
    f.adverseDisclosure || f.adverseAnchor

/-- There is what the policy asks for. -/
def policyEvidenceReady : Bool :=
  (!f.policy.requireDisclosure || f.disclosureComplete) &&
    (!f.policy.requireAttestation || f.attestationValid)

/-- There is what the authorisation claim needs. -/
def authorizationReady (revocation : Bool) : Bool :=
  f.pinnedRoleAuthority && revocation && policyEvidenceReady f &&
    (f.brokeredUseValid || f.introspectedUseValid)

/-- The authorisation claim is refuted. -/
def authorizationRefuted : Bool := !f.structuralIntegrity || adverse f

/-- The uses were authorised. -/
def authorized (pinnedRecordKeys revocation : Bool) : Bool :=
  f.structuralIntegrity && pinnedRecordKeys && authorizationReady f revocation

/-- They were so in time. -/
def temporal (anchoredLatest revocation : Bool) : Bool :=
  anchoredLatest && f.attestationValid && revocation

/-- There is evidence of what was revoked at the snapshot. -/
def historicalRevocation : Bool :=
  f.revocationIssuerPinned &&
    match f.policy.revocation with
    | .pinned => true
    | .disclosed => f.historical.v2ListUsable
    | .merkle => f.historical.v2MerkleUsable && f.historical.merklePathsComplete
    | .both =>
      f.historical.v2ListUsable && f.historical.v2MerkleUsable && f.historical.merklePathsComplete

/-- Something speaks against the historical claim. -/
def historicalAdverse : Bool :=
  f.immutableRecordContradiction || f.historical.checkedContradiction || f.adverseDisclosure ||
    f.adverseAnchor || f.historical.adverse

/-- There is what the historical claim needs. -/
def historicalReady : Bool :=
  f.pinnedRoleAuthority && f.historical.snapshotVerified && historicalRevocation f &&
    policyEvidenceReady f && (f.historical.brokeredUseValid || f.historical.introspectedUseValid)

/-- The decision on integrity. -/
def integrityClaim : ClaimDecision := decision (!f.structuralIntegrity) true

/-- The decision on who sealed the records. -/
def authenticatedClaim (pinnedRecordKeys : Bool) : ClaimDecision :=
  decision (!f.structuralIntegrity) (f.structuralIntegrity && pinnedRecordKeys)

/-- The decision on authorisation. -/
def authorizedClaim (pinnedRecordKeys revocation : Bool) : ClaimDecision :=
  decision (authorizationRefuted f) (authorized f pinnedRecordKeys revocation)

/-- The decision on authorisation in time. -/
def temporalClaim (anchoredLatest revocation : Bool) : ClaimDecision :=
  decision (adverse f) (temporal f anchoredLatest revocation)

/-- The decision as of the snapshot. -/
def historicalClaim (pinnedRecordKeys : Bool) : ClaimDecision :=
  decision (f.historical.selected && (!f.structuralIntegrity || historicalAdverse f))
    (f.historical.selected && f.structuralIntegrity && pinnedRecordKeys && historicalReady f)

/-- The decision on completeness. -/
def completeClaim (pinnedRecordKeys anchoredLatest revocation surface : Bool) : ClaimDecision :=
  decision (authorizationRefuted f)
    (authorized f pinnedRecordKeys revocation && temporal f anchoredLatest revocation && surface)

/-- All decisions. -/
def decideClaims : ClaimResults :=
  let pinnedRecordKeys := pinnedRecordKeys f
  let anchoredLatest := anchoredAt f.anchors f.latestCheckpointSequence
  let revocation := revocationReady f
  let integrity := integrityClaim f
  let authenticated := authenticatedClaim f pinnedRecordKeys
  let authorized := authorizedClaim f pinnedRecordKeys revocation
  let historical := historicalClaim f pinnedRecordKeys
  let temporal := temporalClaim f anchoredLatest revocation
  let completeBrokered :=
    completeClaim f pinnedRecordKeys anchoredLatest revocation f.capstone.brokered
  let completeIntrospected :=
    completeClaim f pinnedRecordKeys anchoredLatest revocation f.capstone.introspected
  { integrity, authenticated, authorized, historicalAuthorizedAsOfSnapshot := historical,
    temporal, completeBrokered, completeIntrospected, requested := f.policy.requested,
    requestedDecision :=
      match f.policy.requested with
      | .integrity => integrity
      | .authenticated => authenticated
      | .authorized => authorized
      | .historicalAuthorizedAsOfSnapshot => historical
      | .completeBrokered => completeBrokered
      | .completeIntrospected => completeIntrospected }

end Kernel

/-- A checkpoint is anchored exactly if one anchor is of it. -/
theorem anchoredAt_iff {anchors : List AnchoredCheckpoint} {sequence : Int} :
    anchoredAt anchors sequence = true ↔
      ∃ a ∈ anchors, anchorsCheckpoint a sequence = true := by
  simp [anchoredAt, List.findIdx_lt_length]

/-- Satisfied means satisfied and not refuted. -/
@[simp] theorem decision_eq_satisfied_iff {refuted satisfied : Bool} :
    decision refuted satisfied = .satisfied ↔ refuted = false ∧ satisfied = true := by
  cases refuted <;> cases satisfied <;> simp [decision]

@[simp] theorem decision_eq_refuted_iff {refuted satisfied : Bool} :
    decision refuted satisfied = .refuted ↔ refuted = true := by
  cases refuted <;> cases satisfied <;> simp [decision]

/-- The claims the kernel decides. -/
inductive Claim where
  | integrity | authenticated | authorized | historical | temporal | completeBrokered
  | completeIntrospected
  deriving DecidableEq, Repr

/-- The claims that a claim implies. -/
def Claim.weaker : Claim → List Claim
  | .integrity | .temporal => []
  | .authenticated => [.integrity]
  | .authorized | .historical => [.authenticated, .integrity]
  | .completeBrokered | .completeIntrospected =>
    [.authorized, .temporal, .authenticated, .integrity]

/-- The decision on a claim. -/
def ClaimResults.on (r : ClaimResults) : Claim → ClaimDecision
  | .integrity => r.integrity
  | .authenticated => r.authenticated
  | .authorized => r.authorized
  | .historical => r.historicalAuthorizedAsOfSnapshot
  | .temporal => r.temporal
  | .completeBrokered => r.completeBrokered
  | .completeIntrospected => r.completeIntrospected

/-- The claim a caller may request. -/
def RequestedClaim.claim : RequestedClaim → Claim
  | .integrity => .integrity
  | .authenticated => .authenticated
  | .authorized => .authorized
  | .historicalAuthorizedAsOfSnapshot => .historical
  | .completeBrokered => .completeBrokered
  | .completeIntrospected => .completeIntrospected

/-- The requested decision is the decision on the requested claim. -/
theorem requestedDecision_eq (f : ValidatedFacts) :
    (decideClaims f).requestedDecision = (decideClaims f).on f.policy.requested.claim := by
  simp only [decideClaims]
  cases f.policy.requested <;> rfl

section Order

variable {f : ValidatedFacts}

/-- With integrity and pinned keys the records are authenticated. -/
theorem authenticated_of_support (hi : f.structuralIntegrity = true)
    (hk : pinnedRecordKeys f = true) :
    (decideClaims f).authenticated = .satisfied ∧ (decideClaims f).integrity = .satisfied := by
  simp [decideClaims, authenticatedClaim, integrityClaim, hi, hk]

/-- What the positive authorization claim rests on. -/
theorem authorized_eq_satisfied_iff :
    (decideClaims f).authorized = .satisfied ↔
      f.structuralIntegrity = true ∧ adverse f = false ∧ pinnedRecordKeys f = true ∧
        authorizationReady f (revocationReady f) = true := by
  simp only [decideClaims, authorizedClaim, authorizationRefuted, authorized,
    decision_eq_satisfied_iff, Bool.or_eq_false_iff, Bool.not_eq_false', Bool.and_eq_true]
  tauto

/-- What the historical claim rests on. -/
theorem historical_eq_satisfied_iff :
    (decideClaims f).historicalAuthorizedAsOfSnapshot = .satisfied ↔
      f.historical.selected = true ∧ f.structuralIntegrity = true ∧
        historicalAdverse f = false ∧ pinnedRecordKeys f = true ∧ historicalReady f = true := by
  simp only [decideClaims, historicalClaim, decision_eq_satisfied_iff, Bool.and_eq_false_iff,
    Bool.or_eq_false_iff, Bool.not_eq_false', Bool.and_eq_true]
  cases f.historical.selected <;> simp
  tauto

/-- A capstone rests on the authorization claim, the temporal claim and its own surface. -/
theorem completeClaim_eq_satisfied_iff {surface : Bool} :
    completeClaim f (pinnedRecordKeys f) (anchoredAt f.anchors f.latestCheckpointSequence)
        (revocationReady f) surface = .satisfied ↔
      (decideClaims f).authorized = .satisfied ∧ (decideClaims f).temporal = .satisfied ∧
        surface = true := by
  rw [authorized_eq_satisfied_iff]
  simp only [decideClaims, completeClaim, temporalClaim, authorizationRefuted, authorized,
    decision_eq_satisfied_iff, Bool.or_eq_false_iff, Bool.not_eq_false', Bool.and_eq_true]
  tauto

/-- Whatever a satisfied claim implies is satisfied. -/
theorem satisfied_of_weaker {c d : Claim} (hc : (decideClaims f).on c = .satisfied)
    (hd : d ∈ c.weaker) : (decideClaims f).on d = .satisfied := by
  have hauth : (decideClaims f).authorized = .satisfied →
      (decideClaims f).authenticated = .satisfied ∧ (decideClaims f).integrity = .satisfied := by
    intro h
    obtain ⟨hi, -, hk, -⟩ := authorized_eq_satisfied_iff.mp h
    exact authenticated_of_support hi hk
  have hcomplete : ∀ surface, completeClaim f (pinnedRecordKeys f)
      (anchoredAt f.anchors f.latestCheckpointSequence) (revocationReady f) surface =
        .satisfied → d ∈ [.authorized, .temporal, .authenticated, .integrity] →
      (decideClaims f).on d = .satisfied := by
    intro surface h hd
    obtain ⟨ha, ht, -⟩ := completeClaim_eq_satisfied_iff.mp h
    obtain ⟨hk, hi⟩ := hauth ha
    simp only [List.mem_cons, List.not_mem_nil, or_false] at hd
    rcases hd with rfl | rfl | rfl | rfl
    · exact ha
    · exact ht
    · exact hk
    · exact hi
  cases c with
  | integrity => cases hd
  | temporal => cases hd
  | authenticated =>
    obtain rfl := List.mem_singleton.mp hd
    have h : _ = ClaimDecision.satisfied := hc
    simp only [decideClaims, ClaimResults.on, authenticatedClaim, decision_eq_satisfied_iff,
      Bool.not_eq_false', Bool.and_eq_true] at h
    exact (authenticated_of_support h.1 h.2.2).2
  | authorized =>
    obtain ⟨hk, hi⟩ := hauth hc
    rcases List.mem_pair.mp hd with rfl | rfl
    · exact hk
    · exact hi
  | historical =>
    obtain ⟨-, hi, -, hk, -⟩ := historical_eq_satisfied_iff.mp hc
    obtain ⟨hk, hi⟩ := authenticated_of_support hi hk
    rcases List.mem_pair.mp hd with rfl | rfl
    · exact hk
    · exact hi
  | completeBrokered => exact hcomplete _ hc hd
  | completeIntrospected => exact hcomplete _ hc hd

end Order

/-- The flags of a capstone that hold in `c'` hold in `c`. -/
structure CapstoneFacts.Erased (c c' : CapstoneFacts) : Prop where
  manifest : c'.manifest → c.manifest
  twoPhase : c'.twoPhase → c.twoPhase
  noIncompleteIntent : c'.noIncompleteIntent → c.noIncompleteIntent
  taxonomy : c'.taxonomy → c.taxonomy
  everyActionVerified : c'.everyActionVerified → c.everyActionVerified
  everyPopReverified : c'.everyPopReverified → c.everyPopReverified
  grantLog : c'.grantLog → c.grantLog
  attestation : c'.attestation → c.attestation
  noViolation : c'.noViolation → c.noViolation
  noPending : c'.noPending → c.noPending
  boundedReuse : c'.boundedReuse → c.boundedReuse
  cosignatures : c'.cosignatures → c.cosignatures
  delegation : c'.delegation → c.delegation
  revocation : c'.revocation → c.revocation
  federation : c'.federation → c.federation
  coverage : c'.coverage → c.coverage
  brokeredSurface : c'.brokeredSurface → c.brokeredSurface
  introspectedSurface : c'.introspectedSurface → c.introspectedSurface

/-- The supporting flags of the historical view only go down; the selection and the adverse
flags stay. -/
structure HistoricalFacts.Erased (h h' : HistoricalFacts) : Prop where
  selected : h'.selected = h.selected
  adverse : h'.adverse = h.adverse
  checkedContradiction : h'.checkedContradiction = h.checkedContradiction
  snapshotVerified : h'.snapshotVerified → h.snapshotVerified
  brokeredUseValid : h'.brokeredUseValid → h.brokeredUseValid
  introspectedUseValid : h'.introspectedUseValid → h.introspectedUseValid
  v2ListUsable : h'.v2ListUsable → h.v2ListUsable
  v2MerkleUsable : h'.v2MerkleUsable → h.v2MerkleUsable
  merklePathsComplete : h'.merklePathsComplete → h.merklePathsComplete

/-- `f'` is `f` with support taken away: seals and anchors are dropped and supporting flags
turned off, while adverse flags and what the caller set stay. -/
structure ValidatedFacts.Erased (f f' : ValidatedFacts) : Prop where
  policy : f'.policy = f.policy
  revocationIssuerPinned : f'.revocationIssuerPinned = f.revocationIssuerPinned
  recordCount : f'.recordCount = f.recordCount
  latestCheckpointSequence : f'.latestCheckpointSequence = f.latestCheckpointSequence
  pinnedSignerKeys : f'.pinnedSignerKeys = f.pinnedSignerKeys
  immutableRecordContradiction :
    f'.immutableRecordContradiction = f.immutableRecordContradiction
  checkedContradiction : f'.checkedContradiction = f.checkedContradiction
  adverseDisclosure : f'.adverseDisclosure = f.adverseDisclosure
  adverseAnchor : f'.adverseAnchor = f.adverseAnchor
  revokedMembership : f'.revokedMembership = f.revokedMembership
  historical : f.historical.Erased f'.historical
  capstone : f.capstone.Erased f'.capstone
  pinnedRecordSeals : f'.pinnedRecordSeals.Sublist f.pinnedRecordSeals
  anchors : f'.anchors.Sublist f.anchors
  structuralIntegrity : f'.structuralIntegrity → f.structuralIntegrity
  pinnedRoleAuthority : f'.pinnedRoleAuthority → f.pinnedRoleAuthority
  attestationValid : f'.attestationValid → f.attestationValid
  brokeredUseValid : f'.brokeredUseValid → f.brokeredUseValid
  introspectedUseValid : f'.introspectedUseValid → f.introspectedUseValid
  disclosedRevocationFresh : f'.disclosedRevocationFresh → f.disclosedRevocationFresh
  merkleRevocationFresh : f'.merkleRevocationFresh → f.merkleRevocationFresh
  merkleNonmembershipComplete : f'.merkleNonmembershipComplete → f.merkleNonmembershipComplete
  disclosureComplete : f'.disclosureComplete → f.disclosureComplete

/-- A decision after another one that has more support: nothing becomes satisfied, and what
was refuted still is. -/
def ClaimDecision.Weakened (d d' : ClaimDecision) : Prop :=
  (d' = .satisfied → d = .satisfied) ∧ (d = .refuted → d' = .refuted)

/-- Decisions weaken when refutation grows and satisfaction shrinks. -/
theorem decision_weakened {refuted satisfied refuted' satisfied' : Bool}
    (hr : refuted → refuted') (hs : satisfied' → satisfied) :
    (decision refuted satisfied).Weakened (decision refuted' satisfied') := by
  unfold ClaimDecision.Weakened
  rw [decision_eq_satisfied_iff, decision_eq_satisfied_iff, decision_eq_refuted_iff,
    decision_eq_refuted_iff]
  refine ⟨fun ⟨hno, hyes⟩ => ⟨?_, hs hyes⟩, hr⟩
  rw [← Bool.not_eq_true] at hno ⊢
  exact fun h => hno (hr h)

section Erasure

/-- What holds of the erased facts held before. -/
theorem CapstoneFacts.Erased.base {c c' : CapstoneFacts} (h : c.Erased c') (hb : c'.base) :
    c.base := by
  simp only [CapstoneFacts.base, Bool.and_eq_true] at hb ⊢
  obtain ⟨⟨⟨⟨⟨⟨⟨⟨⟨⟨⟨⟨⟨⟨⟨h1, h2⟩, h3⟩, h4⟩, h5⟩, h6⟩, h7⟩, h8⟩, h9⟩, h10⟩, h11⟩, h12⟩, h13⟩, h14⟩,
    h15⟩, h16⟩ := hb
  exact ⟨⟨⟨⟨⟨⟨⟨⟨⟨⟨⟨⟨⟨⟨⟨h.manifest h1, h.twoPhase h2⟩, h.noIncompleteIntent h3⟩, h.taxonomy h4⟩,
    h.everyActionVerified h5⟩, h.everyPopReverified h6⟩, h.grantLog h7⟩, h.attestation h8⟩,
    h.noViolation h9⟩, h.noPending h10⟩, h.boundedReuse h11⟩, h.cosignatures h12⟩,
    h.delegation h13⟩, h.revocation h14⟩, h.federation h15⟩, h.coverage h16⟩

theorem CapstoneFacts.Erased.brokered {c c' : CapstoneFacts} (h : c.Erased c')
    (hb : c'.brokered) : c.brokered := by
  rw [CapstoneFacts.brokered, Bool.and_eq_true] at hb ⊢
  exact ⟨h.base hb.1, h.brokeredSurface hb.2⟩

theorem CapstoneFacts.Erased.introspected {c c' : CapstoneFacts} (h : c.Erased c')
    (hb : c'.introspected) : c.introspected := by
  rw [CapstoneFacts.introspected, Bool.and_eq_true] at hb ⊢
  exact ⟨h.base hb.1, h.introspectedSurface hb.2⟩

variable {f f' : ValidatedFacts} (h : f.Erased f')
include h

namespace ValidatedFacts.Erased

/-- Dropped seals leave fewer than there are records. -/
theorem pinnedRecordKeys (hlen : f.pinnedRecordSeals.length ≤ f.recordCount)
    (hk : Averin.pinnedRecordKeys f') : Averin.pinnedRecordKeys f := by
  simp only [Averin.pinnedRecordKeys, Bool.and_eq_true, decide_eq_true_eq, beq_iff_eq,
    h.recordCount, h.pinnedSignerKeys] at hk ⊢
  obtain ⟨⟨hpos, hall⟩, hseals⟩ := hk
  have heq := h.pinnedRecordSeals.eq_of_length_le (by omega)
  rw [heq] at hall hseals
  exact ⟨⟨hpos, hall⟩, hseals⟩

theorem anchoredLatest (ha : anchoredAt f'.anchors f'.latestCheckpointSequence) :
    anchoredAt f.anchors f.latestCheckpointSequence := by
  obtain ⟨a, hmem, hat⟩ := anchoredAt_iff.mp ha
  exact anchoredAt_iff.mpr ⟨a, h.anchors.subset hmem, h.latestCheckpointSequence ▸ hat⟩

theorem adverse_eq : adverse f' = adverse f := by
  simp only [adverse, h.immutableRecordContradiction, h.checkedContradiction,
    h.revokedMembership, h.adverseDisclosure, h.adverseAnchor]

/-- Nothing adverse to the historical claim is hidden. -/
theorem historicalAdverse_eq : historicalAdverse f' = historicalAdverse f := by
  simp only [historicalAdverse, h.immutableRecordContradiction, h.historical.checkedContradiction,
    h.adverseDisclosure, h.adverseAnchor, h.historical.adverse]

/-- Erasing adds no evidence of revocation. -/
theorem revocationReady (hr : Averin.revocationReady f') : Averin.revocationReady f := by
  have h1 := h.disclosedRevocationFresh
  have h2 := h.merkleRevocationFresh
  have h3 := h.merkleNonmembershipComplete
  simp only [Averin.revocationReady, h.policy, h.revocationIssuerPinned] at hr ⊢
  cases hmode : f.policy.revocation <;>
    simp only [hmode, Bool.or_eq_true, Bool.and_eq_true] at hr ⊢ <;> tauto

/-- Erasing adds nothing the policy asks for. -/
theorem policyEvidenceReady (hp : Averin.policyEvidenceReady f') :
    Averin.policyEvidenceReady f := by
  have h1 := h.disclosureComplete
  have h2 := h.attestationValid
  simp only [Averin.policyEvidenceReady, h.policy, Bool.or_eq_true, Bool.and_eq_true] at hp ⊢
  tauto

/-- Erasing authorises nothing. -/
theorem authorized (hlen : f.pinnedRecordSeals.length ≤ f.recordCount)
    (ha : Averin.authorized f' (Averin.pinnedRecordKeys f') (Averin.revocationReady f')) :
    Averin.authorized f (Averin.pinnedRecordKeys f) (Averin.revocationReady f) := by
  simp only [Averin.authorized, authorizationReady, Bool.and_eq_true, Bool.or_eq_true] at ha ⊢
  obtain ⟨⟨hi, hk⟩, ⟨⟨hrole, hrev⟩, hpol⟩, huse⟩ := ha
  exact ⟨⟨h.structuralIntegrity hi, h.pinnedRecordKeys hlen hk⟩,
    ⟨⟨h.pinnedRoleAuthority hrole, h.revocationReady hrev⟩, h.policyEvidenceReady hpol⟩,
    huse.imp h.brokeredUseValid h.introspectedUseValid⟩

/-- Erasing authorises nothing in time. -/
theorem temporal
    (ht : Averin.temporal f' (anchoredAt f'.anchors f'.latestCheckpointSequence)
      (Averin.revocationReady f')) :
    Averin.temporal f (anchoredAt f.anchors f.latestCheckpointSequence)
      (Averin.revocationReady f) := by
  simp only [Averin.temporal, Bool.and_eq_true] at ht ⊢
  exact ⟨⟨h.anchoredLatest ht.1.1, h.attestationValid ht.1.2⟩, h.revocationReady ht.2⟩

/-- Erasing makes no historical claim ready. -/
theorem historicalReady (hr : Averin.historicalReady f') : Averin.historicalReady f := by
  have h1 := h.historical.v2ListUsable
  have h2 := h.historical.v2MerkleUsable
  have h3 := h.historical.merklePathsComplete
  simp only [Averin.historicalReady, historicalRevocation, Bool.and_eq_true, Bool.or_eq_true,
    h.policy, h.revocationIssuerPinned] at hr ⊢
  obtain ⟨⟨⟨⟨hrole, hsnap⟩, hissuer, hmode⟩, hpol⟩, huse⟩ := hr
  refine ⟨⟨⟨⟨h.pinnedRoleAuthority hrole, h.historical.snapshotVerified hsnap⟩, hissuer, ?_⟩,
    h.policyEvidenceReady hpol⟩,
    huse.imp h.historical.brokeredUseValid h.historical.introspectedUseValid⟩
  cases hmode' : f.policy.revocation <;> simp only [hmode', Bool.and_eq_true] at hmode ⊢ <;> tauto

/-- What refutes is not erased. -/
theorem authorizationRefuted (hr : Averin.authorizationRefuted f) :
    Averin.authorizationRefuted f' := by
  rw [Averin.authorizationRefuted, Bool.or_eq_true, Bool.not_eq_true'] at hr ⊢
  rw [h.adverse_eq, ← Bool.not_eq_true]
  exact hr.imp_left fun hi hi' => by
    rw [h.structuralIntegrity hi'] at hi
    cases hi

/-- Every decision weakens. -/
theorem weakened (hlen : f.pinnedRecordSeals.length ≤ f.recordCount) (c : Claim) :
    ((decideClaims f).on c).Weakened ((decideClaims f').on c) := by
  have hinteg : (!f.structuralIntegrity) = true → (!f'.structuralIntegrity) = true := by
    rw [Bool.not_eq_true', Bool.not_eq_true', ← Bool.not_eq_true, ← Bool.not_eq_true]
    exact fun hi hi' => hi (h.structuralIntegrity hi')
  have hcomplete : ∀ surface surface' : Bool, (surface' → surface) →
      (completeClaim f (Averin.pinnedRecordKeys f)
        (anchoredAt f.anchors f.latestCheckpointSequence) (Averin.revocationReady f)
        surface).Weakened
      (completeClaim f' (Averin.pinnedRecordKeys f')
        (anchoredAt f'.anchors f'.latestCheckpointSequence) (Averin.revocationReady f')
        surface') := by
    intro surface surface' hsurface
    refine decision_weakened h.authorizationRefuted ?_
    simp only [Bool.and_eq_true]
    exact fun hs => ⟨⟨h.authorized hlen hs.1.1, h.temporal hs.1.2⟩, hsurface hs.2⟩
  cases c with
  | integrity => exact decision_weakened hinteg id
  | authenticated =>
    refine decision_weakened hinteg ?_
    simp only [Bool.and_eq_true]
    exact fun hs => ⟨h.structuralIntegrity hs.1, h.pinnedRecordKeys hlen hs.2⟩
  | authorized => exact decision_weakened h.authorizationRefuted (h.authorized hlen)
  | temporal => exact decision_weakened (h.adverse_eq ▸ id) h.temporal
  | historical =>
    refine decision_weakened ?_ ?_
    · simp only [Bool.and_eq_true, Bool.or_eq_true, h.historical.selected, h.historicalAdverse_eq]
      exact fun hs => ⟨hs.1, hs.2.imp_left hinteg⟩
    · simp only [Bool.and_eq_true, h.historical.selected]
      exact fun hs => ⟨⟨⟨hs.1.1.1, h.structuralIntegrity hs.1.1.2⟩,
        h.pinnedRecordKeys hlen hs.1.2⟩, h.historicalReady hs.2⟩
  | completeBrokered => exact hcomplete _ _ h.capstone.brokered
  | completeIntrospected => exact hcomplete _ _ h.capstone.introspected

end ValidatedFacts.Erased

end Erasure

/-- One seal a record at most. -/
theorem length_pinnedRecordSeals_le (records : List CanonValue) (proven : RecordTrust → Bool)
    (keys : String → Int → Option (Vector UInt8 32)) (pinned : List (Vector UInt8 32)) :
    (pinnedRecordSeals (recordTrustOf records) proven records keys pinned).length ≤
      records.length := by
  refine (List.length_filterMap_le _ _).trans ?_
  simp [recordTrustOf]

/-- The kernel keeps the order of claims and loses nothing but support. A satisfied claim has
every claim it implies satisfied, so none of those is refuted; a satisfied capstone rests on
the facts of authorization, and a satisfied historical claim on those of the historical view.
Taking support away from facts with at most one seal a record, as the verifier builds them,
satisfies no claim that was not satisfied and leaves every refuted claim refuted. -/
theorem claims_ordered_and_erasable (f : ValidatedFacts) :
    (∀ c, (decideClaims f).on c = .satisfied →
      ∀ d ∈ c.weaker, (decideClaims f).on d = .satisfied ∧ (decideClaims f).on d ≠ .refuted) ∧
    ((decideClaims f).completeBrokered = .satisfied ∨
        (decideClaims f).completeIntrospected = .satisfied →
      f.structuralIntegrity = true ∧ adverse f = false ∧ pinnedRecordKeys f = true ∧
        authorizationReady f (revocationReady f) = true) ∧
    ((decideClaims f).historicalAuthorizedAsOfSnapshot = .satisfied →
      f.historical.selected = true ∧ f.structuralIntegrity = true ∧
        historicalAdverse f = false ∧ pinnedRecordKeys f = true ∧ historicalReady f = true) ∧
    (∀ records proven keys pinned,
      (pinnedRecordSeals (recordTrustOf records) proven records keys pinned).length ≤
        records.length) ∧
    ∀ f', f.Erased f' → f.pinnedRecordSeals.length ≤ f.recordCount →
      (∀ c, ((decideClaims f).on c).Weakened ((decideClaims f').on c)) ∧
        (decideClaims f).requestedDecision.Weakened (decideClaims f').requestedDecision := by
  refine ⟨fun c hc d hd => ?_, ?_, historical_eq_satisfied_iff.mp, length_pinnedRecordSeals_le,
    fun f' h hlen => ⟨h.weakened hlen, ?_⟩⟩
  · have hsat := satisfied_of_weaker hc hd
    exact ⟨hsat, by rw [hsat]; simp⟩
  · rintro (hc | hc)
    · exact authorized_eq_satisfied_iff.mp (completeClaim_eq_satisfied_iff.mp hc).1
    · exact authorized_eq_satisfied_iff.mp (completeClaim_eq_satisfied_iff.mp hc).1
  · rw [requestedDecision_eq, requestedDecision_eq, h.policy]
    exact h.weakened hlen _

/-- A seal. -/
def sampleSeal : PinnedRecordSeal := ⟨"h", .replicate 32 0⟩

/-- Facts about one record with every other support and only the given adverse flag of the
historical view, for the given seals and settings of the caller. -/
def supported (seals : List PinnedRecordSeal) (selected issuerPinned fresh adverse : Bool) :
    ValidatedFacts where
  historical := ⟨selected, true, true, true, adverse, false, true, true, true⟩
  structuralIntegrity := true
  recordCount := 1
  pinnedRecordSeals := seals
  pinnedSignerKeys := [sampleSeal.keyBytes]
  pinnedRoleAuthority := true
  latestCheckpointSequence := 0
  anchors := [⟨"c", "t", 0⟩]
  attestationValid := true
  brokeredUseValid := true
  introspectedUseValid := true
  capstone := ⟨true, true, true, true, true, true, true, true, true, true, true, true, true, true,
    true, true, true, true⟩
  immutableRecordContradiction := false
  checkedContradiction := false
  adverseDisclosure := false
  adverseAnchor := false
  revokedMembership := false
  revocationIssuerPinned := issuerPinned
  disclosedRevocationFresh := fresh
  merkleRevocationFresh := true
  merkleNonmembershipComplete := true
  disclosureComplete := true
  policy := {}

/-- With everything in its favour the historical claim is satisfied, so are those it implies, and
without its seal none of them is better. -/
theorem claims_ordered_and_erasable_supported :
    (∀ d ∈ Claim.historical.weaker,
      (decideClaims (supported [sampleSeal] true true true false)).on d = .satisfied) ∧
    historicalReady (supported [sampleSeal] true true true false) = true ∧
    ∀ c, ((decideClaims (supported [sampleSeal] true true true false)).on c).Weakened
      ((decideClaims (supported [] true true true false)).on c) := by
  obtain ⟨hweaker, -, hhistorical, -, herased⟩ :=
    claims_ordered_and_erasable (supported [sampleSeal] true true true false)
  refine ⟨fun d hd => (hweaker .historical (by decide) d hd).1, ?_,
    (herased (supported [] true true true false) ?_ (by decide)).1⟩
  · obtain ⟨-, -, -, -, hready⟩ := hhistorical (by decide)
    exact hready
  · constructor
    case historical => constructor <;> first | rfl | exact id
    case capstone => constructor <;> exact id
    case pinnedRecordSeals => exact List.nil_sublist _
    case anchors => exact List.Sublist.refl _
    all_goals first | rfl | exact id

/-- What is no support. Facts with two seals for one record are not authenticated, and become
so when a seal is dropped. And two flags belong to the caller: without a pinned issuer no
fresh list is needed, and without the historical view nothing is refuted by it. -/
theorem surplus_seal_blocks_authentication :
    (∃ f f', f.Erased f' ∧ (decideClaims f).authenticated ≠ .satisfied ∧
      (decideClaims f').authenticated = .satisfied) ∧
    ((decideClaims (supported [sampleSeal] false true false false)).authorized ≠ .satisfied ∧
      (decideClaims (supported [sampleSeal] false false false false)).authorized = .satisfied) ∧
    (decideClaims (supported [sampleSeal] true true true true)).on .historical = .refuted ∧
      (decideClaims (supported [sampleSeal] false true true true)).on .historical ≠ .refuted := by
  refine ⟨⟨supported [sampleSeal, sampleSeal] false false true false,
    supported [sampleSeal] false false true false, ?_, by decide, by decide⟩, by decide, by decide⟩
  constructor
  case historical => constructor <;> first | rfl | exact id
  case capstone => constructor <;> exact id
  case pinnedRecordSeals => exact (List.Sublist.refl _).cons _
  case anchors => exact List.Sublist.refl _
  all_goals first | rfl | exact id

end Averin
