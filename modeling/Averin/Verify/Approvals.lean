import Averin.Sign.Challenges

/-!
# Approvals and hops as the verifier reads them

The verifier counts the approvers of a grant whose signature stands in its payload, and walks
the chain by which the grant was passed on. Texts of keys and signatures are read by the
strict decoder.
-/

namespace Averin

/-- A change in the life of a pinned key. -/
structure RoleKeyStatus where
  status : String := ""
  statusChangedAt : Option String := none

/-- A key without a status is honored, any other by the rule of its role. -/
def roleKeyHonored (roleStatus : Vector UInt8 32 → Option RoleKeyStatus)
    (honored : RoleKeyStatus → Bool) (vk : Vector UInt8 32) : Bool :=
  (roleStatus vk).elim true honored

/-- What an anchor committed before the change is honored. -/
def honoredAnchoredBefore (anchoredBefore : String → String → Bool) (contentHash : String)
    (rks : RoleKeyStatus) : Bool :=
  rks.statusChangedAt.any fun t => anchoredBefore contentHash t

/-- The payload of a grant. -/
def grantEvidenceOf (rec : CanonValue) : Option CanonValue :=
  ((rec.get "extensions").bind (·.get "broker")).bind (·.get "grant_evidence")

/-- The approvals of a grant. -/
def cosignaturesOf (rec : CanonValue) : Option (List CanonValue) :=
  ((grantEvidenceOf rec).bind (·.get "cosignatures")).bind CanonValue.asArray

/-- The chain by which a grant was passed on. -/
inductive ChainResult where
  | absent
  | verified (effCnfKid : String) (effExp : Int)
  | monotonicity
  | invalid
  deriving DecidableEq, Repr

section Read

variable (sha256 : List UInt8 → Vector UInt8 32) (ed : Ed25519)

/-- The pinned approver with this name. -/
def pinnedApprover (approverKeys : List (Vector UInt8 32)) (kid : String) :
    Option (Vector UInt8 32) :=
  approverKeys.foldl (fun found vk => if cnfKid sha256 vk = kid then some vk else found) none

/-- The approver an entry credits, if its signature stands. -/
def creditedBy (grantId credentialBinding : String) (thresholdM exp : Int)
    (approverKeys : List (Vector UInt8 32)) (honored : Vector UInt8 32 → Bool)
    (cs : CanonValue) : Option String := do
  let kid ← (cs.get "approver_kid").bind CanonValue.asStr
  let vk ← pinnedApprover sha256 approverKeys kid
  let sigStr ← (cs.get "sig").bind CanonValue.asStr
  let signature ← B64.decodeFixed 64 sigStr
  let challenge := sha256 (cosigApprovalPreimage grantId kid credentialBinding thresholdM exp)
  if ed.verifyStrict vk challenge.toList signature && honored vk then some kid else none

/-- What a list gives, each thing once. -/
def collectDistinct {α β : Type} [DecidableEq β] (f : α → Option β) (l : List α) : List β :=
  l.foldl (fun acc a => match f a with
    | none => acc
    | some b => if b ∈ acc then acc else acc ++ [b]) []

/-- The distinct approvers whose signature stands. -/
def countCosigApprovals (rec : CanonValue) (grantId credentialBinding : String)
    (thresholdM exp : Int) (approverKeys : List (Vector UInt8 32))
    (roleStatus : Vector UInt8 32 → Option RoleKeyStatus) (grantContentHash : String)
    (anchoredBefore : String → String → Bool) : Nat :=
  match cosignaturesOf rec with
  | none => 0
  | some cosignatures =>
    let honored := roleKeyHonored roleStatus
      (honoredAnchoredBefore anchoredBefore grantContentHash)
    (collectDistinct (creditedBy sha256 ed grantId credentialBinding thresholdM exp approverKeys
      honored) cosignatures).length

/-- A key of a hop, if its text is one. -/
def hopKey (text : String) : Option (Vector UInt8 32) :=
  (B64.decodeFixed 32 text).filter ed.validKey

/-- The hops from the `i`-th on. -/
def walkHops (grantId grantScope grantAction grantResourceId : String) :
    List CanonValue → (i : Nat) → (expectedDelegatorKid : String) → (effExp : Int) →
      (monotone : Bool) → ChainResult
  | [], _, expectedDelegatorKid, effExp, monotone =>
    if monotone then .verified expectedDelegatorKid effExp else .monotonicity
  | hop :: hops, i, expectedDelegatorKid, effExp, monotone =>
    let text k := (hop.get k).bind CanonValue.asStr
    match text "delegator_cnf", text "delegate_cnf", text "scope", text "action",
      text "resource_id", text "sig", (hop.get "exp").bind CanonValue.asInt with
    | some delegatorB64, some delegateB64, some scope, some action, some resourceId, some sigB64,
      some hopExp =>
      match hopKey ed delegatorB64, hopKey ed delegateB64 with
      | some delegatorVk, some delegateVk =>
        let delegatorKid := cnfKid sha256 delegatorVk
        let delegateKid := cnfKid sha256 delegateVk
        if delegatorKid ≠ expectedDelegatorKid then .invalid
        else
          let challenge := sha256 (delegationHopPreimage grantId i delegatorKid delegateKid scope
            action resourceId hopExp)
          match B64.decodeFixed 64 sigB64 with
          | none => .invalid
          | some sig =>
            if ed.verifyStrict delegatorVk challenge.toList sig = false then .invalid
            else
              walkHops grantId grantScope grantAction grantResourceId hops (i + 1) delegateKid
                (min effExp hopExp)
                (monotone && (scope = grantScope && action = grantAction &&
                  resourceId = grantResourceId))
      | _, _ => .invalid
    | _, _, _, _, _, _, _ => .invalid

/-- Walk the hops of a grant. -/
def verifyDelegationChain (rec : CanonValue) (grantId rootCnfKid grantScope grantAction
    grantResourceId : String) (grantExp : Int) : ChainResult :=
  match ((grantEvidenceOf rec).bind (·.get "delegation_assertions")).bind CanonValue.asArray with
  | none | some [] => .absent
  | some assertions =>
    walkHops sha256 ed grantId grantScope grantAction grantResourceId assertions 0 rootCnfKid
      grantExp true

end Read

/-- As many things are collected as the list gives distinct ones. -/
theorem length_collectDistinct {α β : Type} [DecidableEq β] (f : α → Option β) (l : List α) :
    (collectDistinct f l).length = (l.filterMap f).dedup.length := by
  have hspec : (collectDistinct f l).Nodup ∧ ∀ b, b ∈ collectDistinct f l ↔ b ∈ l.filterMap f := by
    induction l using List.reverseRecOn with
    | nil => exact ⟨List.nodup_nil, by simp [collectDistinct]⟩
    | append_singleton l a ih =>
      obtain ⟨hnodup, hmem⟩ := ih
      rw [List.filterMap_append]
      unfold collectDistinct at hnodup hmem ⊢
      rw [List.foldl_append, List.foldl_cons, List.foldl_nil]
      cases ha : f a with
      | none =>
        refine ⟨hnodup, fun b => ?_⟩
        rw [hmem, List.mem_append]
        simp [ha]
      | some c =>
        dsimp only
        split_ifs with hc
        · refine ⟨hnodup, fun b => ?_⟩
          rw [hmem, List.mem_append]
          constructor
          · exact Or.inl
          · rintro (h | h)
            · exact h
            · obtain rfl : b = c := by simpa [ha] using h
              exact (hmem b).mp hc
        · refine ⟨List.Nodup.append hnodup (List.nodup_singleton c) (by simpa using hc), ?_⟩
          intro b
          rw [List.mem_append, hmem, List.mem_append]
          simp [ha]
  apply List.Perm.length_eq
  rw [List.perm_ext_iff_of_nodup hspec.1 (List.nodup_dedup _)]
  intro b
  rw [hspec.2, List.mem_dedup]

/-- The later of two pinned keys with one name counts. -/
theorem pinnedApprover_eq_find? {sha256 : List UInt8 → Vector UInt8 32}
    (keys : List (Vector UInt8 32)) (kid : String) :
    pinnedApprover sha256 keys kid = keys.reverse.find? fun vk => cnfKid sha256 vk = kid := by
  induction keys using List.reverseRecOn with
  | nil => rfl
  | append_singleton keys vk ih =>
    rw [pinnedApprover, List.foldl_append, List.foldl_cons, List.foldl_nil, ← pinnedApprover, ih,
      List.reverse_append, List.reverse_singleton, List.singleton_append, List.find?_cons]
    split_ifs with h <;> simp [h]

/-- A scheme that accepts every signature under every key. -/
def anySig : Ed25519 := ⟨fun _ => true, fun _ _ _ => true⟩

/-- A hash of zeros. -/
def blankHash (_ : List UInt8) : Vector UInt8 32 := Vector.replicate 32 0

/-- A key of zeros. -/
def blankKey : Vector UInt8 32 := Vector.replicate 32 0

/-- The text of the key of zeros. -/
def blankKeyText : String := B64.encode blankKey.toList

/-- The text of a signature of zeros. -/
def blankSigText : String := B64.encode (List.replicate 64 0)

end Averin
