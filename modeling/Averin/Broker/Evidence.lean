import Averin.Canon.Object
import Averin.Verify.Uses

/-!
# The evidence of a grant

What the broker states about a grant it issues, as the signed payload the verifier reads. The
fields a grant may lack come last: the request of the second version, the limit of a reusable
grant, the issuing broker, and what is attached to the grant after it was prepared.
-/

namespace Averin

/-- The approval of a grant by one approver. -/
structure Cosignature where
  approverKid : String
  sig : String
  deriving DecidableEq

/-- The passing on of a grant to another key. -/
structure DelegationHop where
  delegatorCnf : String
  delegateCnf : String
  scope : String
  action : String
  resourceId : String
  exp : Int64
  sig : String
  deriving DecidableEq

/-- What ties a grant to the request it answers. -/
structure RequestBinding where
  projectId : String
  requestHash : String
  deriving DecidableEq

/-- What a grant record says of the grant. -/
structure GrantEvidence where
  grantId : String
  authorizingPrincipal : String
  delegationChain : List String
  agentId : String
  action : String
  resourceId : String
  scope : String
  scopeClass : String
  cnfKid : String
  credentialBinding : String
  brokerSeq : Int64
  issuedAt : Int64
  exp : Int64
  request : Option RequestBinding := none
  useLimit : Option Int64 := none
  brokerId : String := ""
  cosig : Option (Int64 × List Cosignature) := none
  hops : List DelegationHop := []
  deriving DecidableEq

/-- How a grant is issued. -/
def grantTypeIDJAG : String := "id-jag"

/-- The conformance of a grant by itself. -/
def conformanceL1GrantOnly : String := "L1_grant_only"

/-- An approval as it is recorded. -/
def Cosignature.toJson (c : Cosignature) : CanonValue :=
  .obj [("approver_kid", .str c.approverKid), ("sig", .str c.sig)]

/-- A hop as it is recorded. -/
def DelegationHop.toJson (h : DelegationHop) : CanonValue :=
  .obj [("delegator_cnf", .str h.delegatorCnf), ("delegate_cnf", .str h.delegateCnf),
    ("scope", .str h.scope), ("action", .str h.action), ("resource_id", .str h.resourceId),
    ("exp", .int h.exp), ("sig", .str h.sig)]

namespace GrantEvidence

variable (ev : GrantEvidence)

/-- The members every grant has. -/
def fixedMembers : List (String × CanonValue) :=
  [("kind", .str "grant"), ("grant_id", .str ev.grantId), ("grant_type", .str grantTypeIDJAG),
    ("authorizing_principal", .str ev.authorizingPrincipal),
    ("delegation_chain", .arr (ev.delegationChain.map .str)), ("agent_id", .str ev.agentId),
    ("action", .str ev.action), ("resource_id", .str ev.resourceId), ("scope", .str ev.scope),
    ("scope_class", .str ev.scopeClass), ("conformance_level", .str conformanceL1GrantOnly),
    ("cnf_kid", .str ev.cnfKid), ("credential_binding", .str ev.credentialBinding),
    ("broker_seq", .int ev.brokerSeq), ("issued_at", .int ev.issuedAt), ("exp", .int ev.exp)]

/-- The members of a grant that answers a request of the second version. -/
def requestMembers : List (String × CanonValue) :=
  ev.request.elim [] fun r =>
    [("project_id", .str r.projectId), ("pop_version", .int 2),
      ("request_hash", .str r.requestHash)]

/-- The limit, where there is one. -/
def limitMembers : List (String × CanonValue) :=
  ev.useLimit.elim [] fun n => [("use_limit", .int n)]

/-- The broker, where it is named. -/
def brokerMembers : List (String × CanonValue) :=
  if ev.brokerId ≠ "" then [("broker_id", .str ev.brokerId)] else []

/-- The approvals, where they are asked for. -/
def cosigMembers : List (String × CanonValue) :=
  ev.cosig.elim [] fun c =>
    [("cosig_threshold", .int c.1), ("cosignatures", .arr (c.2.map Cosignature.toJson))]

/-- The hops, where there are any. -/
def hopMembers : List (String × CanonValue) :=
  if ev.hops ≠ [] then [("delegation_assertions", .arr (ev.hops.map DelegationHop.toJson))] else []

/-- The payload as it is signed and read. -/
def toJson : CanonValue :=
  .obj (ev.fixedMembers ++ (ev.requestMembers ++ (ev.limitMembers ++ (ev.brokerMembers ++
    (ev.cosigMembers ++ ev.hopMembers)))))

end GrantEvidence

namespace CanonValue

variable {xs ys : List (String × CanonValue)} {k : String}

/-- A key the first members lack is looked up in the rest. -/
theorem get_append_of_not_mem (h : k ∉ xs.map (·.1)) : (obj (xs ++ ys)).get k = (obj ys).get k := by
  have hnone : xs.find? (·.1 == k) = none := by
    rw [List.find?_eq_none]
    intro m hm heq
    exact h (List.mem_map.mpr ⟨m, hm, by simpa using heq⟩)
  simp only [get, member, List.find?_append, hnone, Option.none_or]

/-- A key of the first members is looked up there. -/
theorem get_append_of_mem {v : CanonValue} (h : (obj xs).get k = some v) :
    (obj (xs ++ ys)).get k = some v := by
  simp only [get, member, Option.map_eq_some_iff] at h ⊢
  obtain ⟨m, hm, rfl⟩ := h
  exact ⟨m, by rw [List.find?_append, hm, Option.some_or], rfl⟩

/-- A key that is not there has no value. -/
theorem get_eq_none_of_not_mem (h : k ∉ xs.map (·.1)) : (obj xs).get k = none := by
  have happend : (obj (xs ++ [])).get k = (obj []).get k := get_append_of_not_mem h
  rw [List.append_nil] at happend
  rw [happend]
  rfl

end CanonValue

namespace GrantEvidence

variable {ev : GrantEvidence} {k : String} {v : CanonValue}

/-- A member every grant has is found under its key. -/
theorem get_toJson_fixed (h : (CanonValue.obj ev.fixedMembers).get k = some v) :
    ev.toJson.get k = some v :=
  CanonValue.get_append_of_mem h

theorem keys_request :
    ev.requestMembers.map (·.1) ⊆ ["project_id", "pop_version", "request_hash"] := by
  unfold requestMembers
  cases ev.request <;> simp

theorem keys_broker : ev.brokerMembers.map (·.1) ⊆ ["broker_id"] := by
  unfold brokerMembers
  split_ifs <;> simp

theorem keys_cosig : ev.cosigMembers.map (·.1) ⊆ ["cosig_threshold", "cosignatures"] := by
  unfold cosigMembers
  cases ev.cosig <;> simp

theorem keys_hop : ev.hopMembers.map (·.1) ⊆ ["delegation_assertions"] := by
  unfold hopMembers
  split_ifs <;> simp

/-- The members of a request. -/
theorem requestMembers_of_request {r : RequestBinding} (h : ev.request = some r) :
    ev.requestMembers = [("project_id", .str r.projectId), ("pop_version", .int 2),
      ("request_hash", .str r.requestHash)] := by
  rw [requestMembers, h]
  rfl

/-- A member of the request is found under its key. -/
theorem get_toJson_request (hk : k ∉ ev.fixedMembers.map (·.1))
    (h : (CanonValue.obj ev.requestMembers).get k = some v) : ev.toJson.get k = some v := by
  rw [toJson, CanonValue.get_append_of_not_mem hk]
  exact CanonValue.get_append_of_mem h

/-- The limit is found where there is one. -/
theorem get_toJson_useLimit : ev.toJson.get "use_limit" = ev.useLimit.map .int := by
  have hfixed : "use_limit" ∉ ev.fixedMembers.map (·.1) := by simp [fixedMembers]
  have hrequest : "use_limit" ∉ ev.requestMembers.map (·.1) := fun hm => by
    simpa using keys_request hm
  rw [toJson, CanonValue.get_append_of_not_mem hfixed, CanonValue.get_append_of_not_mem hrequest]
  cases hlimit : ev.useLimit with
  | none =>
    apply CanonValue.get_eq_none_of_not_mem
    simp only [limitMembers, hlimit, Option.elim_none, List.nil_append, List.map_append,
      List.mem_append, not_or]
    refine ⟨fun hm => ?_, fun hm => ?_, fun hm => ?_⟩
    · simpa using keys_broker hm
    · simpa using keys_cosig hm
    · simpa using keys_hop hm
  | some n =>
    apply CanonValue.get_append_of_mem
    rw [limitMembers, hlimit]
    rfl

end GrantEvidence

end Averin
