import Averin.Verify.Approvals

/-!
# Counting approvals

The approvals of a grant are counted by key: as many as there are pinned keys under which some
entry of the list stands. So the count depends on which entries there are, not on their order
or number, and entries that are malformed or name no pinned key add nothing.
-/

namespace Averin

variable (sha256 : List UInt8 → Vector UInt8 32) (ed : Ed25519)

/-- An approval request: what the approvers of a grant sign. -/
structure ApprovalRequest where
  grantId : String
  credentialBinding : String
  thresholdM : Int
  exp : Int

/-- The challenge for the approver with this name. -/
def ApprovalRequest.challenge (r : ApprovalRequest) (kid : String) : Vector UInt8 32 :=
  sha256 (cosigApprovalPreimage r.grantId kid r.credentialBinding r.thresholdM r.exp)

/-- The signature of an entry, if it is well formed. -/
def cosignatureSig (cs : CanonValue) : Option (Vector UInt8 64) :=
  ((cs.get "sig").bind CanonValue.asStr).bind (B64.decodeFixed 64)

/-- The approver that an entry names. -/
def approverKid (cs : CanonValue) : Option String := (cs.get "approver_kid").bind CanonValue.asStr

/-- The entry names the key, is signed by it, and the key is honored. -/
def credits (r : ApprovalRequest) (honored : Vector UInt8 32 → Bool) (vk : Vector UInt8 32)
    (cs : CanonValue) : Bool :=
  approverKid cs = some (cnfKid sha256 vk) &&
    (cosignatureSig cs).any fun sig =>
      ed.verifyStrict vk (r.challenge sha256 (cnfKid sha256 vk)).toList sig && honored vk

/-- An entry that names no approver, or whose signature is not well formed. -/
def Malformed (cs : CanonValue) : Prop := approverKid cs = none ∨ cosignatureSig cs = none

/-- An entry that names no pinned key. -/
def Unpinned (keys : List (Vector UInt8 32)) (cs : CanonValue) : Prop :=
  ∀ vk ∈ keys, approverKid cs ≠ some (cnfKid sha256 vk)

/-- The keys that are found by their names: all of them, unless two have one name. -/
def pinnedApprovers (keys : List (Vector UInt8 32)) : List (Vector UInt8 32) :=
  keys.dedup.filter fun vk => pinnedApprover sha256 keys (cnfKid sha256 vk) = some vk

/-- No two of the keys have one name. -/
def KidsDistinct (keys : List (Vector UInt8 32)) : Prop :=
  ∀ k ∈ keys, ∀ k' ∈ keys, cnfKid sha256 k = cnfKid sha256 k' → k = k'

variable {sha256 ed} {keys : List (Vector UInt8 32)}

/-- A pinned key is one of the keys and has the name. -/
theorem pinnedApprover_eq_some {kid : String} {vk : Vector UInt8 32}
    (h : pinnedApprover sha256 keys kid = some vk) : vk ∈ keys ∧ cnfKid sha256 vk = kid := by
  rw [pinnedApprover_eq_find?] at h
  exact ⟨List.mem_reverse.mp (List.mem_of_find?_eq_some h), by simpa using List.find?_some h⟩

/-- Without two keys of one name every key is found. -/
theorem pinnedApprovers_eq (h : KidsDistinct sha256 keys) :
    pinnedApprovers sha256 keys = keys.dedup := by
  refine List.filter_eq_self.mpr fun vk hvk => ?_
  have hmem : vk ∈ keys := List.mem_dedup.mp hvk
  cases hp : pinnedApprover sha256 keys (cnfKid sha256 vk) with
  | none =>
    rw [pinnedApprover_eq_find?, List.find?_eq_none] at hp
    exact absurd (hp vk (List.mem_reverse.mpr hmem)) (by simp)
  | some found =>
    obtain ⟨hfound, hkid⟩ := pinnedApprover_eq_some hp
    simpa using h found hfound vk hmem hkid

variable {r : ApprovalRequest} {honored : Vector UInt8 32 → Bool}

/-- Who is credited is the pinned key of the name. -/
theorem creditedBy_eq_bind {cs : CanonValue} :
    creditedBy sha256 ed r.grantId r.credentialBinding r.thresholdM r.exp keys honored cs =
      (approverKid cs).bind fun kid => (pinnedApprover sha256 keys kid).bind fun vk =>
        (cosignatureSig cs).bind fun sig =>
          if ed.verifyStrict vk (r.challenge sha256 kid).toList sig && honored vk then some kid
          else none := by
  rw [creditedBy, approverKid, cosignatureSig]
  cases (cs.get "approver_kid").bind CanonValue.asStr with
  | none => rfl
  | some kid =>
    cases hp : pinnedApprover sha256 keys kid with
    | none => simp [hp]
    | some vk =>
      cases hs : (cs.get "sig").bind CanonValue.asStr with
      | none => simp
      | some text => simp [hp, ApprovalRequest.challenge]

/-- The name that an entry is credited to is that of a pinned key that it credits. -/
theorem creditedBy_eq_some_iff {cs : CanonValue} {kid : String} :
    creditedBy sha256 ed r.grantId r.credentialBinding r.thresholdM r.exp keys honored cs =
        some kid ↔
      ∃ vk ∈ pinnedApprovers sha256 keys,
        credits sha256 ed r honored vk cs = true ∧ cnfKid sha256 vk = kid := by
  simp only [creditedBy_eq_bind, Option.bind_eq_some_iff, Option.ite_none_right_eq_some,
    Bool.and_eq_true, Option.some.injEq]
  constructor
  · rintro ⟨kid, hkid, vk, hvk, sig, hsig, ⟨hverify, hhonored⟩, rfl⟩
    obtain ⟨hmem, rfl⟩ := pinnedApprover_eq_some hvk
    refine ⟨vk, List.mem_filter.mpr ⟨List.mem_dedup.mpr hmem, by simpa using hvk⟩, ?_, rfl⟩
    rw [credits, hkid, hsig, Option.any_some, hverify, hhonored]
    simp
  · rintro ⟨vk, hvk, hcredits, rfl⟩
    have hpinned := (List.mem_filter.mp hvk).2
    simp only [credits, Bool.and_eq_true, decide_eq_true_eq] at hcredits
    obtain ⟨hkid, hany⟩ := hcredits
    cases hcs : cosignatureSig cs with
    | none => simp [hcs] at hany
    | some sig =>
      rw [hcs, Option.any_some, Bool.and_eq_true] at hany
      exact ⟨_, hkid, vk, by simpa using hpinned, sig, rfl, hany, rfl⟩

theorem nodup_pinnedApprovers : (pinnedApprovers sha256 keys).Nodup :=
  (List.nodup_dedup keys).filter _

/-- Keys that are found by their names have different ones. -/
theorem cnfKid_inj_on_pinnedApprovers {vk vk' : Vector UInt8 32}
    (h : vk ∈ pinnedApprovers sha256 keys) (h' : vk' ∈ pinnedApprovers sha256 keys)
    (heq : cnfKid sha256 vk = cnfKid sha256 vk') : vk = vk' := by
  have hf : pinnedApprover sha256 keys (cnfKid sha256 vk) = some vk := by
    simpa using (List.mem_filter.mp h).2
  have hf' : pinnedApprover sha256 keys (cnfKid sha256 vk') = some vk' := by
    simpa using (List.mem_filter.mp h').2
  rw [heq, hf'] at hf
  exact (Option.some.inj hf).symm

/-- The keys that some entry of a list credits. -/
def creditedKeys (sha256 : List UInt8 → Vector UInt8 32) (ed : Ed25519) (r : ApprovalRequest)
    (honored : Vector UInt8 32 → Bool) (keys : List (Vector UInt8 32)) (l : List CanonValue) :
    List (Vector UInt8 32) :=
  keys.filter fun vk => l.any (credits sha256 ed r honored vk)

/-- As many approvers are collected as there are pinned keys that some entry credits. -/
theorem length_collectDistinct_creditedBy (l : List CanonValue) :
    (collectDistinct (creditedBy sha256 ed r.grantId r.credentialBinding r.thresholdM r.exp keys
      honored) l).length =
      (creditedKeys sha256 ed r honored (pinnedApprovers sha256 keys) l).length := by
  rw [length_collectDistinct, ← List.length_map (cnfKid sha256)]
  apply List.Perm.length_eq
  rw [List.perm_ext_iff_of_nodup (List.nodup_dedup _)]
  · intro kid
    simp only [List.mem_dedup, List.mem_filterMap, creditedBy_eq_some_iff, List.mem_map,
      creditedKeys, List.mem_filter, List.any_eq_true]
    constructor
    · rintro ⟨cs, hcs, vk, hvk, hcredits, rfl⟩
      exact ⟨vk, ⟨hvk, cs, hcs, hcredits⟩, rfl⟩
    · rintro ⟨vk, ⟨hvk, cs, hcs, hcredits⟩, rfl⟩
      exact ⟨cs, hcs, vk, hvk, hcredits, rfl⟩
  · refine (nodup_pinnedApprovers.filter _).map_on fun vk hvk vk' hvk' heq => ?_
    exact cnfKid_inj_on_pinnedApprovers (List.mem_filter.mp hvk).1 (List.mem_filter.mp hvk').1 heq

/-- Malformed and unpinned entries credit no key. -/
theorem credits_eq_false {cs : CanonValue} {vk : Vector UInt8 32} (hvk : vk ∈ keys)
    (h : Malformed cs ∨ Unpinned sha256 keys cs) : credits sha256 ed r honored vk cs = false := by
  rw [credits]
  rcases h with (hkid | hsig) | hpin
  · simp [hkid]
  · simp [hsig]
  · simp [hpin vk hvk]

/-- Entries that repeat others, are malformed or name no pinned key credit no further key. -/
theorem creditedKeys_congr {l l' : List CanonValue} {pinned : List (Vector UInt8 32)}
    (hpinned : pinned ⊆ keys) (hsub : ∀ cs ∈ l, cs ∈ l')
    (hmore : ∀ cs ∈ l', cs ∈ l ∨ Malformed cs ∨ Unpinned sha256 keys cs) :
    creditedKeys sha256 ed r honored pinned l' = creditedKeys sha256 ed r honored pinned l := by
  refine List.filter_congr fun vk hvk => ?_
  rw [Bool.eq_iff_iff, List.any_eq_true, List.any_eq_true]
  constructor
  · rintro ⟨cs, hcs, hcredits⟩
    rcases hmore cs hcs with hin | hinert
    · exact ⟨cs, hin, hcredits⟩
    · rw [credits_eq_false (hpinned hvk) hinert] at hcredits
      cases hcredits
  · rintro ⟨cs, hcs, hcredits⟩
    exact ⟨cs, hsub cs hcs, hcredits⟩

/-- The entries of the list of approvals; without a list there are none. -/
def cosignatureEntries (rec : CanonValue) : List CanonValue := (cosignaturesOf rec).getD []

/-- The count is that of the pinned keys that some entry credits, and so of all keys with such an
entry if no two have one name. It is at most the number of keys, and the same for another list
that repeats and reorders the entries and adds malformed or unpinned ones. -/
theorem countCosigApprovals_exact (sha256 : List UInt8 → Vector UInt8 32) (ed : Ed25519)
    (r : ApprovalRequest) (keys : List (Vector UInt8 32))
    (roleStatus : Vector UInt8 32 → Option RoleKeyStatus) (grantContentHash : String)
    (anchoredBefore : String → String → Bool) (rec : CanonValue) :
    let count (rec : CanonValue) := countCosigApprovals sha256 ed rec r.grantId r.credentialBinding
      r.thresholdM r.exp keys roleStatus grantContentHash anchoredBefore
    let honored := roleKeyHonored roleStatus (honoredAnchoredBefore anchoredBefore grantContentHash)
    let credited (pinned : List (Vector UInt8 32)) :=
      creditedKeys sha256 ed r honored pinned (cosignatureEntries rec)
    count rec = (credited (pinnedApprovers sha256 keys)).length ∧
      (KidsDistinct sha256 keys → count rec = (credited keys.dedup).length) ∧
      count rec ≤ keys.dedup.length ∧
      (∀ rec', (cosignatureEntries rec).Perm (cosignatureEntries rec') → count rec' = count rec) ∧
      ∀ rec', (∀ cs ∈ cosignatureEntries rec, cs ∈ cosignatureEntries rec') →
        (∀ cs ∈ cosignatureEntries rec',
          cs ∈ cosignatureEntries rec ∨ Malformed cs ∨ Unpinned sha256 keys cs) →
        count rec' = count rec := by
  intro count honored credited
  have hcount : ∀ rec, count rec = (creditedKeys sha256 ed r honored
      (pinnedApprovers sha256 keys) (cosignatureEntries rec)).length := by
    intro rec
    rw [← length_collectDistinct_creditedBy, cosignatureEntries]
    change countCosigApprovals _ _ _ _ _ _ _ _ _ _ _ = _
    rw [countCosigApprovals]
    cases cosignaturesOf rec with
    | none => rfl
    | some l => rfl
  have hsub : pinnedApprovers sha256 keys ⊆ keys := fun vk hvk =>
    List.mem_dedup.mp (List.mem_filter.mp hvk).1
  have hmore : ∀ rec', (∀ cs ∈ cosignatureEntries rec, cs ∈ cosignatureEntries rec') →
      (∀ cs ∈ cosignatureEntries rec',
        cs ∈ cosignatureEntries rec ∨ Malformed cs ∨ Unpinned sha256 keys cs) →
      count rec' = count rec := by
    intro rec' hin hout
    rw [hcount, hcount, creditedKeys_congr hsub hin hout]
  refine ⟨hcount rec, fun hkids => ?_, ?_, fun rec' hperm => ?_, hmore⟩
  · rw [hcount, pinnedApprovers_eq hkids]
  · rw [hcount]
    exact ((List.filter_sublist).trans List.filter_sublist).length_le
  · exact hmore rec' (fun cs => hperm.mem_iff.mp) fun cs hcs => Or.inl (hperm.mem_iff.mpr hcs)

/-- A grant with these approvals. -/
def approvedRecord (cosignatures : List CanonValue) : CanonValue :=
  .obj [("extensions", .obj [("broker", .obj [("grant_evidence",
    .obj [("cosignatures", .arr cosignatures)])])])]

/-- An approval of the blank key. -/
def blankApproval : CanonValue :=
  .obj [("approver_kid", .str (cnfKid blankHash blankKey)), ("sig", .str blankSigText)]

/-- An approval that repeats counts once. -/
theorem countCosigApprovals_repeated :
    countCosigApprovals blankHash anySig (approvedRecord [.null, blankApproval, blankApproval]) "g"
        "b" 1 70 [blankKey] (fun _ => none) "" (fun _ _ => false) =
      countCosigApprovals blankHash anySig (approvedRecord [blankApproval]) "g" "b" 1 70 [blankKey]
        (fun _ => none) "" (fun _ _ => false) := by
  refine (countCosigApprovals_exact blankHash anySig ⟨"g", "b", 1, 70⟩ [blankKey] (fun _ => none) ""
    (fun _ _ => false) (approvedRecord [blankApproval])).2.2.2.2
    (approvedRecord [.null, blankApproval, blankApproval]) ?_ ?_
  · intro cs hcs
    exact List.mem_cons_of_mem _ (List.mem_cons_of_mem _ hcs)
  · intro cs hcs
    rcases List.mem_cons.mp hcs with rfl | hcs
    · exact Or.inr (Or.inl (Or.inl rfl))
    · refine Or.inl ?_
      rcases List.mem_cons.mp hcs with rfl | hcs
      · exact List.mem_cons_self
      · exact hcs

end Averin
