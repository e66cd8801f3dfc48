import Averin.Store.Project

/-!
# The order of authorizations

A project numbers its receipts and its prospective revocations from one counter. A revocation
is written once for a grant and a mode; a receipt takes a number that was drawn and that no
other receipt has.
-/

namespace Averin

/-- A revocation of everything. -/
def revocationTotal : String := "total"

/-- A revocation from an ordinal on. -/
def revocationProspective : String := "prospective"

/-- The key of a revocation. -/
def revEventKey (grantId mode : String) : String := grantId ++ "\x00" ++ mode

/-- What a revocation has to say. -/
def validateRevocationEvent (ev : RevocationEvent) : Bool :=
  if ev.projectId = "" ∨ ev.grantId = "" ∨ ev.issuer = "" then false
  else if ev.mode = revocationTotal then ev.cutoffOrder = 0
  else if ev.mode = revocationProspective then 0 ≤ ev.cutoffOrder
  else false

namespace Project

variable (p : Project)

/-- The kind a record of the broker states, empty without one. -/
def brokerKind (raw : CanonValue) : Option String := do
  let extensions := CanonValue.obj (← decodeObj (raw.get "extensions"))
  let broker := CanonValue.obj (← decodeObj (extensions.get "broker"))
  decodeStr (broker.get "kind")

/-- The grant is revoked, voided, or carried by a tombstone. -/
def isRevoked (grantId : String) : Bool :=
  (p.revEvents.lookup (revEventKey grantId revocationTotal)).isSome ||
  (p.revEvents.lookup (revEventKey grantId revocationProspective)).isSome ||
  grantId ∈ p.voided ||
  p.records.any fun rec =>
    recordIDOf rec.json = grantId && brokerKind rec.json = some "grant_void"

/-- Revoke a grant once for a mode. A prospective revocation without a cutoff draws one. -/
def putRevocationEvent (ev : RevocationEvent) :
    Except StoreError ((RevocationEvent × Bool) × Project) :=
  if ¬ validateRevocationEvent ev then .error .invalidRevocation
  else
    let key := revEventKey ev.grantId ev.mode
    match p.revEvents.lookup key with
    | some prior => .ok ((prior, false), p)
    | none =>
      if ev.mode = revocationProspective ∧ ev.cutoffOrder = 0 then
        let drawn := { ev with cutoffOrder := p.authOrder + 1 }
        .ok ((drawn, true),
          { p with authOrder := p.authOrder + 1, revEvents := p.revEvents.insert key drawn })
      else if ev.mode = revocationProspective ∧ ev.cutoffOrder > p.authOrder then
        .error .cutoffBeyondOrder
      else .ok ((ev, true), { p with revEvents := p.revEvents.insert key ev })

/-- The events in the order of their grants and modes. -/
def revocationEvents : List RevocationEvent :=
  (Table.values p.revEvents).insertionSort fun a b =>
    if a.grantId ≠ b.grantId then a.grantId < b.grantId else a.mode ≤ b.mode

/-- Draw the next number. -/
def allocateAuthorizationOrder : Int × Project :=
  (p.authOrder + 1, { p with authOrder := p.authOrder + 1 })

/-- Keep the receipt of an ordinal. -/
def putAuthorizationReceipt (r : AuthorizationReceipt) : Except StoreError Project :=
  if r.ordinal < 1 ∨ r.ordinal > p.authOrder ∨ r.recordId = "" ∨ r.grantId = "" then
    .error .invalidReceipt
  else if (p.receipts.lookup r.ordinal).isSome ∨ (p.receiptByRecord.lookup r.recordId).isSome then
    .error .orderConflict
  else
    .ok { p with
      receipts := p.receipts.insert r.ordinal r
      receiptByRecord := p.receiptByRecord.insert r.recordId r.ordinal }

variable {p p' : Project}

/-- A revocation is there already, or it is new and draws a number if it needs one. -/
theorem putRevocationEvent_cases {ev stored : RevocationEvent} {created : Bool}
    (h : p.putRevocationEvent ev = .ok ((stored, created), p')) :
    validateRevocationEvent ev = true ∧
      ((created = false ∧ p' = p ∧
          p.revEvents.lookup (revEventKey ev.grantId ev.mode) = some stored) ∨
        (created = true ∧ p.revEvents.lookup (revEventKey ev.grantId ev.mode) = none ∧
          ((ev.mode = revocationProspective ∧ ev.cutoffOrder = 0 ∧
              stored = { ev with cutoffOrder := p.authOrder + 1 } ∧
              p' = { p with
                authOrder := p.authOrder + 1
                revEvents := p.revEvents.insert (revEventKey ev.grantId ev.mode) stored }) ∨
            (¬ (ev.mode = revocationProspective ∧ ev.cutoffOrder = 0) ∧
              (ev.mode = revocationProspective → ev.cutoffOrder ≤ p.authOrder) ∧ stored = ev ∧
              p' = { p with
                revEvents := p.revEvents.insert (revEventKey ev.grantId ev.mode) ev })))) := by
  unfold putRevocationEvent at h
  by_cases hvalid : validateRevocationEvent ev = true
  · rw [if_neg (not_not.mpr hvalid)] at h
    refine ⟨hvalid, ?_⟩
    dsimp only at h
    cases hprior : p.revEvents.lookup (revEventKey ev.grantId ev.mode) with
    | some prior =>
      rw [hprior] at h
      obtain ⟨⟨rfl, rfl⟩, rfl⟩ := by simpa using h
      exact Or.inl ⟨rfl, rfl, rfl⟩
    | none =>
      rw [hprior] at h
      dsimp only at h
      by_cases hdraw : ev.mode = revocationProspective ∧ ev.cutoffOrder = 0
      · rw [if_pos hdraw] at h
        obtain ⟨⟨rfl, rfl⟩, rfl⟩ := by simpa using h
        exact Or.inr ⟨rfl, rfl, Or.inl ⟨hdraw.1, hdraw.2, rfl, rfl⟩⟩
      · rw [if_neg hdraw] at h
        by_cases hlate : ev.mode = revocationProspective ∧ ev.cutoffOrder > p.authOrder
        · rw [if_pos hlate] at h
          cases h
        · rw [if_neg hlate] at h
          obtain ⟨⟨rfl, rfl⟩, rfl⟩ := by simpa using h
          exact Or.inr ⟨rfl, rfl, Or.inr ⟨hdraw, fun hm => not_lt.mp fun hgt => hlate ⟨hm, hgt⟩,
            rfl, rfl⟩⟩
  · rw [if_pos hvalid] at h
    cases h

/-- What a receipt needs, and what it leaves. -/
theorem putAuthorizationReceipt_cases {r : AuthorizationReceipt}
    (h : p.putAuthorizationReceipt r = .ok p') :
    1 ≤ r.ordinal ∧ r.ordinal ≤ p.authOrder ∧ r.recordId ≠ "" ∧ r.grantId ≠ "" ∧
      p.receipts.lookup r.ordinal = none ∧ p.receiptByRecord.lookup r.recordId = none ∧
      p' = { p with
        receipts := p.receipts.insert r.ordinal r
        receiptByRecord := p.receiptByRecord.insert r.recordId r.ordinal } := by
  unfold putAuthorizationReceipt at h
  split_ifs at h with hinvalid hconflict
  simp only [not_or, not_lt] at hinvalid
  simp only [not_or, Option.not_isSome_iff_eq_none] at hconflict
  exact ⟨hinvalid.1, hinvalid.2.1, hinvalid.2.2.1, hinvalid.2.2.2, hconflict.1, hconflict.2,
    (Except.ok.inj h).symm⟩

end Project

end Averin
