import Averin.Canon.Object
import Mathlib.Tactic

/-!
# The headline of a report

One word for a finished report, read off the serialized report alone. A month that leaves
something for the other months to close gets neither of the two good words on its own.
-/

namespace Averin

/-- What is said of one claim. -/
inductive ClaimVerdict where
  | pass
  | consistent
  | insufficient
  | fail
  deriving DecidableEq, Repr

namespace ClaimVerdict

/-- The two words for a requested claim that is satisfied. -/
def Good (v : ClaimVerdict) : Prop := v = pass ∨ v = consistent

end ClaimVerdict

/-- The value under a key is `true`. -/
def flagOf (report : CanonValue) (key : String) : Bool :=
  match report.get key with
  | some (.bool true) => true
  | _ => false

/-- What a single month cannot close: an unpinned base, or rules that look across months. -/
def segmentResidual (report : CanonValue) : Bool :=
  match report.get "segment" with
  | none => false
  | some sg =>
    strOf sg "link" = some "base_unpinned" ||
      (arrayOf sg "not_evaluated").any fun x =>
        x.asStr = some "record_completeness" || x.asStr = some "cross_month_uses"

/-- The claims there are. -/
def knownClaims : List String :=
  ["integrity", "authenticated", "authorized", "historical_authorized_as_of_snapshot",
    "complete_brokered", "complete_introspected"]

/-- The decisions there are. -/
def knownDecisions : List String := ["satisfied", "insufficient", "refuted"]

/-- The decision on the claim that was requested, if the claims contract is a known one and the
claim's own member says the same. -/
def contractDecision (report : CanonValue) : Option String := do
  let claims ← report.get "claims"
  let requested ← strOf claims "requested"
  let decision ← strOf claims "requested_decision"
  if strOf report "claims_version" = some "2" ∧ requested ∈ knownClaims ∧
      decision ∈ knownDecisions ∧ strOf claims requested = some decision then some decision
  else none

/-- The headline, with the cap for a month alone or without it. -/
def monthClaimVerdict (report : CanonValue) (capSegmentResidual : Bool) : ClaimVerdict :=
  let decision := contractDecision report
  if !flagOf report "ok" || decision = some "refuted" then .fail
  else if decision = none ∨ decision = some "insufficient" ∨
      (capSegmentResidual && segmentResidual report) then .insufficient
  else if flagOf report "keys_externally_pinned" then .pass
  else .consistent

/-- A decision that is read is one of the known ones. -/
theorem contractDecision_mem {report : CanonValue} {d : String}
    (h : contractDecision report = some d) : d ∈ knownDecisions := by
  simp only [contractDecision, Option.bind_eq_bind, Option.bind_eq_some_iff] at h
  obtain ⟨claims, -, requested, -, decision, -, h⟩ := h
  split_ifs at h with hc
  obtain rfl := Option.some.inj h
  exact hc.2.2.1

/-- The two good words are for reports that are in order, satisfy what was requested, and leave
nothing open that the cap is for. -/
theorem monthClaimVerdict_good_iff (report : CanonValue) (cap : Bool) :
    (monthClaimVerdict report cap).Good ↔
      flagOf report "ok" = true ∧ contractDecision report = some "satisfied" ∧
        (cap && segmentResidual report) = false := by
  have hmem : ∀ d, contractDecision report = some d → d ∈ knownDecisions :=
    fun d => contractDecision_mem
  unfold monthClaimVerdict ClaimVerdict.Good
  cases hd : contractDecision report with
  | none => cases flagOf report "ok" <;> simp
  | some d =>
    have hcases := hmem d hd
    simp only [knownDecisions, List.mem_cons, List.not_mem_nil, or_false] at hcases
    rcases hcases with rfl | rfl | rfl <;>
      cases flagOf report "ok" <;> cases (cap && segmentResidual report) <;>
        cases flagOf report "keys_externally_pinned" <;> simp

end Averin
