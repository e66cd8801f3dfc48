import Averin.Verify.SnapshotWindow

/-!
# The sources of a revocation

A grant can be spoken of by a disclosed list and by a tree root, of the first or the second
version, usable or not, and a proof can be missing. The sources are gathered in any order, and
another source never makes the verdict on a grant milder.
-/

namespace Averin

namespace GrantRevocationAcc

variable (acc : GrantRevocationAcc)

/-- Named by a list or a tree of the first version. -/
def legacyMember : GrantRevocationAcc := { acc with anySource := true, total := true }

/-- The grant is not on a list of the first version. -/
def legacyNonmember : GrantRevocationAcc := { acc with anySource := true }

/-- Named by an unusable artifact of the second version. -/
def unusableMember : GrantRevocationAcc := { acc with anySource := true, unverified := true }

/-- A tree without a valid proof for the grant. -/
def addUnproven : GrantRevocationAcc := { acc with anySource := true, unproven := true }

end GrantRevocationAcc

/-- What one artifact says of a grant. -/
inductive RevocationSource where
  | legacyMember
  | legacyNonmember
  | unusableMember
  | unproven
  | v2 (state : Option RevState)
  deriving DecidableEq, Repr

/-- What one more source says. -/
def GrantRevocationAcc.add (acc : GrantRevocationAcc) : RevocationSource → GrantRevocationAcc
  | .legacyMember => acc.legacyMember
  | .legacyNonmember => acc.legacyNonmember
  | .unusableMember => acc.unusableMember
  | .unproven => acc.addUnproven
  | .v2 state => acc.v2 state

/-- All that the sources together say of a grant. -/
def gather (sources : List RevocationSource) : GrantRevocationAcc :=
  sources.foldl GrantRevocationAcc.add {}

/-- What is found of a signed list. -/
structure RevocationEval where
  signed : Bool
  revoked : Finset String
  v2 : Option V2Artifact

/-- What the list says of a grant. -/
def RevocationEval.source (revocation : RevocationEval) (gid : String) : Option RevocationSource :=
  if revocation.signed then
    match revocation.v2 with
    | some v2 =>
      if v2.usable then some (.v2 (v2.states.lookup gid))
      else if gid ∈ revocation.revoked then some .unusableMember
      else some .legacyNonmember
    | none => if gid ∈ revocation.revoked then some .legacyMember else some .legacyNonmember
  else none

/-- What the tree says of a grant by its proof, if there is a root. -/
def merkleSource (v2 : Option V2Artifact) : Option ProofV2 → Option RevocationSource
  | none => none
  | some .unproven => some .unproven
  | some (.revoked st) =>
    if v2.any (·.usable) then some (.v2 (some st))
    else if v2.isSome then some .unusableMember
    else some .legacyMember
  | some .notRevoked => if v2.any (·.usable) then some (.v2 none) else some .legacyNonmember

/-- The verdict on a grant from the list and the tree. -/
def grantRevocation (revocation : RevocationEval) (merkleV2 : Option V2Artifact)
    (proof : Option ProofV2) (gid : String) : GrantRevocation :=
  (gather ((revocation.source gid).toList ++ (merkleSource merkleV2 proof).toList)).finish

/-- Two sources can be added in either order. -/
theorem GrantRevocationAcc.add_comm (acc : GrantRevocationAcc) (a b : RevocationSource) :
    (acc.add a).add b = (acc.add b).add a := by
  rcases a with _ | _ | _ | _ | _ | _ | c <;> rcases b with _ | _ | _ | _ | _ | _ | d
  case v2.some.prospective.v2.some.prospective =>
    have hcut : (acc.cutoff.elim c.toInt (min · c.toInt)) ⊓ d.toInt =
        (acc.cutoff.elim d.toInt (min · d.toInt)) ⊓ c.toInt := by
      cases acc.cutoff with
      | none => exact min_comm _ _
      | some x => exact min_right_comm _ _ _
    simp only [GrantRevocationAcc.add, GrantRevocationAcc.v2, Option.elim_some, hcut]
  all_goals rfl

/-- The order of the sources does not count. -/
theorem gather_perm {sources sources' : List RevocationSource} (h : sources.Perm sources') :
    gather sources = gather sources' := by
  have hcomm : RightCommutative GrantRevocationAcc.add := ⟨GrantRevocationAcc.add_comm⟩
  unfold gather
  exact h.foldl_eq _

theorem gather_append (sources : List RevocationSource) (s : RevocationSource) :
    gather (sources ++ [s]) = (gather sources).add s := by
  rw [gather, List.foldl_append]
  rfl

/-- How restrictive a verdict is. -/
def GrantRevocation.severity : GrantRevocation → Nat
  | notEvaluated | notRevokedUnbound | notRevokedAsOfSnapshot => 0
  | prospective _ => 1
  | revokedUnverified _ => 2
  | unproven _ => 3
  | total => 4

/-- The severity, read off what was gathered. -/
theorem severity_finish (acc : GrantRevocationAcc) :
    acc.finish.severity =
      if acc.total then 4 else if acc.unproven then 3 else if acc.unverified then 2
      else if acc.cutoff.isSome then 1 else 0 := by
  unfold GrantRevocationAcc.finish
  cases acc.cutoff with
  | none => split_ifs <;> first | rfl | contradiction
  | some c => split_ifs <;> first | rfl | contradiction

/-- A total revocation has no cutoff. -/
theorem adverseCutoff_finish (acc : GrantRevocationAcc) :
    acc.finish.adverseCutoff = if acc.total then none else acc.cutoff := by
  unfold GrantRevocationAcc.finish
  cases acc.cutoff with
  | none => split_ifs <;> rfl
  | some c => split_ifs <;> rfl

/-- What a source changes: flags are only set, and a cutoff only comes down. -/
theorem GrantRevocationAcc.add_spec (acc : GrantRevocationAcc) (s : RevocationSource) :
    (acc.total = true → (acc.add s).total = true) ∧
      (acc.unproven = true → (acc.add s).unproven = true) ∧
      (acc.unverified = true → (acc.add s).unverified = true) ∧
      ∀ c, acc.cutoff = some c → ∃ c', (acc.add s).cutoff = some c' ∧ c' ≤ c := by
  have hsame : ∀ c, acc.cutoff = some c → ∃ c', acc.cutoff = some c' ∧ c' ≤ c :=
    fun c hc => ⟨c, hc, le_rfl⟩
  rcases s with _ | _ | _ | _ | _ | _ | d
  case v2.some.prospective =>
    refine ⟨id, id, id, fun c hc => ⟨min c d.toInt, ?_, min_le_left _ _⟩⟩
    simp only [GrantRevocationAcc.add, GrantRevocationAcc.v2, hc, Option.elim_some]
  all_goals exact ⟨by intro h; first | exact h | rfl, by intro h; first | exact h | rfl,
    by intro h; first | exact h | rfl, hsame⟩

/-- A verdict does not become milder. -/
theorem severity_le_add (acc : GrantRevocationAcc) (s : RevocationSource) :
    acc.finish.severity ≤ (acc.add s).finish.severity := by
  obtain ⟨htotal, hunproven, hunverified, hcutoff⟩ := acc.add_spec s
  have hsome : acc.cutoff.isSome = true → (acc.add s).cutoff.isSome = true := by
    intro h
    obtain ⟨c, hc⟩ := Option.isSome_iff_exists.mp h
    obtain ⟨c', hc', -⟩ := hcutoff c hc
    rw [hc']
    rfl
  rw [severity_finish, severity_finish]
  by_cases h4 : acc.total = true
  · rw [if_pos h4, if_pos (htotal h4)]
  rw [if_neg h4]
  by_cases h3 : acc.unproven = true
  · rw [if_pos h3, if_pos (hunproven h3)]
    split_ifs <;> omega
  rw [if_neg h3]
  by_cases h2 : acc.unverified = true
  · rw [if_pos h2, if_pos (hunverified h2)]
    split_ifs <;> omega
  rw [if_neg h2]
  by_cases h1 : acc.cutoff.isSome = true
  · rw [if_pos h1, if_pos (hsome h1)]
    split_ifs <;> omega
  · rw [if_neg h1]
    exact Nat.zero_le _

/-- A cutoff does not go up, unless the revocation becomes total. -/
theorem adverseCutoff_add (acc : GrantRevocationAcc) (s : RevocationSource) {c : Int}
    (h : acc.finish.adverseCutoff = some c) :
    (acc.add s).finish = .total ∨ ∃ c', (acc.add s).finish.adverseCutoff = some c' ∧ c' ≤ c := by
  rw [adverseCutoff_finish] at h
  split_ifs at h
  obtain ⟨c', hc', hle⟩ := (acc.add_spec s).2.2.2 c h
  by_cases htotal : (acc.add s).total = true
  · exact Or.inl (if_pos htotal)
  · refine Or.inr ⟨c', ?_, hle⟩
    rw [adverseCutoff_finish, if_neg htotal]
    exact hc'

namespace RevState

/-- All states of one grant together, none if there is none. -/
def combineAll (states : List RevState) : Option RevState :=
  states.foldl (fun o st => some (o.elim st (·.combine st))) none

/-- A total revocation wins, otherwise the least cutoff. -/
theorem combineAll_spec (states : List RevState) :
    (combineAll states = none ↔ states = []) ∧
      (combineAll states = some .total ↔ .total ∈ states) ∧
      ∀ c, combineAll states = some (.prospective c) ↔ .prospective c ∈ states ∧
        ∀ st ∈ states, ∃ c', st = .prospective c' ∧ c ≤ c' := by
  induction states using List.reverseRecOn with
  | nil => simp [combineAll]
  | append_singleton states st ih =>
    obtain ⟨hnone, htotal, hprospective⟩ := ih
    have hstep : combineAll (states ++ [st]) =
        some ((combineAll states).elim st (·.combine st)) := by
      rw [combineAll, List.foldl_append]
      rfl
    rw [hstep]
    cases ho : combineAll states with
    | none =>
      obtain rfl := hnone.mp ho
      cases st with
      | total => simp
      | prospective e =>
        refine ⟨by simp, by simp, fun c => ?_⟩
        simp only [Option.elim_none, Option.some.injEq, prospective.injEq, List.nil_append,
          List.mem_singleton, forall_eq, exists_eq_left']
        constructor
        · rintro rfl
          exact ⟨rfl, Int64.le_refl e⟩
        · rintro ⟨rfl, -⟩
          rfl
    | some r =>
      cases r with
      | total =>
        have hmem := htotal.mp ho
        refine ⟨by simp, by simp [combine, hmem], fun c => ?_⟩
        simp only [Option.elim_some, combine, Option.some.injEq, reduceCtorEq, false_iff, not_and]
        intro _ hall
        obtain ⟨c', hc', -⟩ := hall .total (List.mem_append_left _ hmem)
        cases hc'
      | prospective d =>
        obtain ⟨hmem, hall⟩ := (hprospective d).mp ho
        have hno : RevState.total ∉ states := fun h => by
          obtain ⟨c', hc', -⟩ := hall .total h
          cases hc'
        cases st with
        | total =>
          refine ⟨by simp, by simp [combine], fun c => ?_⟩
          simp only [Option.elim_some, combine, Option.some.injEq, reduceCtorEq, false_iff,
            not_and]
          intro _ hall'
          obtain ⟨c', hc', -⟩ := hall' .total (by simp)
          cases hc'
        | prospective e =>
          refine ⟨by simp, by simp [combine, hno], fun c => ?_⟩
          simp only [Option.elim_some, combine, Option.some.injEq, prospective.injEq]
          constructor
          · rintro rfl
            split_ifs with hde
            · refine ⟨List.mem_append_left _ hmem, fun st hst => ?_⟩
              rcases List.mem_append.mp hst with hst | hst
              · exact hall st hst
              · exact ⟨e, List.mem_singleton.mp hst, hde⟩
            · have hed : e ≤ d := (Int64.le_total d e).resolve_left hde
              refine ⟨List.mem_append_right _ (by simp), fun st hst => ?_⟩
              rcases List.mem_append.mp hst with hst | hst
              · obtain ⟨c', hc', hle⟩ := hall st hst
                exact ⟨c', hc', Int64.le_trans hed hle⟩
              · exact ⟨e, List.mem_singleton.mp hst, Int64.le_refl e⟩
          · rintro ⟨hc, hall'⟩
            have hcd : c ≤ d := by
              obtain ⟨c', hc', hle⟩ := hall' (.prospective d) (List.mem_append_left _ hmem)
              exact RevState.prospective.inj hc' ▸ hle
            have hce : c ≤ e := by
              obtain ⟨c', hc', hle⟩ := hall' (.prospective e) (by simp)
              exact RevState.prospective.inj hc' ▸ hle
            rcases List.mem_append.mp hc with hc | hc
            · obtain ⟨c', hc', hdc⟩ := hall _ hc
              obtain rfl := RevState.prospective.inj hc'
              obtain rfl := Int64.le_antisymm hdc hcd
              rw [if_pos hce]
            · obtain rfl := RevState.prospective.inj (List.mem_singleton.mp hc)
              split_ifs with hde
              · exact Int64.le_antisymm hde hcd
              · rfl

/-- Only which states there are matters. -/
theorem combineAll_congr {states states' : List RevState} (h : ∀ st, st ∈ states ↔ st ∈ states') :
    combineAll states = combineAll states' := by
  obtain ⟨hnone, htotal, hprospective⟩ := combineAll_spec states
  obtain ⟨hnone', htotal', hprospective'⟩ := combineAll_spec states'
  cases ho : combineAll states with
  | none =>
    obtain rfl := hnone.mp ho
    refine (hnone'.mpr (List.eq_nil_iff_forall_not_mem.mpr fun st hst => ?_)).symm
    exact List.not_mem_nil ((h st).mpr hst)
  | some r =>
    cases r with
    | total => exact (htotal'.mpr ((h _).mp (htotal.mp ho))).symm
    | prospective c =>
      obtain ⟨hmem, hall⟩ := (hprospective c).mp ho
      exact ((hprospective' c).mpr ⟨(h _).mp hmem, fun st hst => hall st ((h st).mpr hst)⟩).symm

end RevState

/-- What an entry says of a grant. A named grant without a readable state is revoked totally; an
empty name counts only then. -/
def entryState (watermark : Option Int) (g : String) (e : CanonValue) : Option RevState :=
  if strOf e "grant_id" = some g then
    match parseState e watermark with
    | some st => if g ≠ "" then some st else none
    | none => some .total
  else none

/-- One entry changes what is said of the grant it names. -/
theorem lookup_parseV2Entry (watermark : Option Int) (acc : V2Entries × Option String)
    (e : CanonValue) (g : String) :
    (parseV2Entry watermark acc e).1.states.lookup g =
      (entryState watermark g e).elim (acc.1.states.lookup g) fun st =>
        some ((acc.1.states.lookup g).elim st (·.combine st)) := by
  have hcombine : ∀ o : Option RevState, o.elim .total (·.combine .total) = .total := by
    intro o
    cases o with
    | none => rfl
    | some st => cases st <;> rfl
  obtain ⟨out, previous⟩ := acc
  unfold entryState parseV2Entry
  cases hg : strOf e "grant_id" with
  | none => simp
  | some g' =>
    cases hst : parseState e watermark with
    | none =>
      simp only [Option.some.injEq, Table.lookup_insert_eq]
      by_cases h : g = g'
      · rw [if_pos h, if_pos h.symm, Option.elim_some, hcombine]
      · rw [if_neg h, if_neg (Ne.symm h), Option.elim_none]
    | some st =>
      by_cases hempty : g' = ""
      · subst hempty
        by_cases h : g = ""
        · simp [h]
        · simp [Ne.symm h]
      · simp only [ne_eq, hempty, not_false_eq_true, if_true, Option.some.injEq,
          Table.lookup_insert_eq]
        by_cases h : g = g'
        · subst h
          rw [if_pos rfl, if_pos rfl, if_pos hempty, Option.elim_some]
          cases out.states.lookup g <;> rfl
        · rw [if_neg h, if_neg (Ne.symm h), Option.elim_none]

/-- What a list says of a grant is what its entries say of it together. -/
theorem lookup_parseV2Entries {list : CanonValue} {watermark : Option Int}
    {arr : List CanonValue} (h : (list.get "revocations").bind CanonValue.asArray = some arr)
    (g : String) :
    (parseV2Entries list watermark).states.lookup g =
      RevState.combineAll (arr.filterMap (entryState watermark g)) := by
  have hfold : ∀ (arr : List CanonValue) (acc : V2Entries × Option String),
      (arr.foldl (parseV2Entry watermark) acc).1.states.lookup g =
        (arr.filterMap (entryState watermark g)).foldl
          (fun o st => some (o.elim st (·.combine st))) (acc.1.states.lookup g) := by
    intro arr
    induction arr with
    | nil => exact fun acc => rfl
    | cons e arr ih =>
      intro acc
      rw [List.foldl_cons, ih, lookup_parseV2Entry, List.filterMap_cons]
      cases entryState watermark g e <;> rfl
  rw [parseV2Entries, h]
  exact hfold arr _

/-- A named grant is revoked totally if one of its entries is total or cannot be read, and
otherwise from the least of its cutoffs. -/
theorem parseV2Entries_spec {list : CanonValue} {watermark : Option Int}
    {arr : List CanonValue} (h : (list.get "revocations").bind CanonValue.asArray = some arr)
    {g : String} (hg : g ≠ "") :
    ((parseV2Entries list watermark).states.lookup g = none ↔
        ∀ e ∈ arr, strOf e "grant_id" ≠ some g) ∧
      ((parseV2Entries list watermark).states.lookup g = some .total ↔
        ∃ e ∈ arr, strOf e "grant_id" = some g ∧
          (parseState e watermark = none ∨ parseState e watermark = some .total)) ∧
      ∀ c, (parseV2Entries list watermark).states.lookup g = some (.prospective c) ↔
        (∃ e ∈ arr, strOf e "grant_id" = some g ∧
          parseState e watermark = some (.prospective c)) ∧
        ∀ e ∈ arr, strOf e "grant_id" = some g →
          ∃ c', parseState e watermark = some (.prospective c') ∧ c ≤ c' := by
  have hentry : ∀ e st, entryState watermark g e = some st ↔ strOf e "grant_id" = some g ∧
      (parseState e watermark).getD .total = st := by
    intro e st
    unfold entryState
    cases parseState e watermark with
    | none => simp
    | some st' => simp [hg]
  have hmem : ∀ st, st ∈ arr.filterMap (entryState watermark g) ↔
      ∃ e ∈ arr, strOf e "grant_id" = some g ∧ (parseState e watermark).getD .total = st := by
    intro st
    simp only [List.mem_filterMap, hentry]
  obtain ⟨hnone, htotal, hprospective⟩ :=
    RevState.combineAll_spec (arr.filterMap (entryState watermark g))
  rw [lookup_parseV2Entries h g]
  refine ⟨?_, ?_, fun c => ?_⟩
  · rw [hnone, List.eq_nil_iff_forall_not_mem]
    constructor
    · exact fun hno e he hname => hno _ ((hmem _).mpr ⟨e, he, hname, rfl⟩)
    · intro hno st hst
      obtain ⟨e, he, hname, -⟩ := (hmem st).mp hst
      exact hno e he hname
  · rw [htotal, hmem]
    refine exists_congr fun e => and_congr_right fun _ => and_congr_right fun _ => ?_
    cases parseState e watermark <;> simp
  · rw [hprospective, hmem]
    refine and_congr ?_ ?_
    · refine exists_congr fun e => and_congr_right fun _ => and_congr_right fun _ => ?_
      cases parseState e watermark <;> simp
    · constructor
      · intro hall e he hname
        obtain ⟨c', hc', hle⟩ := hall _ ((hmem _).mpr ⟨e, he, hname, rfl⟩)
        refine ⟨c', ?_, hle⟩
        cases hst : parseState e watermark with
        | none => simp [hst] at hc'
        | some st => simpa [hst] using hc'
      · intro hall st hst
        obtain ⟨e, he, hname, rfl⟩ := (hmem st).mp hst
        obtain ⟨c', hc', hle⟩ := hall e he hname
        exact ⟨c', by rw [hc']; rfl, hle⟩

/-- The order of the entries does not matter. -/
theorem parseV2Entries_perm {list list' : CanonValue} {watermark : Option Int}
    {arr arr' : List CanonValue}
    (h : (list.get "revocations").bind CanonValue.asArray = some arr)
    (h' : (list'.get "revocations").bind CanonValue.asArray = some arr') (hperm : arr.Perm arr')
    (g : String) :
    (parseV2Entries list watermark).states.lookup g =
      (parseV2Entries list' watermark).states.lookup g := by
  rw [lookup_parseV2Entries h, lookup_parseV2Entries h']
  exact RevState.combineAll_congr fun st => (hperm.filterMap _).mem_iff

/-- A number that is read is positive, and its project has a name. -/
theorem authorizationOrderOf_present {rec : CanonValue} {payloadKey p : String} {n : Int}
    (h : authorizationOrderOf rec payloadKey = .present p n) : p ≠ "" ∧ 1 ≤ n := by
  unfold authorizationOrderOf at h
  split at h
  · cases h
  · dsimp only at h
    split at h
    · split_ifs at h with hcond
      obtain ⟨rfl, rfl⟩ := OrderEv.present.inj h
      exact hcond
    · cases h

/-- A receipt is proven to come before only if it is validated, its number is one of the project
of the snapshot and covered by it, and the grant is not revoked or only from a later number. -/
theorem classify_eq_provenBefore_iff {snapshot : Option Snapshot} {validated : Bool}
    {order : OrderEv} {grant : GrantRevocation} :
    classify snapshot validated order grant = .provenBefore ↔
      validated = true ∧ ∃ s n, snapshot = some s ∧ order = .present s.projectId n ∧
        n ≤ s.watermark ∧ (grant = .notRevokedAsOfSnapshot ∨
          ∃ c, grant = .prospective c ∧ n < c) := by
  constructor
  · intro h
    cases order with
    | absent => cases h
    | malformed => cases h
    | present p n =>
      unfold classify at h
      cases validated with
      | false => cases h
      | true =>
        simp only [Bool.not_true, Bool.false_eq_true, if_false] at h
        split_ifs at h with hcut
        cases snapshot with
        | none => cases h
        | some s =>
          dsimp only at h
          split_ifs at h with hs
          obtain ⟨hp, hn⟩ := not_or.mp hs
          obtain rfl := not_not.mp hp
          refine ⟨rfl, s, n, rfl, rfl, not_lt.mp hn, ?_⟩
          cases grant with
          | notRevokedAsOfSnapshot => exact Or.inl rfl
          | prospective c =>
            exact Or.inr ⟨c, rfl, by simpa [GrantRevocation.adverseCutoff] using hcut⟩
          | _ => cases h
  · rintro ⟨rfl, s, n, rfl, rfl, hn, rfl | ⟨c, rfl, hc⟩⟩
    · simp [classify, GrantRevocation.adverseCutoff, not_lt.mpr hn]
    · simp [classify, GrantRevocation.adverseCutoff, not_lt.mpr hn, not_le.mpr hc]

/-- A use is at or after the revocation if its place is known and the cutoff is no later. -/
theorem classify_eq_atOrAfter_iff {snapshot : Option Snapshot} {validated : Bool}
    {order : OrderEv} {grant : GrantRevocation} :
    classify snapshot validated order grant = .atOrAfter ↔
      validated = true ∧ ∃ p n c, order = .present p n ∧ grant.adverseCutoff = some c ∧ c ≤ n := by
  constructor
  · intro h
    cases order with
    | absent => cases h
    | malformed => cases h
    | present p n =>
      unfold classify at h
      cases validated with
      | false => cases h
      | true =>
        simp only [Bool.not_true, Bool.false_eq_true, if_false] at h
        cases hcut : grant.adverseCutoff with
        | some c =>
          by_cases hle : c ≤ n
          · exact ⟨rfl, p, n, c, rfl, rfl, hle⟩
          · exfalso
            rw [hcut] at h
            simp only [Option.any_some, hle, decide_false, Bool.false_eq_true, if_false] at h
            cases snapshot with
            | none => cases h
            | some s =>
              dsimp only at h
              split_ifs at h
              cases grant <;> cases h
        | none =>
          exfalso
          rw [hcut] at h
          simp only [Option.any_none, Bool.false_eq_true, if_false] at h
          cases snapshot with
          | none => cases h
          | some s =>
            dsimp only at h
            split_ifs at h
            cases grant <;> cases h
  · rintro ⟨rfl, p, n, c, rfl, hc, hle⟩
    simp [classify, hc, hle]

/-- Without a member every source of the second version is a nonmember. -/
theorem v2Nonmember_gather (sources : List RevocationSource) :
    (gather sources).total = false → (gather sources).cutoff = none →
      (gather sources).v2Nonmember = (gather sources).v2Sources := by
  induction sources using List.reverseRecOn with
  | nil => exact fun _ _ => rfl
  | append_singleton sources s ih =>
    rw [gather_append]
    rcases s with _ | _ | _ | _ | _ | _ | c
    case legacyMember => exact fun h => by cases h
    case v2.some.total => exact fun h => by cases h
    case v2.some.prospective => exact fun _ h => by cases h
    case v2.none => exact fun htotal hcut => congrArg (· + 1) (ih htotal hcut)
    all_goals exact ih

/-- The sources of the second version are counted. -/
theorem v2Sources_gather {sources : List RevocationSource} (h : (gather sources).v2Sources = 0) :
    ∀ s ∈ sources, ∀ st, s ≠ .v2 st := by
  induction sources using List.reverseRecOn with
  | nil => simp
  | append_singleton sources s ih =>
    rw [gather_append] at h
    have hlast : (gather sources).v2Sources = 0 ∧ ∀ st, s ≠ .v2 st := by
      rcases s with _ | _ | _ | _ | _ | _ | c
      case v2.none => cases h
      case v2.some.total => cases h
      case v2.some.prospective => cases h
      all_goals exact ⟨h, fun st hst => by cases hst⟩
    intro t ht
    rcases List.mem_append.mp ht with ht | ht
    · exact ih hlast.1 t ht
    · rw [List.mem_singleton.mp ht]
      exact hlast.2

/-- The verdict on a grant lets a number stand. -/
def GrantRevocation.Supports (grant : GrantRevocation) (n : Int) : Prop :=
  grant = .notRevokedAsOfSnapshot ∨ ∃ c, grant = .prospective c ∧ n < c

/-- What supports a use has no flag that speaks against it. -/
theorem GrantRevocationAcc.flags_of_supports {acc : GrantRevocationAcc} {n : Int}
    (h : acc.finish.Supports n) :
    acc.total = false ∧ acc.unproven = false ∧ acc.unverified = false := by
  have hmild : acc.finish.severity ≤ 1 := by
    rcases h with h | ⟨c, h, -⟩ <;> rw [h]
    · exact Nat.zero_le 1
    · exact le_rfl
  rw [severity_finish] at hmild
  split_ifs at hmild with h4 h3 h2
  · omega
  · omega
  · omega
  · exact ⟨by simpa using h4, by simpa using h3, by simpa using h2⟩
  · exact ⟨by simpa using h4, by simpa using h3, by simpa using h2⟩

/-- No source speaks against a number that is supported. -/
theorem supports_mem {sources : List RevocationSource} {s : RevocationSource} {n : Int}
    (h : (gather sources).finish.Supports n) (hs : s ∈ sources) :
    s = .legacyNonmember ∨ s = .v2 none ∨ ∃ c, s = .v2 (some (.prospective c)) ∧ n < c.toInt := by
  have hlast : gather sources = (gather (sources.erase s)).add s := by
    rw [← gather_append]
    exact gather_perm ((List.perm_cons_erase hs).trans (List.perm_append_singleton s _).symm)
  rw [hlast] at h
  obtain ⟨htotal, hunproven, hunverified⟩ := GrantRevocationAcc.flags_of_supports h
  rcases s with _ | _ | _ | _ | _ | _ | c
  case legacyMember => cases htotal
  case legacyNonmember => exact Or.inl rfl
  case unusableMember => cases hunverified
  case unproven => cases hunproven
  case v2.none => exact Or.inr (Or.inl rfl)
  case v2.some.total => cases htotal
  case v2.some.prospective =>
    refine Or.inr (Or.inr ⟨c, rfl, ?_⟩)
    have hcut : ((gather (sources.erase (.v2 (some (.prospective c))))).add
        (.v2 (some (.prospective c)))).cutoff =
        some ((gather (sources.erase (.v2 (some (.prospective c))))).cutoff.elim c.toInt
          (min · c.toInt)) := rfl
    have hle : (gather (sources.erase (.v2 (some (.prospective c))))).cutoff.elim c.toInt
        (min · c.toInt) ≤ c.toInt := by
      cases (gather (sources.erase (.v2 (some (.prospective c))))).cutoff with
      | none => exact le_rfl
      | some d => exact min_le_right _ _
    rcases h with h | ⟨d, h, hd⟩
    · simp [GrantRevocationAcc.finish, htotal, hunproven, hunverified, hcut] at h
    · simp only [GrantRevocationAcc.finish, htotal, hunproven, hunverified, hcut,
        Bool.false_eq_true, if_false, GrantRevocation.prospective.injEq] at h
      omega

/-- What is supported with another source was so before, or the source is the first of the second
version and no adverse one but a cutoff above the number. -/
theorem supports_add {sources : List RevocationSource} {s : RevocationSource} {n : Int}
    (h : ((gather sources).add s).finish.Supports n) :
    (gather sources).finish.Supports n ∨ ((gather sources).finish.adverseCutoff = none ∧
      (gather sources).v2Sources = 0 ∧
        (s = .v2 none ∨ ∃ c, s = .v2 (some (.prospective c)) ∧ n < c.toInt)) := by
  obtain ⟨htotal, hunproven, hunverified, hcutoff⟩ := (gather sources).add_spec s
  have hflags := GrantRevocationAcc.flags_of_supports h
  have htotal' : (gather sources).total = false :=
    Bool.eq_false_iff.mpr fun ht => Bool.eq_false_iff.mp hflags.1 (htotal ht)
  have hunproven' : (gather sources).unproven = false :=
    Bool.eq_false_iff.mpr fun ht => Bool.eq_false_iff.mp hflags.2.1 (hunproven ht)
  have hunverified' : (gather sources).unverified = false :=
    Bool.eq_false_iff.mpr fun ht => Bool.eq_false_iff.mp hflags.2.2 (hunverified ht)
  cases hcut : (gather sources).cutoff with
  | some c =>
    obtain ⟨c', hc', hle⟩ := hcutoff c hcut
    have hafter : ((gather sources).add s).finish = .prospective c' := by
      simp [GrantRevocationAcc.finish, hflags.1, hflags.2.1, hflags.2.2, hc']
    refine Or.inl (Or.inr ⟨c, ?_, ?_⟩)
    · simp [GrantRevocationAcc.finish, htotal', hunproven', hunverified', hcut]
    · rcases h with h | ⟨d, h, hd⟩
      · rw [hafter] at h
        cases h
      · rw [hafter] at h
        obtain rfl := GrantRevocation.prospective.inj h
        exact hd.trans_le hle
  | none =>
    have hcount := v2Nonmember_gather sources htotal' hcut
    by_cases hzero : (gather sources).v2Sources = 0
    · refine Or.inr ⟨by rw [adverseCutoff_finish, htotal', hcut]; rfl, hzero, ?_⟩
      rcases s with _ | _ | _ | _ | _ | _ | c
      case legacyMember => cases hflags.1
      case legacyNonmember =>
        have hafter : ((gather sources).add .legacyNonmember).finish = .notRevokedUnbound := by
          simp [GrantRevocationAcc.finish, GrantRevocationAcc.add,
            GrantRevocationAcc.legacyNonmember, htotal', hunproven', hunverified', hcut, hzero]
        rw [hafter] at h
        rcases h with h | ⟨c, h, -⟩ <;> cases h
      case unusableMember => cases hflags.2.2
      case unproven => cases hflags.2.1
      case v2.none => exact Or.inl rfl
      case v2.some.total => cases hflags.1
      case v2.some.prospective =>
        have hafter : ((gather sources).add (.v2 (some (.prospective c)))).finish =
            .prospective c.toInt := by
          simp [GrantRevocationAcc.finish, GrantRevocationAcc.add, GrantRevocationAcc.v2, htotal',
            hunproven', hunverified', hcut]
        rw [hafter] at h
        rcases h with h | ⟨d, h, hd⟩
        · cases h
        · obtain rfl := GrantRevocation.prospective.inj h
          exact Or.inr ⟨c, rfl, hd⟩
    · refine Or.inl (Or.inl ?_)
      simp [GrantRevocationAcc.finish, htotal', hunproven', hunverified', hcut, hcount,
        Nat.pos_of_ne_zero hzero]

/-- If a receipt is proven with another source, it was so before; or it was indeterminate, no
source of the second version spoke of the grant, and the new one does, as a nonmember or with a
cutoff above the number of the receipt. -/
theorem classify_add {snapshot : Option Snapshot} {validated : Bool} {order : OrderEv}
    {sources : List RevocationSource} {s : RevocationSource}
    (h : classify snapshot validated order (gather (sources ++ [s])).finish = .provenBefore) :
    classify snapshot validated order (gather sources).finish = .provenBefore ∨
      (classify snapshot validated order (gather sources).finish = .indeterminate ∧
        (∀ t ∈ sources, ∀ st, t ≠ .v2 st) ∧
        (s = .v2 none ∨ ∃ c, s = .v2 (some (.prospective c)) ∧
          ∀ n ∈ order.ordinal, n < c.toInt)) := by
  rw [gather_append, classify_eq_provenBefore_iff] at h
  obtain ⟨rfl, snap, n, rfl, rfl, hn, hgrant⟩ := h
  rcases supports_add hgrant with hbefore | ⟨hcut, hzero, hs⟩
  · exact Or.inl (classify_eq_provenBefore_iff.mpr ⟨rfl, snap, n, rfl, rfl, hn, hbefore⟩)
  · by_cases hproven : classify (some snap) true (.present snap.projectId n)
        (gather sources).finish = .provenBefore
    · exact Or.inl hproven
    refine Or.inr ⟨?_, v2Sources_gather hzero, ?_⟩
    · cases hc : classify (some snap) true (.present snap.projectId n) (gather sources).finish with
      | provenBefore => exact absurd hc hproven
      | atOrAfter =>
        obtain ⟨-, _, _, c, -, hc', -⟩ := classify_eq_atOrAfter_iff.mp hc
        rw [hcut] at hc'
        cases hc'
      | indeterminate => rfl
    · rcases hs with rfl | ⟨c, rfl, hlt⟩
      · exact Or.inl rfl
      · refine Or.inr ⟨c, rfl, fun m hm => ?_⟩
        obtain rfl := Option.some.inj hm
        exact hlt

/-- What a proven receipt of a bundle rests on: the caller's policy, the bundle's project, and
artifacts that are all usable and of one snapshot; the list does not name the grant from the number
on or before it, and neither does the tree, whose proof is valid. -/
theorem receipt_proven {policy : TemporalPolicy} {revocation : RevocationEval}
    {merkleV2 : Option V2Artifact} {proof : Option ProofV2} {projectId : Option String}
    {gid : String} {e : SnapshotEval} {validated : Bool} {order : OrderEv}
    (he : evaluateSnapshot policy revocation.v2 merkleV2 projectId = .ok e)
    (h : classify e.verified validated order (grantRevocation revocation merkleV2 proof gid) =
      .provenBefore) :
    ∃ snap p n, policy = .dbSerializedV1 p ∧ projectId = some snap.projectId ∧
      order = .present snap.projectId n ∧ n ≤ snap.watermark ∧ validated = true ∧
      (∀ a ∈ revocation.v2.toList ++ merkleV2.toList,
        a.usable = true ∧ a.snapshot = some snap) ∧
      proof ≠ some .unproven ∧
      ∀ s, s ∈ revocation.source gid ∨ s ∈ merkleSource merkleV2 proof →
        s = .legacyNonmember ∨ s = .v2 none ∨
          ∃ c, s = .v2 (some (.prospective c)) ∧ n < c.toInt := by
  obtain ⟨hvalidated, snap, n, hsnap, horder, hn, hgrant⟩ := classify_eq_provenBefore_iff.mp h
  obtain ⟨hall, hproject, p, hp, -⟩ := evaluateSnapshot_verified he hsnap
  refine ⟨snap, p, n, hp, hproject, horder, hn, hvalidated, hall, ?_, fun s hs => ?_⟩
  · rintro rfl
    have hmem : RevocationSource.unproven ∈ (revocation.source gid).toList ++
        (merkleSource merkleV2 (some .unproven)).toList := List.mem_append_right _ (by
      simp [merkleSource])
    rcases supports_mem hgrant hmem with hs | hs | ⟨c, hs, -⟩ <;> cases hs
  · refine supports_mem hgrant ?_
    rw [List.mem_append, Option.mem_toList, Option.mem_toList]
    exact hs

/-- A list of the second version, with the grants that it names. Those block current use whether or
not the list counts for the past. -/
def readRevocationListV2 (honored : String → Bool) (rl : CanonValue) : RevocationEval :=
  let watermark := (parseSnapshot rl).toOption.map (·.watermark)
  let entries := parseV2Entries rl watermark
  let extra := (((rl.get "revoked_grant_ids").bind CanonValue.asArray).getD []).filterMap
    CanonValue.asStr
  { signed := true
    revoked := entries.ids ∪ extra.toFinset
    v2 := some (v2Artifact honored rl entries.states
      (entries.wellFormed && (rl.get "revoked_grant_ids").isNone)) }

/-- A root of the second version. -/
def readRevocationRootV2 (honored : String → Bool) (rr : CanonValue) : V2Artifact :=
  v2Artifact honored rr ∅ true

/-- What a proven receipt says of the text of a list and of a root beside it: they sign one
snapshot, the number is one it covers, and every entry of the grant is a cutoff above the number. -/
theorem receipt_proven_read {policy : TemporalPolicy} {honored : String → Bool}
    {rl : CanonValue} {rr : Option CanonValue} {arr : List CanonValue} {proof : Option ProofV2}
    {projectId : Option String} {gid : String} {e : SnapshotEval} {validated : Bool}
    {order : OrderEv} (harr : (rl.get "revocations").bind CanonValue.asArray = some arr)
    (hgid : gid ≠ "")
    (he : evaluateSnapshot policy (readRevocationListV2 honored rl).v2
      (rr.map (readRevocationRootV2 honored)) projectId = .ok e)
    (h : classify e.verified validated order (grantRevocation (readRevocationListV2 honored rl)
      (rr.map (readRevocationRootV2 honored)) proof gid) = .provenBefore) :
    ∃ snap n, parseSnapshot rl = .ok snap ∧ (∀ r ∈ rr, parseSnapshot r = .ok snap) ∧
      projectId = some snap.projectId ∧ order = .present snap.projectId n ∧ n ≤ snap.watermark ∧
      ∀ entry ∈ arr, strOf entry "grant_id" = some gid →
        ∃ c, parseState entry (some snap.watermark) = some (.prospective c) ∧ n < c.toInt := by
  obtain ⟨snap, -, n, -, hproject, horder, hn, -, hall, -, hsources⟩ := receipt_proven he h
  have hread : ∀ {v : CanonValue}, (parseSnapshot v).toOption = some snap →
      parseSnapshot v = .ok snap := by
    intro v hv
    rcases hparse : parseSnapshot v with e | s
    · rw [hparse] at hv
      cases hv
    · rw [hparse] at hv
      rw [Option.some.inj hv]
  obtain ⟨husable, hsnap⟩ := hall _ (List.mem_append_left _ (List.mem_singleton.mpr rfl))
  have hlist : parseSnapshot rl = .ok snap := hread hsnap
  refine ⟨snap, n, hlist, ?_, hproject, horder, hn, ?_⟩
  · intro r hr
    obtain rfl := Option.mem_def.mp hr
    exact hread (hall _ (List.mem_append_right _ (List.mem_singleton.mpr rfl))).2
  · intro entry hentry hnamed
    have hsource : (readRevocationListV2 honored rl).source gid =
        some (.v2 ((parseV2Entries rl (some snap.watermark)).states.lookup gid)) := by
      have hstates : (readRevocationListV2 honored rl).source gid =
          some (.v2 ((parseV2Entries rl
            ((parseSnapshot rl).toOption.map (·.watermark))).states.lookup gid)) :=
        if_pos husable
      rw [hstates, hlist]
      rfl
    obtain ⟨hnone, -, hcutoff⟩ :=
      @parseV2Entries_spec rl (some snap.watermark) arr harr gid hgid
    rcases hsources _ (Or.inl hsource) with hs | hs | ⟨c, hs, hlt⟩
    · cases hs
    · exact absurd hnamed (hnone.mp (RevocationSource.v2.inj hs) entry hentry)
    · obtain ⟨-, hothers⟩ := (hcutoff c).mp (RevocationSource.v2.inj hs)
      obtain ⟨c', hc', hle⟩ := hothers entry hentry hnamed
      exact ⟨c', hc', lt_of_lt_of_le hlt (Int64.le_iff_toInt_le.mp hle)⟩

/-- A source that speaks against the grant. -/
def RevocationSource.IsAdverse (s : RevocationSource) : Prop :=
  s ≠ .legacyNonmember ∧ s ≠ .v2 none

/-- A prospective entry of the second version is adverse, and yet it is what a proof needs where
only a list of the first version spoke of the grant; and an entry without a name says nothing. -/
theorem adverse_source_proves :
    (∃ snapshot order sources s, RevocationSource.IsAdverse s ∧
      classify snapshot true order (gather sources).finish = .indeterminate ∧
      classify snapshot true order (gather (sources ++ [s])).finish = .provenBefore) ∧
    ∃ list arr e, (list.get "revocations").bind CanonValue.asArray = some arr ∧ e ∈ arr ∧
      strOf e "grant_id" = some "" ∧ parseState e none = some .total ∧
      (parseV2Entries list none).states.lookup "" = none := by
  refine ⟨⟨some ⟨"p", "", 0, 7⟩, .present "p" 3, [.legacyNonmember],
    .v2 (some (.prospective 5)), ?_, by decide, by decide⟩, ?_⟩
  · exact ⟨by decide, by decide⟩
  · refine ⟨.obj [("revocations", .arr [.obj [("grant_id", .str ""), ("mode", .str "total")]])],
      _, _, rfl, List.mem_singleton.mpr rfl, rfl, ?_, ?_⟩ <;> decide

/-- Historical ordering is conservative. The order of the sources of a grant does not matter; with
another source the verdict is not milder and its cutoff not higher. A list revokes a named grant
totally if one of its entries is total or cannot be read, and otherwise from the least cutoff, in
whatever order they stand. A receipt is proven only as its number, its project, the snapshot and
the verdict allow; with another source one at or after stays unproven, and an indeterminate one is
proven only if the source is the first of the second version and leaves the number standing. -/
theorem historicalOrdering_conservative :
    (∀ sources sources', sources.Perm sources' →
      (gather sources).finish = (gather sources').finish) ∧
    (∀ sources s, (gather sources).finish.severity ≤ (gather (sources ++ [s])).finish.severity ∧
      ∀ c, (gather sources).finish.adverseCutoff = some c →
        (gather (sources ++ [s])).finish = .total ∨
          ∃ c', (gather (sources ++ [s])).finish.adverseCutoff = some c' ∧ c' ≤ c) ∧
    (∀ list watermark arr, (list.get "revocations").bind CanonValue.asArray = some arr →
      ∀ g, g ≠ "" →
        ((parseV2Entries list watermark).states.lookup g = none ↔
          ∀ e ∈ arr, strOf e "grant_id" ≠ some g) ∧
        ((parseV2Entries list watermark).states.lookup g = some .total ↔
          ∃ e ∈ arr, strOf e "grant_id" = some g ∧
            (parseState e watermark = none ∨ parseState e watermark = some .total)) ∧
        ∀ c, (parseV2Entries list watermark).states.lookup g = some (.prospective c) ↔
          (∃ e ∈ arr, strOf e "grant_id" = some g ∧
            parseState e watermark = some (.prospective c)) ∧
          ∀ e ∈ arr, strOf e "grant_id" = some g →
            ∃ c', parseState e watermark = some (.prospective c') ∧ c ≤ c') ∧
    (∀ list list' watermark arr arr',
      (list.get "revocations").bind CanonValue.asArray = some arr →
      (list'.get "revocations").bind CanonValue.asArray = some arr' → arr.Perm arr' →
      ∀ g, (parseV2Entries list watermark).states.lookup g =
        (parseV2Entries list' watermark).states.lookup g) ∧
    (∀ snapshot validated rec payloadKey grant,
      classify snapshot validated (authorizationOrderOf rec payloadKey) grant = .provenBefore →
        validated = true ∧ ∃ s n, snapshot = some s ∧ s.projectId ≠ "" ∧ 1 ≤ n ∧
          authorizationOrderOf rec payloadKey = .present s.projectId n ∧ n ≤ s.watermark ∧
          (grant = .notRevokedAsOfSnapshot ∨ ∃ c, grant = .prospective c ∧ n < c)) ∧
    ∀ snapshot validated order sources s,
      classify snapshot validated order (gather (sources ++ [s])).finish = .provenBefore →
        classify snapshot validated order (gather sources).finish = .provenBefore ∨
          (classify snapshot validated order (gather sources).finish = .indeterminate ∧
            (∀ t ∈ sources, ∀ st, t ≠ .v2 st) ∧
            (s = .v2 none ∨ ∃ c, s = .v2 (some (.prospective c)) ∧
              ∀ n ∈ order.ordinal, n < c.toInt)) := by
  refine ⟨fun sources sources' h => by rw [gather_perm h], fun sources s => ?_,
    fun list watermark arr h g hg => parseV2Entries_spec h hg,
    fun list list' watermark arr arr' h h' hperm g => parseV2Entries_perm h h' hperm g,
    fun snapshot validated rec payloadKey grant h => ?_,
    fun snapshot validated order sources s h => classify_add h⟩
  · rw [gather_append]
    exact ⟨severity_le_add _ s, fun c hc => adverseCutoff_add _ s hc⟩
  · obtain ⟨hvalidated, s, n, hs, horder, hn, hgrant⟩ := classify_eq_provenBefore_iff.mp h
    obtain ⟨hp, hpos⟩ := authorizationOrderOf_present horder
    exact ⟨hvalidated, s, n, hs, hp, hpos, horder, hn, hgrant⟩

/-- A list with a revocation from a number and one whose mode cannot be read. -/
def unreadableList : CanonValue :=
  .obj [("revocations", .arr [
    .obj [("grant_id", .str "g"), ("mode", .str "prospective"), ("cutoff_order", .int 5)],
    .obj [("grant_id", .str "g"), ("mode", .str "paused")]])]

/-- A receipt with the number three in its project. -/
def numberedReceipt : CanonValue :=
  .obj [("extensions", .obj [("broker", .obj [("use_evidence", .obj [("authorization_order",
    .obj [("format", .str "averin.authorization_order.v1"), ("project_id", .str "p"),
      ("ordinal", .int 3)])])])])]

/-- A missing proof beside a usable cutoff leaves the cutoff in force, an entry that cannot be read
beside one with a cutoff revokes totally, and a proven receipt has its number in the snapshot. -/
theorem historicalOrdering_conservative_sample :
    (gather [.unproven, .v2 (some (.prospective 5))]).finish =
        (gather [.v2 (some (.prospective 5)), .unproven]).finish ∧
      (parseV2Entries unreadableList (some 9)).states.lookup "g" = some .total ∧
      ∃ s n, some (⟨"p", "", 0, 7⟩ : Snapshot) = some s ∧ s.projectId ≠ "" ∧ 1 ≤ n ∧
        authorizationOrderOf numberedReceipt "use_evidence" = .present s.projectId n ∧
        n ≤ s.watermark := by
  refine ⟨historicalOrdering_conservative.1 _ _ (List.Perm.swap _ _ _), ?_, ?_⟩
  · obtain ⟨-, htotal, -⟩ := historicalOrdering_conservative.2.2.1 unreadableList (some 9) _ rfl "g"
      (by decide)
    exact htotal.mpr ⟨_, List.mem_cons_of_mem _ List.mem_cons_self, rfl, Or.inl rfl⟩
  · obtain ⟨-, s, n, hs, hp, hn, horder, hle, -⟩ := historicalOrdering_conservative.2.2.2.2.1
      (some ⟨"p", "", 0, 7⟩) true numberedReceipt "use_evidence" .notRevokedAsOfSnapshot (by decide)
    exact ⟨s, n, hs, hp, hn, horder, hle⟩

end Averin
