import Averin.Verify.UseLedger

/-!
# Deleting anchors under a use pass

An anchor is outside every signature, so anyone can delete one; records it closed are then
committed only. A pass over the uses of a grant is compared with the pass over the same uses
with some closed flags lowered. The second pass must not look better than the first, and it
does not as long as no closed intent loses the anchor of the outcome it picks.
-/

namespace Averin

open Std (TreeSet)

/-- The same use, perhaps no longer closed. -/
structure LowersUse (u u' : UseInput) : Prop where
  rest : u' = { u with useClosed := u'.useClosed }
  closed : u'.useClosed = true → u.useClosed = true

/-- The same outcome, perhaps no longer closed. -/
structure LowersOutcome (o o' : OutcomeRef) : Prop where
  rest : o' = { o with closed := o'.closed }
  closed : o'.closed = true → o.closed = true

/-- The same records and outcomes, some of them perhaps no longer closed. -/
structure LowersCtx (ctx ctx' : UseCtx) : Prop where
  records : ctx'.records = ctx.records
  taxonomy : ctx'.taxonomy = ctx.taxonomy
  outcomes : List.Forall₂ LowersOutcome ctx.outcomes ctx'.outcomes

/-- Each outcome is lowered. -/
theorem LowersCtx.outcome {ctx ctx' : UseCtx} (h : LowersCtx ctx ctx') (i : Nat) :
    LowersOutcome (ctx.outcome i) (ctx'.outcome i) := by
  have hget : ∀ {l l' : List OutcomeRef}, List.Forall₂ LowersOutcome l l' → ∀ i,
      LowersOutcome (l.getD i default) (l'.getD i default) := by
    intro l l' hl
    induction hl with
    | nil => intro i; exact ⟨rfl, id⟩
    | cons hhead _ ih =>
      intro i
      cases i with
      | zero => exact hhead
      | succ i => exact ih i
  exact hget h.outcomes i

/-- Their identifiers stay. -/
theorem LowersCtx.map_recordId {ctx ctx' : UseCtx} (h : LowersCtx ctx ctx') :
    ctx'.outcomes.map (·.recordId) = ctx.outcomes.map (·.recordId) := by
  have hmap : ∀ {l l' : List OutcomeRef}, List.Forall₂ LowersOutcome l l' →
      l'.map (·.recordId) = l.map (·.recordId) := by
    intro l l' hl
    induction hl with
    | nil => rfl
    | cons hhead _ ih =>
      rw [List.map_cons, List.map_cons, ih, hhead.rest]
  exact hmap h.outcomes

/-- The same outcome is picked. -/
theorem LowersCtx.pickOutcome_eq {ctx ctx' : UseCtx} {u u' : UseInput} (hc : LowersCtx ctx ctx')
    (hu : LowersUse u u') (consumed : TreeSet String) :
    pickOutcome ctx' u' consumed = pickOutcome ctx u consumed := by
  have hlen : ctx'.outcomes.length = ctx.outcomes.length := hc.outcomes.length_eq.symm
  have hcomp : ∀ i, completes ctx' u' (ctx'.outcome i) = completes ctx u (ctx.outcome i) := by
    intro i
    rw [hu.rest, (hc.outcome i).rest]
    simp only [completes, hc.records]
  have hid : ∀ i, (ctx'.outcome i).recordId = (ctx.outcome i).recordId := by
    intro i
    rw [(hc.outcome i).rest]
  have hby : outcomesBy ctx' u.recordId u.gid = outcomesBy ctx u.recordId u.gid := by
    unfold outcomesBy
    rw [hlen]
    congr 1
    funext i
    rw [(hc.outcome i).rest]
  have hkey : u'.bkind = u.bkind ∧ u'.recordId = u.recordId ∧ u'.gid = u.gid := by
    rw [hu.rest]
    exact ⟨rfl, rfl, rfl⟩
  unfold pickOutcome
  rw [hkey.1, hkey.2.1, hkey.2.2, hby]
  simp only [hcomp, hid]

section Passes

variable (sha256 : List UInt8 → Vector UInt8 32) (ed : Ed25519)

/-- The answers of a run of calls, in order. -/
def useChecks (s : Ledgers) : List UseCall → List UseCheck
  | [] => []
  | c :: calls => (useStep sha256 ed s c).1 :: useChecks (useStep sha256 ed s c).2 calls

/-- The uses of a grant, each checked on the ledger of accepted uses. -/
def legacyCalls (ctx : UseCtx) (uses : List UseInput) : List UseCall :=
  uses.map fun u => ⟨ctx, u, false⟩

/-- A pass reports a violation, or an outcome that no intent consumed. -/
def reports (ctx : UseCtx) (s : Ledgers) (uses : List UseInput) : Bool :=
  (useChecks sha256 ed s (legacyCalls ctx uses)).any UseCheck.isViolation ||
    ctx.outcomes.any fun o =>
      !(useRun sha256 ed s (legacyCalls ctx uses)).consumed.contains o.recordId

/-- The same grant with at least as much spent, where the scope counts uses at all. -/
structure GrantInfo.Behind (g g' : GrantInfo) : Prop where
  rest : ∃ used usedSeqs, g' = { g with used, usedSeqs }
  used : g.single = true ∨ g.bounded = true → g.used ≤ g'.used
  seqs : g.single = true ∨ g.bounded = true → ∀ n ∈ g.usedSeqs, n ∈ g'.usedSeqs

/-- The second pass has consumed the same outcomes and spent at least as much of the grant. -/
structure Ahead (s s' : Ledgers) : Prop where
  consumed : s'.consumed = s.consumed
  grant : s.grant.Behind s'.grant

/-- An intent that passes the checks and stays closed does not pick an outcome whose closed flag is
lowered. One that is refused picks nothing. -/
def KeepsOutcome (ctx ctx' : UseCtx) (s : Ledgers) (u' : UseInput) : Prop :=
  ∀ useSeq pop, Passes sha256 ed u' s.grant false useSeq pop →
    ∀ i, pickOutcome ctx u' s.consumed = some i → u'.useClosed = true →
      (ctx.outcome i).closed = true → (ctx'.outcome i).closed = true

variable {sha256 ed} {ctx ctx' : UseCtx} {s s' : Ledgers} {u u' : UseInput}

theorem ahead_refl (s : Ledgers) : Ahead s s :=
  ⟨rfl, ⟨_, _, rfl⟩, fun _ => le_rfl, fun _ _ h => h⟩

theorem GrantInfo.Behind.spend_right {g g' : GrantInfo} (h : g.Behind g') (useSeq : Option Int) :
    g.Behind (g'.spend false useSeq) := by
  refine ⟨?_, fun hs => Nat.le_succ_of_le (h.used hs), fun hs n hn => ?_⟩
  · obtain ⟨used, usedSeqs, rfl⟩ := h.rest
    exact ⟨_, _, rfl⟩
  · have hmem := h.seqs hs n hn
    cases useSeq with
    | none => exact hmem
    | some k => exact TreeSet.mem_insert.mpr (.inr hmem)

theorem GrantInfo.Behind.spend_spend {g g' : GrantInfo} (h : g.Behind g') (useSeq : Option Int) :
    (g.spend false useSeq).Behind (g'.spend false useSeq) := by
  refine ⟨?_, fun hs => Nat.succ_le_succ (h.used hs), fun hs n hn => ?_⟩
  · obtain ⟨used, usedSeqs, rfl⟩ := h.rest
    exact ⟨_, _, rfl⟩
  · have hmem := h.seqs hs
    cases useSeq with
    | none => exact hmem n hn
    | some k =>
      rcases TreeSet.mem_insert.mp hn with heq | hn
      · exact TreeSet.mem_insert.mpr (.inl heq)
      · exact TreeSet.mem_insert.mpr (.inr (hmem n hn))

/-- A scope that counts nothing compares nothing. -/
theorem GrantInfo.Behind.spend_left {g g' : GrantInfo} (h : g.Behind g')
    (hno : ¬ (g.single = true ∨ g.bounded = true)) (useSeq : Option Int) :
    (g.spend false useSeq).Behind g' := by
  refine ⟨?_, fun hs => absurd hs hno, fun hs => absurd hs hno⟩
  obtain ⟨used, usedSeqs, rfl⟩ := h.rest
  exact ⟨_, _, rfl⟩

/-- What passes on the fuller ledger passes on the other one. -/
theorem Ahead.passes (h : Ahead s s') (hu : LowersUse u u') {useSeq : Option Int} {pop : Bool}
    (hp : Passes sha256 ed u' s'.grant false useSeq pop) :
    Passes sha256 ed u s.grant false useSeq pop := by
  obtain ⟨hadm, hpop⟩ := hp
  obtain ⟨used, usedSeqs, hg⟩ := h.grant.rest
  have hr := hu.rest
  have hsingle : s'.grant.single = s.grant.single := by rw [hg]; rfl
  have hbounded : s'.grant.bounded = s.grant.bounded := by rw [hg]; rfl
  have hlimit : s'.grant.useLimit = s.grant.useLimit := by rw [hg]
  have husn : useSequenceNumber u' = useSequenceNumber u := by rw [hr]; rfl
  constructor
  · constructor
    · have := hadm.fields
      rw [hg, hr] at this
      exact this
    · have := hadm.jti
      rw [hsingle, hbounded, hr] at this
      exact this
    · intro hs
      have := hadm.unspent (hsingle.trans hs)
      have hle := h.grant.used (.inl hs)
      simp only [GrantInfo.usedOn, Bool.false_eq_true, if_false] at this ⊢
      omega
    · have := hadm.range
      rwa [hbounded, husn, hlimit] at this
    · intro hb hmem
      apply hadm.fresh (hbounded.trans hb)
      rw [husn]
      exact h.grant.seqs (.inr hb) _ hmem
    · intro hb
      have := hadm.left (hbounded.trans hb)
      have hle := h.grant.used (.inr hb)
      simp only [GrantInfo.usedOn, Bool.false_eq_true, if_false, hlimit] at this ⊢
      omega
    · have := hadm.seq
      rwa [hbounded, husn] at this
  · rw [hg, hr] at hpop
    exact hpop

/-- A use that the first pass enters is entered by the second one. -/
theorem LowersCtx.entersUse_of_entersUse (hc : LowersCtx ctx ctx') (hu : LowersUse u u')
    (hk : KeepsOutcome sha256 ed ctx ctx' s u') {useSeq : Option Int} {pop : Bool}
    (hp' : Passes sha256 ed u' s.grant false useSeq pop) (h : entersUse ctx u s.consumed = true) :
    entersUse ctx' u' s.consumed = true := by
  have hpick := hc.pickOutcome_eq hu s.consumed
  have hsame : pickOutcome ctx u' s.consumed = pickOutcome ctx u s.consumed := by
    rw [hu.rest]
    rfl
  unfold entersUse at h ⊢
  rw [hpick]
  cases hp : pickOutcome ctx u s.consumed with
  | none =>
    rw [hp] at h
    rw [hu.rest]
    exact h
  | some i =>
    rw [hp] at h
    simp only [Bool.or_eq_true, Bool.not_eq_true'] at h ⊢
    by_cases huc : u'.useClosed = true
    · right
      have ho : (ctx.outcome i).closed = true := by
        rcases h with h | h
        · rw [hu.closed huc] at h
          cases h
        · exact h
      exact hk useSeq pop hp' i (hsame.trans hp) huc ho
    · left
      simpa using huc

/-- The outcome that is taken is the same. -/
theorem LowersCtx.takeOutcome_eq (hc : LowersCtx ctx ctx') (hu : LowersUse u u')
    (consumed : TreeSet String) :
    takeOutcome ctx' u' consumed = takeOutcome ctx u consumed := by
  unfold takeOutcome
  rw [hc.pickOutcome_eq hu]
  cases pickOutcome ctx u consumed with
  | none => rfl
  | some i =>
    simp only [Option.elim_some]
    rw [(hc.outcome i).rest]

/-- Where the second pass does not refuse a use, neither does the first, and the second
stays ahead. -/
theorem Ahead.useStep (h : Ahead s s') (hc : LowersCtx ctx ctx') (hu : LowersUse u u')
    (hk : s.grant.single = true ∨ s.grant.bounded = true →
      KeepsOutcome sha256 ed ctx ctx' s u')
    (hv : (useStep sha256 ed s' ⟨ctx', u', false⟩).1.isViolation = false) :
    (useStep sha256 ed s ⟨ctx, u, false⟩).1.isViolation = false ∧
      Ahead (useStep sha256 ed s ⟨ctx, u, false⟩).2 (useStep sha256 ed s' ⟨ctx', u', false⟩).2 := by
  rcases useStep_cases sha256 ed s' ⟨ctx', u', false⟩ with
    ⟨hbad, _, _⟩ | ⟨useSeq', pop', hp', _, heq'⟩
  · rw [hv] at hbad
    cases hbad
  have hp := h.passes hu hp'
  rcases useStep_cases sha256 ed s ⟨ctx, u, false⟩ with ⟨_, _, hno⟩ | ⟨useSeq, pop, hq, hr, heq⟩
  · exact absurd hp (hno _ _)
  refine ⟨by rw [hr, settleUse_isViolation], ?_⟩
  obtain rfl : useSeq' = useSeq := hp.1.seq.trans hq.1.seq.symm
  have hset : s'.consumedOn false = s.consumedOn false := h.consumed
  rw [heq, heq', hset, hc.takeOutcome_eq hu]
  refine ⟨rfl, ?_⟩
  simp only [Ledgers.grant_update]
  by_cases henter' : entersUse ctx' u' (s.consumedOn false) = true
  · rw [if_pos henter']
    split
    · exact h.grant.spend_spend useSeq'
    · exact h.grant.spend_right useSeq'
  · rw [if_neg henter']
    split
    · -- Entered by the first pass only: the scope counts no uses.
      rename_i henter
      have hno : ¬ (s.grant.single = true ∨ s.grant.bounded = true) := fun hs =>
        henter' (hc.entersUse_of_entersUse hu (hk hs) (h.passes ⟨rfl, id⟩ hp') henter)
      exact h.grant.spend_left hno useSeq'
    · exact h.grant

/-- Along the whole pass: where the second pass refuses nothing, neither does the first, and
both consume the same outcomes. -/
theorem Ahead.useRun {uses uses' : List UseInput} (h : Ahead s s') (hc : LowersCtx ctx ctx')
    (hu : List.Forall₂ LowersUse uses uses')
    (hk : s.grant.single = true ∨ s.grant.bounded = true → ∀ k u', uses'[k]? = some u' →
      KeepsOutcome sha256 ed ctx ctx' (useRun sha256 ed s (legacyCalls ctx (uses.take k))) u')
    (hv : (useChecks sha256 ed s' (legacyCalls ctx' uses')).any UseCheck.isViolation = false) :
    (useChecks sha256 ed s (legacyCalls ctx uses)).any UseCheck.isViolation = false ∧
      (useRun sha256 ed s' (legacyCalls ctx' uses')).consumed =
        (useRun sha256 ed s (legacyCalls ctx uses)).consumed := by
  induction hu generalizing s s' with
  | nil => exact ⟨rfl, h.consumed⟩
  | @cons u u' uses uses' hu _ ih =>
    simp only [legacyCalls, List.map_cons, useChecks, List.any_cons, Bool.or_eq_false_iff] at hv
    obtain ⟨hstep, hahead⟩ := h.useStep hc hu (fun hs => hk hs 0 u' rfl) hv.1
    obtain ⟨hsingle, hbounded, _⟩ := @scope_useStep sha256 ed s ⟨ctx, u, false⟩
    have hrest := ih hahead (fun hs k w hw => hk (by rwa [hsingle, hbounded] at hs) (k + 1) w hw)
      hv.2
    refine ⟨?_, hrest.2⟩
    simp only [legacyCalls, List.map_cons, useChecks, List.any_cons, Bool.or_eq_false_iff]
    exact ⟨hstep, hrest.1⟩

/-- Lowering closed flags never hides a report, as long as no intent that stays closed and passes
the checks picks, in the state the first pass reaches it in, an outcome whose flag is lowered. A
grant whose scope counts no uses needs no such condition. -/
theorem lowering_keeps_reports {uses uses' : List UseInput} (hc : LowersCtx ctx ctx')
    (hu : List.Forall₂ LowersUse uses uses')
    (hk : s.grant.single = true ∨ s.grant.bounded = true → ∀ k u', uses'[k]? = some u' →
      KeepsOutcome sha256 ed ctx ctx' (useRun sha256 ed s (legacyCalls ctx (uses.take k))) u')
    (h : reports sha256 ed ctx s uses = true) : reports sha256 ed ctx' s uses' = true := by
  by_contra hno
  simp only [reports, Bool.not_eq_true, Bool.or_eq_false_iff] at hno
  obtain ⟨hviol, hsame⟩ := (ahead_refl s).useRun hc hu hk hno.1
  have horphan := hno.2
  have hany : ∀ (l : List OutcomeRef) (set : TreeSet String),
      (l.any fun o => !set.contains o.recordId) =
        (l.map (·.recordId)).any fun id => !set.contains id := by
    intro l set
    rw [List.any_map]
    rfl
  rw [hany, hc.map_recordId, hsame, ← hany] at horphan
  rw [reports, hviol, horphan] at h
  cases h

end Passes

/-- One outcome of an intent, with its record naming the intent as its parent. -/
def sampleOutcomes (closed : Bool) : UseCtx where
  records := [.obj [("causal_prev_hashes", .arr [.str "hi"])]]
  outcomes := [⟨"intent", "grant", "outcome", 0, "hi", closed⟩]
  taxonomy := none

/-- A two-phase use and then a one-phase use of the same grant. -/
def sampleUses (intentClosed : Bool) : List UseInput :=
  [{ sampleUse "use_intent" "intent" "hi" 0 with useClosed := intentClosed },
    sampleUse "use" "use" "hu" 0]

/-- The ledgers before the sample. -/
def sampleStart : Ledgers := ⟨sampleGrant "single_operation" 0, ∅, ∅⟩

theorem lowersCtx_sampleOutcomes : LowersCtx (sampleOutcomes true) (sampleOutcomes false) :=
  ⟨rfl, rfl, .cons ⟨rfl, fun _ => rfl⟩ .nil⟩

theorem lowersUse_sampleUses (intentClosed : Bool) :
    List.Forall₂ LowersUse (sampleUses true) (sampleUses intentClosed) :=
  .cons ⟨rfl, fun _ => rfl⟩ (.cons ⟨rfl, id⟩ .nil)

/-- Both uses spend the grant, so the pass reports the second one. With the flags of the
intent and of its outcome lowered it still does. -/
theorem lowering_keeps_reports_pending_intent :
    reports Sha256.digest noKeys (sampleOutcomes true) sampleStart (sampleUses true) = true ∧
      reports Sha256.digest noKeys (sampleOutcomes false) sampleStart (sampleUses false) =
        true := by
  have h : reports Sha256.digest noKeys (sampleOutcomes true) sampleStart (sampleUses true) =
      true := by decide +kernel
  refine ⟨h, lowering_keeps_reports lowersCtx_sampleOutcomes (lowersUse_sampleUses false) ?_ h⟩
  intro _ k u' hk _ _ _ i hpick hclosed
  match k with
  | 0 =>
    obtain rfl := Option.some.inj hk
    cases hclosed
  | 1 =>
    obtain rfl := Option.some.inj hk
    cases hpick
  | k + 2 => cases hk

/-- With only the outcome's flag lowered the closed intent takes the outcome and does not
spend the grant, and the second use is matched: the double spend is no longer reported. -/
theorem lowered_outcome_hides_double_spend :
    sampleStart.grant.Fresh ∧ sampleStart.grant.closed = true ∧
      LowersCtx (sampleOutcomes true) (sampleOutcomes false) ∧
      List.Forall₂ LowersUse (sampleUses true) (sampleUses true) ∧
      reports Sha256.digest noKeys (sampleOutcomes true) sampleStart (sampleUses true) = true ∧
      reports Sha256.digest noKeys (sampleOutcomes false) sampleStart (sampleUses true) =
        false :=
  ⟨fresh_sampleGrant _ _, rfl, lowersCtx_sampleOutcomes, lowersUse_sampleUses true,
    by decide +kernel, by decide +kernel⟩

end Averin
