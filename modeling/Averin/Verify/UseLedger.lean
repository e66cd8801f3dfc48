import Averin.Core.Sha256
import Averin.Verify.Uses

/-!
# The two ledgers of a grant over a run

Calls of the check on one grant follow each other in any order, on either ledger. What a
single call can do to a grant is said once; the limits of both ledgers and the single use
of every outcome follow along the run.
-/

namespace Averin

open Std (TreeSet)

namespace GrantInfo

variable {g : GrantInfo} {shadow other : Bool} {useSeq : Option Int}

@[simp] theorem single_spend : (g.spend shadow useSeq).single = g.single := by
  cases shadow <;> rfl

@[simp] theorem bounded_spend : (g.spend shadow useSeq).bounded = g.bounded := by
  cases shadow <;> rfl

@[simp] theorem useLimit_spend : (g.spend shadow useSeq).useLimit = g.useLimit := by
  cases shadow <;> rfl

theorem usedOn_spend :
    (g.spend shadow useSeq).usedOn other =
      if other = shadow then g.usedOn shadow + 1 else g.usedOn other := by
  cases shadow <;> cases other <;> rfl

theorem seqsOn_spend :
    (g.spend shadow useSeq).seqsOn other =
      if other = shadow then useSeq.elim (g.seqsOn shadow) (g.seqsOn shadow).insert
      else g.seqsOn other := by
  cases shadow <;> cases other <;> rfl

/-- One ledger is within the limits of the grant. -/
structure Within (g : GrantInfo) (shadow : Bool) : Prop where
  single_le : g.single = true → g.usedOn shadow ≤ 1
  size_eq : g.bounded = true → g.usedOn shadow = (g.seqsOn shadow).size
  le_limit : g.bounded = true → 0 ≤ g.useLimit → (g.usedOn shadow : Int) ≤ g.useLimit
  seq_mem : g.bounded = true → ∀ n ∈ g.seqsOn shadow, 1 ≤ n ∧ n ≤ g.useLimit

/-- Nothing was entered in either ledger. -/
structure Fresh (g : GrantInfo) : Prop where
  used : ∀ shadow, g.usedOn shadow = 0
  seqs : ∀ shadow, g.seqsOn shadow = ∅

/-- A fresh grant is within its limits. -/
theorem Fresh.within (hg : g.Fresh) (shadow : Bool) : g.Within shadow where
  single_le _ := by simp [hg.used]
  size_eq _ := by simp [hg.used, hg.seqs]
  le_limit _ h := by simpa [hg.used] using h
  seq_mem _ n hn := by simp [hg.seqs] at hn

end GrantInfo

/-- What the first checks leave of a use they let through. -/
structure Admitted (u : UseInput) (g : GrantInfo) (shadow : Bool) (useSeq : Option Int) :
    Prop where
  fields : u.action = g.action ∧ u.resourceId = g.resourceId ∧ u.cnfKid = g.effectiveCnfKid ∧
    g.issuedAt ≤ u.usedAt ∧ u.usedAt < g.effectiveExp
  jti : g.single = true ∨ g.bounded = true → u.jti = u.gid
  unspent : g.single = true → g.usedOn shadow = 0
  range : g.bounded = true → 1 ≤ useSequenceNumber u ∧ useSequenceNumber u ≤ g.useLimit
  fresh : g.bounded = true → useSequenceNumber u ∉ g.seqsOn shadow
  left : g.bounded = true → (g.usedOn shadow : Int) < g.useLimit
  seq : useSeq = if g.bounded then some (useSequenceNumber u) else none

/-- A use is let in exactly if the ledger admits it. -/
theorem admit_eq_ok_iff {u : UseInput} {g : GrantInfo} {shadow : Bool} {useSeq : Option Int} :
    admitUse u g shadow = .ok useSeq ↔ Admitted u g shadow useSeq := by
  constructor
  · intro h
    simp only [admitUse] at h
    split at h
    · cases h
    split at h
    · cases h
    split at h
    · cases h
    rename_i hf hj hs
    push Not at hf hj hs
    have hun : g.single = true → g.usedOn shadow = 0 := fun hg => by have := hs hg; omega
    split at h
    · rename_i hb
      split at h
      · cases h
      split at h
      · cases h
      split at h
      · cases h
      rename_i hr hn hl
      push Not at hr hl
      refine ⟨hf, fun hg => hj (by simpa using hg), hun, fun _ => hr, fun _ => hn, fun _ => hl, ?_⟩
      rw [if_pos hb]
      exact (Except.ok.inj h).symm
    · rename_i hb
      refine ⟨hf, fun hg => hj (by simpa using hg), hun, fun hg => absurd hg hb,
        fun hg => absurd hg hb, fun hg => absurd hg hb, ?_⟩
      rw [if_neg hb]
      exact (Except.ok.inj h).symm
  · intro h
    have hf := h.fields
    have hfields : ¬ (u.action ≠ g.action ∨ u.resourceId ≠ g.resourceId ∨
        u.cnfKid ≠ g.effectiveCnfKid ∨ u.usedAt < g.issuedAt ∨ u.usedAt ≥ g.effectiveExp) := by
      push Not
      exact hf
    have hjti : ¬ ((g.single || g.bounded) = true ∧ u.jti ≠ u.gid) := by
      rintro ⟨hg, hne⟩
      exact hne (h.jti (by simpa using hg))
    have hunspent : ¬ (g.single = true ∧ g.usedOn shadow ≥ 1) := by
      rintro ⟨hg, hge⟩
      have := h.unspent hg
      omega
    simp only [admitUse]
    rw [if_neg hfields, if_neg hjti, if_neg hunspent, h.seq]
    split
    · rename_i hb
      have hr := h.range hb
      have hl := h.left hb
      rw [if_neg (by omega), if_neg (h.fresh hb), if_neg (by omega)]
    · rfl

/-- What is not let in is a violation. -/
theorem isViolation_of_admit {u : UseInput} {g : GrantInfo} {shadow : Bool} {v : UseCheck}
    (h : admitUse u g shadow = .error v) : v.isViolation = true := by
  simp only [admitUse] at h
  repeat' split at h
  all_goals first
    | cases h
      rfl
    | cases h

/-- An admitted use keeps the ledger it is entered in within the limits. -/
theorem Admitted.within_spend {u : UseInput} {g : GrantInfo} {shadow : Bool}
    {useSeq : Option Int} (h : Admitted u g shadow useSeq) {other : Bool} (hw : g.Within other) :
    (g.spend shadow useSeq).Within other := by
  by_cases ho : other = shadow
  · subst ho
    constructor
    · intro hs
      rw [GrantInfo.single_spend] at hs
      rw [GrantInfo.usedOn_spend, if_pos rfl, h.unspent hs]
    · intro hb
      rw [GrantInfo.bounded_spend] at hb
      have hseq : useSeq = some (useSequenceNumber u) := by rw [h.seq, if_pos hb]
      rw [GrantInfo.usedOn_spend, GrantInfo.seqsOn_spend, if_pos rfl, if_pos rfl, hseq,
        Option.elim_some, TreeSet.size_insert,
        if_neg (by rw [← TreeSet.mem_iff_contains]; exact h.fresh hb), hw.size_eq hb]
    · intro hb _
      rw [GrantInfo.bounded_spend] at hb
      rw [GrantInfo.usedOn_spend, if_pos rfl, GrantInfo.useLimit_spend]
      have := h.left hb
      omega
    · intro hb n hn
      rw [GrantInfo.bounded_spend] at hb
      have hseq : useSeq = some (useSequenceNumber u) := by rw [h.seq, if_pos hb]
      rw [GrantInfo.seqsOn_spend, if_pos rfl, hseq, Option.elim_some, TreeSet.mem_insert] at hn
      rw [GrantInfo.useLimit_spend]
      rcases hn with heq | hn
      · rw [Std.compare_eq_iff_eq] at heq
        subst heq
        exact h.range hb
      · exact hw.seq_mem hb n hn
  · have hused := @GrantInfo.usedOn_spend g shadow other useSeq
    have hseqs := @GrantInfo.seqsOn_spend g shadow other useSeq
    rw [if_neg ho] at hused hseqs
    constructor
    · intro hs
      rw [hused]
      exact hw.single_le (by simpa using hs)
    · intro hb
      rw [hused, hseqs]
      exact hw.size_eq (by simpa using hb)
    · intro hb hl
      rw [hused, GrantInfo.useLimit_spend]
      exact hw.le_limit (by simpa using hb) (by simpa using hl)
    · intro hb n hn
      rw [hseqs] at hn
      rw [GrantInfo.useLimit_spend]
      exact hw.seq_mem (by simpa using hb) n hn

/-- The use is entered in the ledger: a one-phase use always, an intent when its outcome is
there and, for a closed intent, closed. -/
def entersUse (ctx : UseCtx) (u : UseInput) (consumed : TreeSet String) : Bool :=
  match pickOutcome ctx u consumed with
  | none => u.bkind != "use_intent"
  | some i => !u.useClosed || (ctx.outcome i).closed

/-- The consumed outcomes with the one that is picked. -/
def takeOutcome (ctx : UseCtx) (u : UseInput) (consumed : TreeSet String) : TreeSet String :=
  (pickOutcome ctx u consumed).elim consumed fun i => consumed.insert (ctx.outcome i).recordId

/-- A use that enters is spent and takes its outcome. -/
theorem settleUse_snd {ctx : UseCtx} {u : UseInput} {g : GrantInfo} {shadow : Bool}
    {consumed : TreeSet String} {useSeq : Option Int} {pop : Bool} :
    (settleUse ctx u g shadow consumed useSeq pop).2 =
      (if entersUse ctx u consumed then g.spend shadow useSeq else g,
        takeOutcome ctx u consumed) := by
  unfold settleUse entersUse takeOutcome
  cases hp : pickOutcome ctx u consumed with
  | none =>
    by_cases hk : u.bkind = "use_intent" <;>
      by_cases hc : (!u.useClosed || !g.closed) = true <;> simp [hk, hc]
  | some i =>
    by_cases hu : u.useClosed = true <;> by_cases ho : (ctx.outcome i).closed = true <;>
      by_cases hc : g.closed = true <;> simp [hu, ho, hc]

/-- The verdict on a use that enters. -/
theorem settleUse_fst {ctx : UseCtx} {u : UseInput} {g : GrantInfo} {shadow : Bool}
    {consumed : TreeSet String} {useSeq : Option Int} {pop : Bool} :
    let r := (settleUse ctx u g shadow consumed useSeq pop).1
    r = .intentWithoutOutcome ∨ r = .pending ∨
      ∃ act win, r = .matched pop act win (pickOutcome ctx u consumed) := by
  simp only [settleUse]
  split
  · split <;> simp
  split
  · simp
  split
  · simp
  · simp

/-- A use that was let in is no violation. -/
theorem settleUse_isViolation {ctx : UseCtx} {u : UseInput} {g : GrantInfo} {shadow : Bool}
    {consumed : TreeSet String} {useSeq : Option Int} {pop : Bool} :
    (settleUse ctx u g shadow consumed useSeq pop).1.isViolation = false := by
  rcases @settleUse_fst ctx u g shadow consumed useSeq pop with h | h | ⟨act, win, h⟩
  all_goals
    rw [h]
    rfl

section Runs

variable (sha256 : List UInt8 → Vector UInt8 32) (ed : Ed25519)

/-- No check refuses the use. -/
def Passes (u : UseInput) (g : GrantInfo) (shadow : Bool) (useSeq : Option Int) (pop : Bool) :
    Prop :=
  Admitted u g shadow useSeq ∧ popReverify sha256 ed u.record g.credentialBinding = .ok pop

/-- A call refuses the use and changes nothing, or settles it. -/
theorem checkUse_cases (ctx : UseCtx) (u : UseInput) (g : GrantInfo) (shadow : Bool)
    (consumed : TreeSet String) :
    ((∀ useSeq pop, ¬ Passes sha256 ed u g shadow useSeq pop) ∧
      ∃ v : UseCheck, v.isViolation = true ∧
        checkUse sha256 ed ctx u g shadow consumed = (v, g, consumed)) ∨
    ∃ useSeq pop, Passes sha256 ed u g shadow useSeq pop ∧
      checkUse sha256 ed ctx u g shadow consumed =
        settleUse ctx u g shadow consumed useSeq pop := by
  unfold checkUse
  cases hadm : admitUse u g shadow with
  | error v =>
    refine .inl ⟨fun useSeq pop h => ?_, v, isViolation_of_admit hadm, rfl⟩
    rw [admit_eq_ok_iff.mpr h.1] at hadm
    cases hadm
  | ok useSeq =>
    cases hpop : popReverify sha256 ed u.record g.credentialBinding with
    | error msg =>
      refine .inl ⟨fun useSeq pop h => ?_, _, rfl, rfl⟩
      rw [h.2] at hpop
      cases hpop
    | ok pop => exact .inr ⟨useSeq, pop, ⟨admit_eq_ok_iff.mp hadm, hpop⟩, rfl⟩

/-- The two ledgers of a grant and their consumed outcomes. -/
structure Ledgers where
  grant : GrantInfo
  consumed : TreeSet String
  histConsumed : TreeSet String

/-- One call of the check on a grant. -/
structure UseCall where
  ctx : UseCtx
  input : UseInput
  shadow : Bool

/-- The outcomes consumed on one side. -/
def Ledgers.consumedOn (s : Ledgers) (shadow : Bool) : TreeSet String :=
  if shadow then s.histConsumed else s.consumed

/-- Put a grant and the consumed outcomes of one ledger in place. -/
def Ledgers.update (s : Ledgers) (shadow : Bool) (g : GrantInfo) (consumed : TreeSet String) :
    Ledgers :=
  if shadow then ⟨g, s.consumed, consumed⟩ else ⟨g, consumed, s.histConsumed⟩

/-- The judging of one use. -/
def useStep (s : Ledgers) (c : UseCall) : UseCheck × Ledgers :=
  let r := checkUse sha256 ed c.ctx c.input s.grant c.shadow (s.consumedOn c.shadow)
  (r.1, s.update c.shadow r.2.1 r.2.2)

/-- The ledgers after a run of calls. -/
def useRun (s : Ledgers) (calls : List UseCall) : Ledgers :=
  calls.foldl (fun s c => (useStep sha256 ed s c).2) s

/-- The outcome record a call is answered with. -/
def UseCall.returned (c : UseCall) : UseCheck → Option String
  | .matched _ _ _ outcome => outcome.map fun i => (c.ctx.outcome i).recordId
  | _ => none

namespace Ledgers

variable {s : Ledgers} {shadow other : Bool} {g : GrantInfo} {consumed : TreeSet String}

@[simp] theorem grant_update : (s.update shadow g consumed).grant = g := by
  cases shadow <;> rfl

theorem consumedOn_update :
    (s.update shadow g consumed).consumedOn other =
      if other = shadow then consumed else s.consumedOn other := by
  cases shadow <;> cases other <;> rfl

/-- Writing back what was there changes nothing. -/
theorem update_self : s.update shadow s.grant (s.consumedOn shadow) = s := by
  cases shadow <;> rfl

end Ledgers

/-- A call leaves the ledgers alone when it refuses; else it takes the picked outcome and
enters the use or not. -/
theorem useStep_cases (s : Ledgers) (c : UseCall) :
    ((useStep sha256 ed s c).1.isViolation = true ∧ (useStep sha256 ed s c).2 = s ∧
      ∀ useSeq pop, ¬ Passes sha256 ed c.input s.grant c.shadow useSeq pop) ∨
    ∃ useSeq pop, Passes sha256 ed c.input s.grant c.shadow useSeq pop ∧
      (useStep sha256 ed s c).1 =
        (settleUse c.ctx c.input s.grant c.shadow (s.consumedOn c.shadow) useSeq pop).1 ∧
      (useStep sha256 ed s c).2 = s.update c.shadow
        (if entersUse c.ctx c.input (s.consumedOn c.shadow) then s.grant.spend c.shadow useSeq
          else s.grant)
        (takeOutcome c.ctx c.input (s.consumedOn c.shadow)) := by
  rcases checkUse_cases sha256 ed c.ctx c.input s.grant c.shadow (s.consumedOn c.shadow) with
    ⟨hno, v, hv, heq⟩ | ⟨useSeq, pop, hp, heq⟩
  · left
    simp only [useStep, heq]
    exact ⟨hv, Ledgers.update_self, hno⟩
  · right
    refine ⟨useSeq, pop, hp, ?_, ?_⟩
    · simp only [useStep, heq]
    · simp only [useStep, heq, settleUse_snd]

variable {sha256 ed}

/-- A use keeps the grant within its limits. -/
theorem within_useStep {s : Ledgers} {c : UseCall} {other : Bool} (h : s.grant.Within other) :
    (useStep sha256 ed s c).2.grant.Within other := by
  rcases useStep_cases sha256 ed s c with ⟨_, heq, _⟩ | ⟨useSeq, pop, hp, _, heq⟩
  · rwa [heq]
  · rw [heq, Ledgers.grant_update]
    split
    · exact hp.1.within_spend h
    · exact h

/-- The scope of a grant and its limit are the same after every call. -/
theorem scope_useStep {s : Ledgers} {c : UseCall} :
    (useStep sha256 ed s c).2.grant.single = s.grant.single ∧
      (useStep sha256 ed s c).2.grant.bounded = s.grant.bounded ∧
      (useStep sha256 ed s c).2.grant.useLimit = s.grant.useLimit := by
  rcases useStep_cases sha256 ed s c with ⟨_, heq, _⟩ | ⟨useSeq, pop, hp, _, heq⟩
  · rw [heq]
    exact ⟨rfl, rfl, rfl⟩
  · rw [heq, Ledgers.grant_update]
    split <;> simp

/-- A call on one ledger does not touch the other. -/
theorem other_useStep {s : Ledgers} {c : UseCall} {other : Bool} (ho : other ≠ c.shadow) :
    (useStep sha256 ed s c).2.grant.usedOn other = s.grant.usedOn other ∧
      (useStep sha256 ed s c).2.grant.seqsOn other = s.grant.seqsOn other ∧
      (useStep sha256 ed s c).2.consumedOn other = s.consumedOn other := by
  rcases useStep_cases sha256 ed s c with ⟨_, heq, _⟩ | ⟨useSeq, pop, hp, _, heq⟩
  · rw [heq]
    exact ⟨rfl, rfl, rfl⟩
  · rw [heq, Ledgers.grant_update, Ledgers.consumedOn_update, if_neg ho]
    split
    · rw [GrantInfo.usedOn_spend, GrantInfo.seqsOn_spend, if_neg ho, if_neg ho]
      exact ⟨rfl, rfl, rfl⟩
    · exact ⟨rfl, rfl, rfl⟩

/-- The outcome of a use was not consumed before. -/
theorem not_mem_of_pickOutcome {ctx : UseCtx} {u : UseInput} {consumed : TreeSet String} {i : Nat}
    (h : pickOutcome ctx u consumed = some i) : (ctx.outcome i).recordId ∉ consumed := by
  unfold pickOutcome at h
  split at h
  · have := List.find?_some h
    simp only [Bool.and_eq_true, Bool.not_eq_true'] at this
    rw [TreeSet.mem_iff_contains, this.1]
    exact Bool.false_ne_true
  · cases h

/-- Taking an outcome frees none. -/
theorem mem_takeOutcome {ctx : UseCtx} {u : UseInput} {consumed : TreeSet String} {id : String}
    (h : id ∈ consumed) : id ∈ takeOutcome ctx u consumed := by
  unfold takeOutcome
  cases pickOutcome ctx u consumed with
  | none => exact h
  | some i => simp [h]

/-- What is consumed stays so. -/
theorem mem_consumedOn_useStep {s : Ledgers} {c : UseCall} {other : Bool} {id : String}
    (h : id ∈ s.consumedOn other) : id ∈ (useStep sha256 ed s c).2.consumedOn other := by
  rcases useStep_cases sha256 ed s c with ⟨_, heq, _⟩ | ⟨useSeq, pop, hp, _, heq⟩
  · rwa [heq]
  · rw [heq, Ledgers.consumedOn_update]
    split
    · rename_i ho
      subst ho
      exact mem_takeOutcome h
    · exact h

theorem mem_consumedOn_useRun {s : Ledgers} (calls : List UseCall) {other : Bool} {id : String}
    (h : id ∈ s.consumedOn other) : id ∈ (useRun sha256 ed s calls).consumedOn other := by
  induction calls generalizing s with
  | nil => exact h
  | cons c calls ih => exact ih (mem_consumedOn_useStep h)

/-- The outcome a call returns was free before it and is consumed after it. -/
theorem returned_useStep {s : Ledgers} {c : UseCall} {id : String}
    (h : c.returned (useStep sha256 ed s c).1 = some id) :
    id ∉ s.consumedOn c.shadow ∧ id ∈ (useStep sha256 ed s c).2.consumedOn c.shadow := by
  rcases useStep_cases sha256 ed s c with ⟨hv, _, _⟩ | ⟨useSeq, pop, hp, hr, heq⟩
  · cases hres : (useStep sha256 ed s c).1 <;> simp_all [UseCheck.isViolation, UseCall.returned]
  · have hmatched := @settleUse_fst c.ctx c.input s.grant c.shadow
      (s.consumedOn c.shadow) useSeq pop
    rw [hr] at h
    rcases hmatched with hm | hm | ⟨act, win, hm⟩
    · rw [hm] at h
      cases h
    · rw [hm] at h
      cases h
    · rw [hm] at h
      cases hpick : pickOutcome c.ctx c.input (s.consumedOn c.shadow) with
      | none =>
        rw [hpick] at h
        cases h
      | some i =>
        rw [hpick] at h
        obtain rfl : (c.ctx.outcome i).recordId = id := Option.some.inj h
        refine ⟨not_mem_of_pickOutcome hpick, ?_⟩
        rw [heq, Ledgers.consumedOn_update, if_pos rfl, takeOutcome, hpick]
        exact TreeSet.mem_insert_self

theorem useRun_append (s : Ledgers) (calls more : List UseCall) :
    useRun sha256 ed s (calls ++ more) = useRun sha256 ed (useRun sha256 ed s calls) more :=
  List.foldl_append

/-- The grant stays within its limits. -/
theorem within_useRun {s : Ledgers} (h : ∀ other, s.grant.Within other) (calls : List UseCall)
    (other : Bool) : (useRun sha256 ed s calls).grant.Within other := by
  induction calls generalizing s with
  | nil => exact h other
  | cons c calls ih => exact ih fun other => within_useStep (h other)

/-- No run changes what the grant allows. -/
theorem scope_useRun (s : Ledgers) (calls : List UseCall) :
    (useRun sha256 ed s calls).grant.single = s.grant.single ∧
      (useRun sha256 ed s calls).grant.bounded = s.grant.bounded ∧
      (useRun sha256 ed s calls).grant.useLimit = s.grant.useLimit := by
  induction calls generalizing s with
  | nil => exact ⟨rfl, rfl, rfl⟩
  | cons c calls ih =>
    obtain ⟨hs, hb, hl⟩ := @scope_useStep sha256 ed s c
    have h := ih (useStep sha256 ed s c).2
    rwa [hs, hb, hl] at h

/-- A fresh grant stays within its limits over every run of calls on its two ledgers. At
every point of the run a refused call changes nothing, a call on one ledger leaves the other
alone, and an outcome that a call returned or an incomplete intent consumed is not returned
by a later call of the same ledger. -/
theorem use_ledgers_sound {g : GrantInfo} (hg : g.Fresh) (consumed histConsumed : TreeSet String)
    (calls : List UseCall) :
    let start : Ledgers := ⟨g, consumed, histConsumed⟩
    let s := useRun sha256 ed start calls
    (∀ shadow, g.single = true → s.grant.usedOn shadow ≤ 1) ∧
    (∀ shadow, g.bounded = true → 1 ≤ g.useLimit →
      s.grant.usedOn shadow = (s.grant.seqsOn shadow).size ∧
      (s.grant.usedOn shadow : Int) ≤ g.useLimit ∧
      ∀ n ∈ s.grant.seqsOn shadow, 1 ≤ n ∧ n ≤ g.useLimit) ∧
    (∀ c, (useStep sha256 ed s c).1.isViolation = true → (useStep sha256 ed s c).2 = s) ∧
    (∀ c other, other ≠ c.shadow →
      (useStep sha256 ed s c).2.grant.usedOn other = s.grant.usedOn other ∧
      (useStep sha256 ed s c).2.grant.seqsOn other = s.grant.seqsOn other ∧
      (useStep sha256 ed s c).2.consumedOn other = s.consumedOn other) ∧
    ∀ before c between d after, calls = before ++ c :: between ++ d :: after →
      c.shadow = d.shadow →
      let first := useStep sha256 ed (useRun sha256 ed start before) c
      let last := useStep sha256 ed (useRun sha256 ed start (before ++ c :: between)) d
      ∀ id, c.returned first.1 = some id ∨
          (first.1 = .intentWithoutOutcome ∧ id ∈ first.2.consumedOn c.shadow) →
        d.returned last.1 ≠ some id := by
  intro start s
  have hw := @within_useRun sha256 ed start hg.within calls
  obtain ⟨hsingle, hbounded, hlimit⟩ := @scope_useRun sha256 ed start calls
  refine ⟨?_, ?_, ?_, ?_, ?_⟩
  · intro shadow h
    exact (hw shadow).single_le (hsingle.trans h)
  · intro shadow h hpos
    have hb : s.grant.bounded = true := hbounded.trans h
    refine ⟨(hw shadow).size_eq hb, ?_, ?_⟩
    · have := (hw shadow).le_limit hb (by rw [hlimit]; exact le_trans zero_le_one hpos)
      rwa [hlimit] at this
    · have := (hw shadow).seq_mem hb
      rwa [hlimit] at this
  · intro c hv
    rcases useStep_cases sha256 ed s c with ⟨_, heq, _⟩ | ⟨useSeq, pop, _, hr, _⟩
    · exact heq
    · rw [hr, settleUse_isViolation] at hv
      cases hv
  · intro c other ho
    exact other_useStep ho
  · intro before c between d after _ hcd first last id hid hret
    have hin : id ∈ first.2.consumedOn c.shadow := by
      rcases hid with hid | ⟨_, hid⟩
      · exact (returned_useStep hid).2
      · exact hid
    apply (returned_useStep hret).1
    rw [useRun_append, ← hcd]
    exact mem_consumedOn_useRun between hin

end Runs

/-- A closed grant of one scope, with nothing spent. -/
def sampleGrant (scopeClass : String) (useLimit : Int) : GrantInfo where
  action := "deploy"
  resourceId := "prod"
  scopeClass := scopeClass
  credentialBinding := "cred"
  issuedAt := 0
  used := 0
  useLimit := useLimit
  usedSeqs := ∅
  effectiveCnfKid := "agent"
  effectiveExp := 100
  closed := true
  histUsed := 0
  histUsedSeqs := ∅

/-- A closed use or intent of the sample grant that carries no key to check again. -/
def sampleUse (bkind recordId contentHash : String) (seq : Int64) : UseInput where
  record := .obj [("extensions", .obj [("broker", .obj
    [("kind", .str bkind), ("use_evidence", .obj [("use_sequence_number", .int seq)])])])]
  recordId := recordId
  contentHash := contentHash
  bkind := bkind
  gid := "grant"
  action := "deploy"
  resourceId := "prod"
  cnfKid := "agent"
  jti := "grant"
  usedAt := 1
  useClosed := true

/-- A scheme without keys; the sample uses never ask for one. -/
def noKeys : Ed25519 where
  validKey _ := false
  verifyStrict _ _ _ := false

theorem fresh_sampleGrant (scopeClass : String) (useLimit : Int) :
    (sampleGrant scopeClass useLimit).Fresh where
  used shadow := by cases shadow <;> rfl
  seqs shadow := by cases shadow <;> rfl

/-- Four uses of a grant for two, one of them a replay and one past the limit. -/
def sampleCalls : List UseCall :=
  [sampleUse "use" "a" "ha" 1, sampleUse "use" "b" "hb" 1, sampleUse "use" "c" "hc" 2,
    sampleUse "use" "d" "hd" 3].map fun u => ⟨⟨[], [], none⟩, u, false⟩

/-- Two uses of a grant that allows two. -/
theorem use_ledgers_sound_two_uses :
    (sampleGrant "bounded_reuse" 2).Fresh ∧
      let s := useRun Sha256.digest noKeys ⟨sampleGrant "bounded_reuse" 2, ∅, ∅⟩ sampleCalls
      s.grant.usedOn false = 2 ∧ (s.grant.seqsOn false).size = 2 ∧
        ∀ n ∈ s.grant.seqsOn false, 1 ≤ n ∧ n ≤ 2 := by
  have hg := fresh_sampleGrant "bounded_reuse" 2
  obtain ⟨_, hbounded, _⟩ :=
    @use_ledgers_sound Sha256.digest noKeys _ hg ∅ ∅ sampleCalls
  obtain ⟨hsize, _, hseqs⟩ := hbounded false (by decide) (by decide)
  have hused : (useRun Sha256.digest noKeys ⟨sampleGrant "bounded_reuse" 2, ∅, ∅⟩
      sampleCalls).grant.usedOn false = 2 := by decide +kernel
  exact ⟨hg, hused, hsize.symm.trans hused, hseqs⟩

end Averin
