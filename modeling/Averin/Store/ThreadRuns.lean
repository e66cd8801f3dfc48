import Averin.Core.Outcome
import Averin.Store.ThreadValues

/-!
# What goroutines leave of a project

A goroutine that writes keeps the token of its project from its snapshot to its commit, so what it
publishes is what was published before, after its own calls. Whatever goroutines do at once, every
project is therefore the outcome of calls made one after another, and its rows are those of such a
run.
-/

namespace Averin

namespace Project

/-- A project that comes of another by calls. -/
def Reached (p q : Project) : Prop := ∃ cs, q = p.calls cs

/-- No call is needed to stay. -/
theorem Reached.refl (p : Project) : p.Reached p := ⟨[], rfl⟩

/-- Calls after calls are calls. -/
theorem Reached.trans {p q r : Project} (h : p.Reached q) (h' : q.Reached r) : p.Reached r := by
  obtain ⟨cs, rfl⟩ := h
  obtain ⟨cs', rfl⟩ := h'
  exact ⟨cs ++ cs', by rw [calls, calls, calls, List.foldl_append]⟩

end Project

open Project

/-- The calls of the project that a call of the store comes to. Two change only what is kept
beside the project. -/
def MemCall.toCalls (inTx : Bool) : MemCall → List StoreCall
  | putRecord _ idemKey rec => [.op (.putRecord idemKey rec)]
  | nextDisplaySeq _ _ => []
  | putCheckpoint _ cp => [.putCheckpoint cp]
  | allocateBrokerSeq _ grantId _ => [.op (.allocateBrokerSeq grantId)]
  | releaseBrokerSeq _ grantId => [.op (.releaseBrokerSeq grantId)]
  | voidBrokerSeq _ grantId seq => [.op (.voidBrokerSeq grantId seq)]
  | putAnchor _ _ _ => []
  | putPendingGrant _ idemKey row => [.putPendingGrant idemKey row]
  | deletePendingGrant _ idemKey => [.deletePendingGrant idemKey]
  | putRecoveryFence f => [.op (.putRecoveryFence inTx f)]
  | putRecoveryResult r => [.op (.putRecoveryResult inTx r)]
  | putRevocationEvent ev => [.putRevocationEvent ev]
  | allocateAuthorizationOrder _ => [.allocateAuthorizationOrder]
  | putAuthorizationReceipt _ r => [.putAuthorizationReceipt r]

/-- What was made of an answer that did not fail. -/
theorem after_ok {α : Type} {x : Except StoreError (α × Project)} {a : α} {p q : Project}
    (h : x = .ok (a, q)) : p.after x = q := by
  rw [h]
  rfl

/-- A call that succeeds leaves the project its calls lead to. -/
theorem MemCall.calls_of_apply {op : MemCall} {inTx : Bool} {p q : StoredProject} {r : CallReply}
    (h : op.apply inTx p = .ok (r, q)) :
    q.toProject = p.toProject.calls (op.toCalls inTx) := by
  cases op with
  | putRecord | allocateBrokerSeq | putRecoveryFence | putRecoveryResult | putRevocationEvent =>
    simp only [MemCall.apply, bind_eq_ok_iff] at h
    obtain ⟨⟨⟨stored, created⟩, q'⟩, hput, h⟩ := h
    obtain ⟨-, rfl⟩ := Prod.mk.inj (Except.ok.inj h)
    exact (after_ok hput).symm
  | voidBrokerSeq | putAuthorizationReceipt =>
    simp only [MemCall.apply, bind_eq_ok_iff] at h
    obtain ⟨q', hput, h⟩ := h
    obtain ⟨-, rfl⟩ := Prod.mk.inj (Except.ok.inj h)
    exact (after_ok (by rw [hput]; rfl)).symm
  | putAnchor =>
    simp only [MemCall.apply, Except.ok.injEq, Prod.mk.injEq] at h
    rw [← h.2]
    split_ifs <;> rfl
  | nextDisplaySeq | putCheckpoint | releaseBrokerSeq | putPendingGrant | deletePendingGrant
  | allocateAuthorizationOrder =>
    obtain ⟨-, rfl⟩ := Prod.mk.inj (Except.ok.inj h)
    rfl

/-- How far a goroutine that only reads can be. -/
def TaskStage.reading : TaskStage → Bool
  | waiting | running | finished _ => true
  | _ => false

/-- What has a copy has the token, if it takes one. -/
theorem TaskControl.holds_of_live {c : TaskControl} (hlocks : c.kind.locks = true)
    (hlive : c.stage.live = true) : c.holds = true := by
  rw [TaskControl.holds, hlocks, Bool.true_and]
  cases hs : c.stage <;> rw [hs] at hlive <;> first | rfl | cases hlive

/-- A move keeps what the goroutine does, takes the token only where it is free, and leaves one
that only reads a reader. -/
theorem TaskControl.of_move {c c' : TaskControl} {free : Bool} {m : TaskMove}
    (h : c.move free m = some c') :
    c'.kind = c.kind ∧ (c'.holds = true → c.holds = true ∨ free = true) ∧
      (c.kind.locks = false → c.stage.reading = true → c'.stage.reading = true) := by
  obtain ⟨kind, cancelled, stage, claimed⟩ := c
  cases m with
  | cancel => cases kind <;> cases h <;> exact ⟨rfl, Or.inl, fun _ hr => hr⟩
  | acquire =>
    simp only [TaskControl.move] at h
    split_ifs at h with hc
    cases h
    refine ⟨rfl, fun _ => Or.inr hc.2.2, fun hl => ?_⟩
    rw [hc.1] at hl
    cases hl
  | giveUp =>
    simp only [TaskControl.move] at h
    split_ifs at h with hc
    cases h
    refine ⟨rfl, fun hh => ?_, fun _ _ => rfl⟩
    cases kind <;> cases hh
  | refuse =>
    simp only [TaskControl.move] at h
    split_ifs at h with hc
    cases h
    obtain rfl : stage = .locked := hc.2
    exact ⟨rfl, Or.inl, fun _ hr => by cases hr⟩
  | ret ok =>
    by_cases hs : stage = .running
    · subst hs
      cases kind with
      | read project =>
        cases h
        exact ⟨rfl, fun hh => (by cases hh), fun _ _ => rfl⟩
      | write project | direct op =>
        cases h
        exact ⟨rfl, fun _ => Or.inl rfl, fun hl => (by cases hl)⟩
    · rw [TaskControl.move, if_neg hs] at h
      cases h
  | commitPoint =>
    by_cases hs : stage = .returned
    · subst hs
      cases h
      refine ⟨rfl, fun hh => Or.inl ?_, fun _ hr => by cases hr⟩
      cases kind <;> first | rfl | cases hh
    · rw [TaskControl.move, if_neg hs] at h
      cases h
  | unlock =>
    cases stage <;> cases h
    exact ⟨rfl, fun hh => (by cases kind <;> cases hh), fun _ hr => by cases hr⟩

namespace SharedMem

/-- A goroutine that only reads never commits, and the copy of one that writes is the published
project after its own calls. -/
structure Fits (v : ValueMem) (a : Task StoredProject) : Prop where
  reader : a.kind.locks = false → a.stage.reading = true
  writer : a.kind.locks = true → a.stage.live = true → ∀ p, a.handle = some p →
    (v.published valueObjects a.project).toProject.Reached p.toProject

/-- One goroutine has the token of a project, and all of them fit what is published. -/
structure Serial (v : ValueMem) : Prop where
  holder : ∀ t t' a b, v.tasks.lookup t = some a → v.tasks.lookup t' = some b →
    a.holds = true → b.holds = true → a.project = b.project → t = t'
  fits : ∀ t a, v.tasks.lookup t = some a → Fits v a

/-- Before anything happens. -/
theorem serial_new : Serial { mem := () } where
  holder t t' a b ha := by cases ha
  fits t a ha := by cases ha

section Steps

variable {v v' : ValueMem} {t : Nat}

/-- A goroutine goes on. It has the token if it had it, or if nobody has; and only what it has the
token of is published. -/
theorem Serial.update {b : Task StoredProject} (h : Serial v)
    (htasks : v'.tasks = v.tasks.insert t b)
    (hholds : b.holds = true → v.locked b.project = false ∨
      ∃ a, v.tasks.lookup t = some a ∧ a.holds = true ∧ a.project = b.project)
    (hfits : Fits v' b)
    (hpublished : ∀ project, v'.published valueObjects project = v.published valueObjects project ∨
      ∃ a, v.tasks.lookup t = some a ∧ a.holds = true ∧ a.project = project) : Serial v' := by
  -- whoever else has the token of the project is the goroutine itself
  have hself : b.holds = true → ∀ t' c, v.tasks.lookup t' = some c → c.holds = true →
      b.project = c.project → t = t' := by
    intro hb t' c hc hcholds hproject
    rcases hholds hb with hfree | ⟨a, ha, haholds, haproject⟩
    · have hlocked := locked_eq_true.mpr ⟨t', c, hc, hproject.symm, hcholds⟩
      rw [hfree] at hlocked
      cases hlocked
    · exact h.holder t t' a c ha hc haholds hcholds (haproject.trans hproject)
  constructor
  · intro t₁ t₂ a₁ a₂ h₁ h₂ hh₁ hh₂ hproject
    rw [htasks, Table.lookup_insert_eq] at h₁ h₂
    split_ifs at h₁ h₂ with e₁ e₂ e₂
    · rw [e₁, e₂]
    · obtain rfl := Option.some.inj h₁
      rw [e₁]
      exact hself hh₁ t₂ a₂ h₂ hh₂ hproject
    · obtain rfl := Option.some.inj h₂
      rw [e₂]
      exact (hself hh₂ t₁ a₁ h₁ hh₁ hproject.symm).symm
    · exact h.holder t₁ t₂ a₁ a₂ h₁ h₂ hh₁ hh₂ hproject
  · intro t' c hc
    rw [htasks, Table.lookup_insert_eq] at hc
    split_ifs at hc with e
    · obtain rfl := Option.some.inj hc
      exact hfits
    · have hfit := h.fits t' c hc
      refine ⟨hfit.reader, fun hlocks hlive p hp => ?_⟩
      rcases hpublished c.project with heq | ⟨a, ha, haholds, haproject⟩
      · rw [heq]
        exact hfit.writer hlocks hlive p hp
      · exact absurd (h.holder t t' a c ha hc haholds
          (TaskControl.holds_of_live hlocks hlive) haproject).symm e

/-- What is published does not change when an object is made. -/
theorem published_proj (v : ValueMem) (project other : String) :
    (v.proj valueObjects project).2.published valueObjects other =
      v.published valueObjects other := by
  unfold proj
  cases hp : v.projects.lookup project with
  | some o => rfl
  | none =>
    simp only [published, Table.lookup_insert_eq]
    by_cases he : other = project
    · rw [if_pos he, he, hp]
      rfl
    · rw [if_neg he]

/-- The object of a project is what is published of it. -/
theorem proj_fst (v : ValueMem) (project : String) :
    (v.proj valueObjects project).1 = v.published valueObjects project := by
  unfold proj published
  cases v.projects.lookup project <;> rfl

/-- Making an object moves no goroutine. -/
theorem proj_tasks (v : ValueMem) (project : String) :
    (v.proj valueObjects project).2.tasks = v.tasks := by
  unfold proj
  cases v.projects.lookup project <;> rfl

/-- A step leads to goroutines that are serial, and every project goes on by calls. -/
structure Onward (v v' : ValueMem) : Prop where
  serial : Serial v'
  reached : ∀ project, (v.published valueObjects project).toProject.Reached
    (v'.published valueObjects project).toProject

/-- Nothing happens. -/
theorem Serial.stay (h : Serial v) : Onward v v := ⟨h, fun _ => Reached.refl _⟩

/-- A goroutine goes on and publishes nothing. -/
theorem Serial.quiet {b : Task StoredProject} (h : Serial v)
    (htasks : v'.tasks = v.tasks.insert t b)
    (hpublished : ∀ project, v'.published valueObjects project = v.published valueObjects project)
    (hholds : b.holds = true → v.locked b.project = false ∨
      ∃ a, v.tasks.lookup t = some a ∧ a.holds = true ∧ a.project = b.project)
    (hfits : Fits v b) : Onward v v' where
  serial := by
    refine h.update htasks hholds ⟨hfits.reader, ?_⟩ fun project => Or.inl (hpublished project)
    rw [hpublished]
    exact hfits.writer
  reached project := by
    rw [hpublished]
    exact Reached.refl _

/-- Claims are not published. -/
theorem Serial.withClaims (h : Serial v) (claims : Table LedgerKey ClaimOwner) :
    Onward v { v with claims := claims } where
  serial := ⟨h.holder, fun t a ha => ⟨(h.fits t a ha).reader, (h.fits t a ha).writer⟩⟩
  reached _ := Reached.refl _

variable {a : Task StoredProject}

/-- A goroutine moves by itself. -/
theorem Serial.move (h : Serial v) (ha : v.tasks.lookup t = some a) {m : TaskMove}
    {c : TaskControl} (hmove : a.move (!v.locked a.project) m = some c) :
    Onward v (v.put t { a with toTaskControl := c }) := by
  obtain ⟨hkind, hholds, hreads⟩ := TaskControl.of_move hmove
  have hproject : c.project = a.project := by rw [TaskControl.project, TaskControl.project, hkind]
  refine h.quiet rfl (fun _ => rfl) (fun hh => ?_) ⟨fun hl => ?_, fun hl hlive p hp => ?_⟩
  · rcases hholds hh with hold | hfree
    · exact Or.inr ⟨a, ha, hold, hproject.symm⟩
    · refine Or.inl ?_
      change v.locked c.project = false
      rw [hproject]
      simpa using hfree
  · change c.kind.locks = false at hl
    rw [hkind] at hl
    exact hreads hl ((h.fits t a ha).reader hl)
  · change c.kind.locks = true at hl
    rw [hkind] at hl
    change (v.published valueObjects c.project).toProject.Reached p.toProject
    rw [hproject]
    exact (h.fits t a ha).writer hl (TaskControl.live_of_move hmove hlive) p hp

/-- The copy for a handle is what is published. -/
theorem Serial.takeSnapshot (h : Serial v) (ha : v.tasks.lookup t = some a)
    (hready : a.ready = true) : Onward v (v.takeSnapshot valueObjects t a) := by
  refine h.quiet (t := t) (b := { a with
      stage := .running, handle := some (v.proj valueObjects a.project).1 })
    ?_ (fun project => published_proj v a.project project) (fun hh => ?_)
    ⟨fun _ => rfl, fun _ _ p hp => ?_⟩
  · change (v.proj valueObjects a.project).2.tasks.insert t _ = _
    rw [proj_tasks]
    rfl
  · refine Or.inr ⟨a, ha, ?_, rfl⟩
    unfold TaskControl.ready at hready
    unfold TaskControl.holds
    cases hk : a.kind with
    | write project =>
      rw [hk] at hready
      simp only [Bool.and_eq_true, decide_eq_true_eq] at hready
      rw [hready.2]
      rfl
    | read project =>
      unfold TaskControl.holds at hh
      dsimp only at hh
      rw [hk] at hh
      cases hh
    | direct op =>
      rw [hk] at hready
      cases hready
  · obtain rfl := Option.some.inj hp
    rw [proj_fst]
    exact Reached.refl _

/-- A call through a handle changes the copy. -/
theorem Serial.callHandle (h : Serial v) (ha : v.tasks.lookup t = some a) {p : StoredProject}
    (hp : a.handle = some p) (op : MemCall) :
    Onward v (v.callHandle valueObjects t a p op).1 := by
  unfold SharedMem.callHandle
  cases op.early true with
  | some e => exact h.stay
  | none =>
    cases a.mutation op.project with
    | some e => exact h.stay
    | none =>
      dsimp only
      cases happly : op.apply true (valueObjects.load v.mem p) with
      | error e => exact h.stay
      | ok r =>
        obtain ⟨reply, q⟩ := r
        have hfit := h.fits t a ha
        refine h.quiet (t := t) (b := { a with handle := some q }) rfl (fun _ => rfl)
          (fun hh => Or.inr ⟨a, ha, hh, rfl⟩) ⟨hfit.reader, fun hl hlive p' hp' => ?_⟩
        obtain rfl := Option.some.inj hp'
        exact (hfit.writer hl hlive p hp).trans ⟨_, MemCall.calls_of_apply happly⟩

/-- A commit publishes the copy. -/
theorem Serial.publish (h : Serial v) (ha : v.tasks.lookup t = some a)
    (hstage : a.stage = .committing) {p : StoredProject} (hp : a.handle = some p) :
    Onward v ({ v with projects := v.projects.insert a.project p }.put t
      { a with stage := .ended true }) := by
  have hfit := h.fits t a ha
  have hlive : a.stage.live = true := by rw [hstage]; rfl
  have hlocks : a.kind.locks = true := by
    rw [← Bool.not_eq_false]
    intro hl
    have hreads := hfit.reader hl
    rw [hstage] at hreads
    cases hreads
  have hholds := TaskControl.holds_of_live hlocks hlive
  have hpublished (project : String) :
      published valueObjects ({ v with projects := v.projects.insert a.project p }.put t
        { a with stage := .ended true }) project =
      if project = a.project then p else v.published valueObjects project := by
    simp only [published, put, Table.lookup_insert_eq]
    split_ifs <;> rfl
  constructor
  · refine h.update rfl (fun _ => Or.inr ⟨a, ha, hholds, rfl⟩)
      ⟨fun hl => ?_, fun _ hl => by cases hl⟩ fun project => ?_
    · change a.kind.locks = false at hl
      rw [hlocks] at hl
      cases hl
    · rw [hpublished]
      split_ifs with he
      · exact Or.inr ⟨a, ha, hholds, he.symm⟩
      · exact Or.inl rfl
  · intro project
    rw [hpublished]
    split_ifs with he
    · rw [he]
      exact hfit.writer hlocks hlive p hp
    · exact Reached.refl _

/-- A call on the store itself is made on what is published. -/
theorem Serial.performDirect (h : Serial v) (ha : v.tasks.lookup t = some a) {op : MemCall}
    (hkind : a.kind = .direct op) (hstage : a.stage = .locked) :
    Onward v (v.performDirect valueObjects t a op).1 := by
  have hproject : a.project = op.project := by
    rw [TaskControl.project, hkind]
    rfl
  have hholds : a.holds = true := by
    rw [TaskControl.holds, hkind, hstage]
    rfl
  have hfits (u : ValueMem) : Fits u { a with stage := .settled true } := by
    refine ⟨fun hl => ?_, fun _ hl => by cases hl⟩
    change a.kind.locks = false at hl
    rw [hkind] at hl
    cases hl
  unfold SharedMem.performDirect
  dsimp only
  cases happly : op.apply false (valueObjects.load (v.proj valueObjects op.project).2.mem
      (v.proj valueObjects op.project).1) with
  | error e =>
    refine h.quiet (t := t) (b := { a with stage := .settled true }) ?_
      (fun project => published_proj v op.project project)
      (fun _ => Or.inr ⟨a, ha, hholds, rfl⟩) (hfits v)
    change (v.proj valueObjects op.project).2.tasks.insert t _ = _
    rw [proj_tasks]
  | ok r =>
    obtain ⟨reply, q⟩ := r
    have hpublished (project : String) :
        published valueObjects ({ (v.proj valueObjects op.project).2 with
          mem := ()
          projects := (v.proj valueObjects op.project).2.projects.insert op.project q }.put t
            { a with stage := .settled true }) project =
        if project = op.project then q else v.published valueObjects project := by
      rw [← published_proj v op.project project]
      simp only [published, put, Table.lookup_insert_eq]
      split_ifs <;> rfl
    constructor
    · refine h.update (t := t) (b := { a with stage := .settled true }) ?_
        (fun _ => Or.inr ⟨a, ha, hholds, rfl⟩) (hfits _) fun project => ?_
      · change (v.proj valueObjects op.project).2.tasks.insert t _ = _
        rw [proj_tasks]
      · refine (hpublished project).symm ▸ ?_
        split_ifs with he
        · exact Or.inr ⟨a, ha, hholds, hproject.trans he.symm⟩
        · exact Or.inl rfl
    · intro project
      refine (hpublished project).symm ▸ ?_
      split_ifs with he
      · rw [he, ← proj_fst]
        exact ⟨_, MemCall.calls_of_apply happly⟩
      · exact Reached.refl _

/-- A project that is looked at is made if there is none. -/
theorem Serial.peek (h : Serial v) (project : String) :
    Onward v (v.proj valueObjects project).2 where
  serial := by
    refine ⟨fun t t' a b ha hb => ?_, fun t a ha => ?_⟩
    · rw [proj_tasks] at ha hb
      exact h.holder t t' a b ha hb
    · rw [proj_tasks] at ha
      refine ⟨(h.fits t a ha).reader, ?_⟩
      rw [published_proj]
      exact (h.fits t a ha).writer
  reached other := by
    rw [published_proj]
    exact Reached.refl _

/-- A goroutine starts without a token and without a copy. -/
theorem Serial.start {r : TaskReply} {kind : TaskKind} (h : Serial v)
    (hstep : v.step valueObjects (.start t kind) = some (v', r)) : Onward v v' := by
  simp only [SharedMem.step] at hstep
  split_ifs at hstep
  cases he : kind.early with
  | some e =>
    rw [he] at hstep
    obtain ⟨rfl, -⟩ := Prod.mk.inj (Option.some.inj hstep)
    refine h.quiet rfl (fun _ => rfl) (fun hh => ?_) ⟨fun _ => rfl, fun _ hl => by cases hl⟩
    cases kind <;> cases hh
  | none =>
    rw [he] at hstep
    obtain ⟨rfl, -⟩ := Prod.mk.inj (Option.some.inj hstep)
    refine h.quiet rfl (fun _ => rfl) (fun hh => ?_) ⟨fun _ => rfl, fun _ hl => by cases hl⟩
    cases kind <;> cases hh

/-- A claim is made in the name of the goroutine. -/
theorem Serial.consume {r : TaskReply} {c : LedgerClaim} (h : Serial v)
    (hstep : v.step valueObjects (.consume t c) = some (v', r)) : Onward v v' := by
  obtain ⟨a, ha, hstep⟩ := Option.bind_eq_some_iff.mp hstep
  obtain ⟨p, hp, heq⟩ := Option.map_eq_some_iff.mp hstep
  have hfit := h.fits t a ha
  unfold SharedMem.consumeHandle at heq
  split_ifs at heq
  · obtain ⟨rfl, -⟩ := Prod.mk.inj heq
    exact h.stay
  · obtain ⟨rfl, -⟩ := Prod.mk.inj heq
    exact h.stay
  · obtain ⟨rfl, -⟩ := Prod.mk.inj heq
    exact h.quiet (b := { a with claimed := a.claimed ++ [c.key] }) rfl (fun _ => rfl)
      (fun hh => Or.inr ⟨a, ha, hh, rfl⟩) ⟨hfit.reader, hfit.writer⟩

/-- What ended is settled, and keeps its token if it had it. -/
theorem Serial.settle {r : TaskReply} (h : Serial v)
    (hstep : v.step valueObjects (.settle t) = some (v', r)) : Onward v v' := by
  obtain ⟨a, ha, hstep⟩ := Option.bind_eq_some_iff.mp hstep
  have hfit := h.fits t a ha
  cases hstage : a.stage with
  | ended committed =>
    rw [hstage] at hstep
    obtain ⟨rfl, -⟩ := Prod.mk.inj (Option.some.inj hstep)
    refine h.quiet (b := { a with stage := .settled committed }) rfl (fun _ => rfl)
      (fun hh => Or.inr ⟨a, ha, ?_, rfl⟩) ⟨fun hl => ?_, fun _ hl => by cases hl⟩
    · rw [TaskControl.holds, hstage]
      exact hh
    · have hreads := hfit.reader hl
      rw [hstage] at hreads
      cases hreads
  | waiting | locked | running | returned | committing | settled _ | finished _ =>
    rw [hstage] at hstep
    cases hstep

/-- One step of any goroutine. -/
theorem Serial.step {r : TaskReply} {act : TaskAction} (h : Serial v)
    (hstep : v.step valueObjects act = some (v', r)) : Onward v v' := by
  cases act with
  | start t kind => exact h.start hstep
  | move t m =>
    obtain ⟨a, ha, hstep⟩ := Option.bind_eq_some_iff.mp hstep
    obtain ⟨c, hmove, heq⟩ := Option.map_eq_some_iff.mp hstep
    obtain ⟨rfl, -⟩ := Prod.mk.inj heq
    exact h.move ha hmove
  | snapshot t =>
    obtain ⟨a, ha, hstep⟩ := Option.bind_eq_some_iff.mp hstep
    split_ifs at hstep with hready
    obtain ⟨rfl, -⟩ := Prod.mk.inj (Option.some.inj hstep)
    exact h.takeSnapshot ha hready
  | call t op =>
    obtain ⟨a, ha, hstep⟩ := Option.bind_eq_some_iff.mp hstep
    obtain ⟨p, hp, heq⟩ := Option.map_eq_some_iff.mp hstep
    have honward := h.callHandle ha hp op
    rw [heq] at honward
    exact honward
  | look t project =>
    obtain ⟨a, ha, hstep⟩ := Option.bind_eq_some_iff.mp hstep
    obtain ⟨p, hp, heq⟩ := Option.map_eq_some_iff.mp hstep
    obtain ⟨rfl, -⟩ := Prod.mk.inj heq
    exact h.stay
  | consume t c => exact h.consume hstep
  | release t c =>
    obtain ⟨a, ha, hstep⟩ := Option.bind_eq_some_iff.mp hstep
    obtain ⟨p, hp, heq⟩ := Option.map_eq_some_iff.mp hstep
    obtain ⟨rfl, -⟩ := Prod.mk.inj heq
    unfold SharedMem.releaseHandle
    split_ifs
    · exact h.withClaims _
    · exact h.stay
  | publish t =>
    obtain ⟨a, ha, hstep⟩ := Option.bind_eq_some_iff.mp hstep
    split_ifs at hstep with hstage
    obtain ⟨p, hp, heq⟩ := Option.map_eq_some_iff.mp hstep
    obtain ⟨rfl, -⟩ := Prod.mk.inj heq
    exact h.publish ha hstage hp
  | settle t => exact h.settle hstep
  | perform t =>
    obtain ⟨a, ha, hstep⟩ := Option.bind_eq_some_iff.mp hstep
    cases hkind : a.kind with
    | write project | read project =>
      rw [hkind] at hstep
      cases hstep
    | direct op =>
      rw [hkind] at hstep
      dsimp only at hstep
      split_ifs at hstep with hstage
      have honward := h.performDirect ha hkind hstage
      rw [Option.some.inj hstep] at honward
      exact honward
  | peek project =>
    obtain ⟨rfl, -⟩ := Prod.mk.inj (Option.some.inj hstep)
    exact h.peek project

/-- A run of any goroutines. -/
theorem Serial.run (h : Serial v) {acts : List TaskAction}
    (hrun : v.run valueObjects acts = some v') : Onward v v' := by
  induction acts generalizing v with
  | nil =>
    obtain rfl := Option.some.inj hrun
    exact h.stay
  | cons act acts ih =>
    obtain ⟨⟨v₁, r⟩, hstep, hrun⟩ := Option.bind_eq_some_iff.mp hrun
    have hfirst := h.step hstep
    have hrest := ih hfirst.serial hrun
    exact ⟨hrest.serial, fun project => (hfirst.reached project).trans (hrest.reached project)⟩

end Steps

/-- Both stores publish the same. -/
theorem Sim.published_eq {s : HeapMem} {v : ValueMem} (h : Sim s v) (project : String) :
    s.published heapObjects project = v.published valueObjects project := by
  have hvalue := h.values (.published project)
  simp only [owns] at hvalue
  unfold published
  rw [← hvalue]
  cases s.projects.lookup project <;> rfl

section Runs

variable {s s' : HeapMem} {before later : List TaskAction}

/-- Whatever goroutines did to the store as the code holds it, a project is the outcome of calls
made one after another, and it goes on by such calls. -/
theorem published_reached (h : newMem.run heapObjects before = some s)
    (h' : s.run heapObjects later = some s') (project : String) :
    Project.Reached {} (s.published heapObjects project).toProject ∧
      (s.published heapObjects project).toProject.Reached
        (s'.published heapObjects project).toProject := by
  have hfirst := sim_new.run before
  rw [h] at hfirst
  obtain ⟨v, hv, hsim⟩ : ∃ v, SharedMem.run valueObjects { mem := () } before = some v ∧
      Sim s v := by
    generalize SharedMem.run valueObjects { mem := () } before = x at hfirst
    cases hfirst with
    | some hsim => exact ⟨_, rfl, hsim⟩
  have hsecond := hsim.run later
  rw [h'] at hsecond
  obtain ⟨v', hv', hsim'⟩ : ∃ v', v.run valueObjects later = some v' ∧ Sim s' v' := by
    generalize v.run valueObjects later = x at hsecond
    cases hsecond with
    | some hsim' => exact ⟨_, rfl, hsim'⟩
  have honward := serial_new.run hv
  rw [hsim.published_eq, hsim'.published_eq]
  exact ⟨honward.reached project, (honward.serial.run hv').reached project⟩

/-- The rows of a project are sound at any time of any run of goroutines. -/
theorem rows_of_goroutines (h : newMem.run heapObjects before = some s)
    (h' : s.run heapObjects later = some s') (project : String) :
    RowsSound (s.published heapObjects project).toProject
      (s'.published heapObjects project).toProject := by
  obtain ⟨⟨cs, hcs⟩, ⟨cs', hcs'⟩⟩ := published_reached h h' project
  rw [hcs', hcs]
  exact (rowInv_empty.calls cs).1.rowsSound cs'

end Runs

end SharedMem

end Averin
