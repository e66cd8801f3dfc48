import Averin.Server.RecoverySafety
import Averin.Store.Records

/-!
# Runs of issuance and recovery

The transactions of a project that issue grants, reserve and release numbers, and recover
them. A recovery request is in flight between its two transactions; a step may take up any of
them, or none of them ever again.
-/

namespace Averin

/-- The issuing of one grant. The number goes into the signed record, which is built for it and
carries the grant. -/
structure Issuance where
  idemKey : String
  grantId : String
  build : Project → Int → Option Record
  named : grantId ≠ ""
  build_grant : ∀ p seq rec, build p seq = some rec →
    recordIDOf rec.json = grantId ∧ grantSeqOf rec.json = some seq

/-- Why a grant is not issued. -/
inductive IssueError where
  | store (e : StoreError)
  | build
  | collapsed
  deriving DecidableEq, Repr

/-- The transaction that issues a grant. A retry finds the record of the first attempt. -/
def issueGrant (p : Project) (i : Issuance) : Except IssueError Project :=
  match p.recordByIdem i.idemKey with
  | some _ => .ok p
  | none =>
    match p.allocateBrokerSeq i.grantId with
    | .error e => .error (.store e)
    | .ok ((seq, _), p₁) =>
      match i.build p₁ seq with
      | none => .error .build
      | some rec =>
        match p₁.putRecord i.idemKey rec with
        | .error e => .error (.store e)
        | .ok ((_, created), p₂) => if created then .ok p₂ else .error .collapsed

/-- A project with the recovery requests that are between their transactions, and the answers
of those whose second transaction committed. -/
structure RecoverySys where
  p : Project := {}
  fenced : List Fenced := []
  answered : List (VoidRequest × RecoveryResult) := []

section Runs

variable (project : String) (digest : VoidRequest → String → String) (revocation : Bool)
  (sealVoid : Project → VoidRequest → String → Option Record)

/-- One committed transaction, or one write of it. What fails or is lost takes no step, and a
request that is tried again is another one. Besides issuing and recovering, a number may be
reserved and released on its own, a tombstone may stem from before there were fences, any record
that fills no number may be written, and so may whatever recoveries do not read. -/
inductive RecoveryStep (s : RecoverySys) : RecoverySys → Prop
  | issue (i : Issuance) (p' : Project) (h : issueGrant s.p i = .ok p') :
      RecoveryStep s { s with p := p' }
  | reserve (g : String) (answer : Int × Bool) (p' : Project) (hg : g ≠ "")
      (h : s.p.allocateBrokerSeq g = .ok (answer, p')) : RecoveryStep s { s with p := p' }
  | release (g : String) : RecoveryStep s { s with p := s.p.releaseBrokerSeq g }
  | legacyVoid (g : String) (seq : Int) (rec : Record) (answer : Record × Bool) (p' : Project)
      (hget : s.p.brokerSeq.lookup g = some seq) (hid : recordIDOf rec.json = g)
      (hseq : grantSeqOf rec.json = some seq)
      (h : s.p.putRecord (voidIdem seq) rec = .ok (answer, p')) : RecoveryStep s { s with p := p' }
  | record (idem : String) (rec : Record) (answer : Record × Bool) (p' : Project)
      (hfree : grantSeqOf rec.json = none) (h : s.p.putRecord idem rec = .ok (answer, p')) :
      RecoveryStep s { s with p := p' }
  | call (c : StoreCall) (hc : ∀ o, c ≠ .op o) : RecoveryStep s { s with p := s.p.call c }
  | fence (v : VoidRequest) (f : Fenced) (p' : Project) (hproject : v.projectId = project)
      (h : recoverFence digest s.p v = .ok (f, p')) :
      RecoveryStep s { s with p := p', fenced := f :: s.fenced }
  | reconcile (f : Fenced) (r : RecoveryResult) (p' : Project) (hmem : f ∈ s.fenced)
      (h : recoverReconcile revocation sealVoid s.p f = .ok (r, p')) :
      RecoveryStep s { s with p := p', answered := (f.request, r) :: s.answered }

variable {project digest revocation sealVoid}

open Project Relation

/-- A change that allocates and writes nothing. -/
theorem evolves_of_change {p p' : Project} {op : StoreOp} (hc : p.Change op p')
    (hop : ∀ g, op ≠ .allocateBrokerSeq g) (hop' : ∀ idem rec, op ≠ .putRecord idem rec) :
    p.Evolves p' :=
  .call op p' hc (fun g h => absurd h (hop g)) fun idem rec h => absurd h (hop' idem rec)

/-- Allocating for a named grant is a change. -/
theorem evolves_allocate {p p' : Project} {g : String} {answer : Int × Bool} (hg : g ≠ "")
    (h : p.allocateBrokerSeq g = .ok (answer, p')) : p.Evolves p' := by
  have hc := p.apply_change (.allocateBrokerSeq g)
  rw [apply, h] at hc
  refine .call _ _ hc ?_ (by intro idem rec heq; cases heq)
  intro g' heq
  injection heq with heq
  exact heq ▸ hg

theorem evolves_put {p p' : Project} {idem : String} {rec : Record} {answer : Record × Bool}
    (h : p.putRecord idem rec = .ok (answer, p'))
    (hcarry : ∀ n, grantSeqOf rec.json = some n →
      recordIDOf rec.json ≠ "" ∧ p.brokerSeq.lookup (recordIDOf rec.json) = some n) :
    p.Evolves p' := by
  have hc := p.apply_change (.putRecord idem rec)
  rw [apply, h] at hc
  refine .call _ _ hc (by intro g heq; cases heq) ?_
  intro idem' rec' heq
  injection heq with _ heq
  exact heq ▸ hcarry

/-- A revocation changes nothing recoveries read. -/
theorem outside_putRevocationEvent {p p' : Project} {ev : RevocationEvent}
    {answer : RevocationEvent × Bool} (h : p.putRevocationEvent ev = .ok (answer, p')) :
    p.Outside p' := by
  unfold putRevocationEvent at h
  dsimp only at h
  split at h
  · cases h
  · split at h
    · obtain ⟨-, rfl⟩ := by simpa using h
      exact ⟨_, _, _, _, _, _, rfl⟩
    · split at h
      · obtain ⟨-, rfl⟩ := by simpa using h
        exact ⟨_, _, _, _, _, _, rfl⟩
      · split at h
        · cases h
        · obtain ⟨-, rfl⟩ := by simpa using h
          exact ⟨_, _, _, _, _, _, rfl⟩

/-- The calls that are no concern of the numbers leave what recoveries read. -/
theorem outside_call (p : Project) {c : StoreCall} (hc : ∀ o, c ≠ .op o) :
    p.Outside (p.call c) := by
  cases c with
  | op o => exact absurd rfl (hc o)
  | putRevocationEvent ev =>
    rw [call]
    cases h : p.putRevocationEvent ev with
    | error e => exact ⟨_, _, _, _, _, _, rfl⟩
    | ok a => exact outside_putRevocationEvent h
  | allocateAuthorizationOrder => exact ⟨_, _, _, _, _, _, rfl⟩
  | putAuthorizationReceipt r =>
    rw [call]
    cases h : p.putAuthorizationReceipt r with
    | error e => exact ⟨_, _, _, _, _, _, rfl⟩
    | ok p' =>
      obtain ⟨-, -, -, -, -, -, rfl⟩ := putAuthorizationReceipt_cases h
      exact ⟨_, _, _, _, _, _, rfl⟩
  | putPendingGrant idem row =>
    rw [call, putPendingGrant]
    split <;> exact ⟨_, _, _, _, _, _, rfl⟩
  | deletePendingGrant idem => exact ⟨_, _, _, _, _, _, rfl⟩
  | putCheckpoint cp => exact ⟨_, _, _, _, _, _, rfl⟩

/-- Issuing is allocating and writing a record. -/
theorem evolves_issueGrant {p p' : Project} {i : Issuance} (h : issueGrant p i = .ok p') :
    ReflTransGen Evolves p p' := by
  unfold issueGrant at h
  split at h
  · obtain rfl := Except.ok.inj h
    exact .refl
  · split at h
    · cases h
    · next seq fresh p₁ halloc =>
      split at h
      · cases h
      · next rec hbuild =>
        split at h
        · cases h
        · next r created p₂ hput =>
          split_ifs at h
          obtain rfl := Except.ok.inj h
          obtain ⟨hid, hseq⟩ := i.build_grant p₁ seq rec hbuild
          refine .tail (.single (evolves_allocate i.named halloc)) (evolves_put hput ?_)
          intro n hn
          rw [hid]
          refine ⟨i.named, ?_⟩
          rw [hseq, Option.some.injEq] at hn
          subst hn
          obtain ⟨-, -, ⟨hget, -, rfl⟩ | ⟨-, -, rfl, rfl⟩⟩ := allocateBrokerSeq_cases halloc
          · exact hget
          · exact AList.lookup_insert _

/-- Marking a number as void changes nothing else of concern. -/
theorem evolves_markVoid {p p' : Project} {f : Fenced} (h : markVoid revocation p f = .ok p') :
    ReflTransGen Evolves p p' := by
  unfold markVoid at h
  dsimp only at h
  split at h
  · cases h
  · next p₁ hvoid =>
    have hfirst : ReflTransGen Evolves p p₁ := by
      split_ifs at hvoid
      · obtain rfl := Except.ok.inj hvoid
        exact .refl
      · have hc := p.apply_change (.voidBrokerSeq f.grantId f.request.brokerSeq)
        rw [apply, hvoid] at hc
        exact .single (evolves_of_change hc (by intro g heq; cases heq)
          (by intro i r heq; cases heq))
    split_ifs at h
    · rcases hrev : p₁.putRevocationEvent ⟨f.request.projectId, f.grantId, revocationTotal, 0,
        "averin-recovery", "recovery_void"⟩ with e | ⟨answer, p₂⟩
      · rw [hrev] at h
        cases h
      · rw [hrev] at h
        obtain rfl := Except.ok.inj h
        exact hfirst.tail (.elsewhere _ (outside_putRevocationEvent hrev))
    · obtain rfl := Except.ok.inj h
      exact hfirst

/-- Changes keep the invariant and lead to later projects. -/
theorem evolves_star {p p' : Project} (h : p.RecordInv) (hs : ReflTransGen Evolves p p') :
    p'.RecordInv ∧ p.Later p' := by
  induction hs with
  | refl => exact ⟨h, .refl p⟩
  | tail _ hstep ih => exact ⟨ih.1.evolves hstep, ih.2.trans (ih.1.later hstep)⟩

/-- The first transaction leaves the fence it asked for. -/
theorem recoverFence_spec {p p' : Project} {v : VoidRequest} {f : Fenced}
    (h : recoverFence digest p v = .ok (f, p')) :
    p.Evolves p' ∧ f.request = v ∧ f.fence = wantedFence digest v f.grantId ∧
      p'.fences.lookup v.brokerSeq = some f.fence := by
  unfold recoverFence at h
  split at h
  · cases h
  · next grantId voided _ =>
    dsimp only at h
    split at h
    · cases h
    · split at h
      · cases h
      · next fence created p₁ hput =>
        obtain ⟨rfl, rfl⟩ := by simpa using h
        have hc := p.apply_change (.putRecoveryFence true (wantedFence digest v grantId))
        rw [apply, hput] at hc
        refine ⟨evolves_of_change hc (by intro g heq; cases heq) (by intro i r heq; cases heq), rfl,
          ?_⟩
        obtain ⟨-, rfl, rfl, hget⟩ | ⟨-, rfl, -, -, -, rfl⟩ := putRecoveryFence_cases hput
        · exact ⟨rfl, hget⟩
        · exact ⟨rfl, AList.lookup_insert _⟩

/-- An identifier finds a record that has it. -/
theorem recordByRecordID_spec {p : Project} {g : String} {r : Record}
    (h : p.recordByRecordID g = some r) : r ∈ p.records ∧ recordIDOf r.json = g :=
  ⟨List.mem_of_find?_eq_some h, by simpa using List.find?_some h⟩

/-- Putting the record or the tombstone in place keeps to the changes. Where a tombstone is
written, the fence lets in only one for its own number. -/
theorem evolves_recoverWinner {p p' : Project} {f : Fenced} {outcome : String} {winner : Record}
    (hinv : p.RecordInv) (hfence : p.fences.lookup f.request.brokerSeq = some f.fence)
    (hgrant : f.fence.grantId = f.grantId)
    (h : recoverWinner revocation sealVoid p f = .ok ((outcome, winner), p')) :
    ReflTransGen Evolves p p' := by
  unfold recoverWinner at h
  dsimp only at h
  split at h
  · split at h
    · split at h
      · cases h
      · next p₁ hmark =>
        obtain ⟨-, rfl⟩ := by simpa using h
        exact evolves_markVoid hmark
    · split at h
      · obtain ⟨-, rfl⟩ := by simpa using h
        exact .refl
      · cases h
  · split at h
    · cases h
    · split at h
      · cases h
      · next rec _ =>
        split at h
        · cases h
        · next stored created p₁ hput =>
          split at h
          · cases h
          · next winner' hwinner =>
            split at h
            · cases h
            · next hsame =>
              split at h
              · cases h
              · next p₂ hmark =>
                obtain ⟨-, rfl⟩ := by simpa using h
                refine .trans ?_ (evolves_markVoid hmark)
                rw [not_not] at hsame
                obtain ⟨-, rfl, -⟩ | ⟨-, rfl, hrec⟩ := putRecord_cases hput
                · exact .refl
                · obtain ⟨hpos, hseq, hne, hget⟩ := hinv.fence_pos hfence
                  have hid : recordIDOf stored.json = f.fence.grantId := by
                    rw [← hsame, (recordByRecordID_spec hwinner).2, hgrant]
                  have hinsert := hrec.free _ _ hfence (hid ▸ hne) hid.symm
                  refine .single (evolves_put hput ?_)
                  intro n hn
                  simp only [recoveryTombstoneInsert, Bool.and_eq_true] at hinsert
                  rw [grantSeqOf_of_winner (Or.inr rfl) hpos hinsert.1.1.2, Option.some.injEq,
                    hseq] at hn
                  rw [hid, ← hn]
                  exact ⟨hne, hget⟩

/-- The second transaction keeps to the changes and leaves the result it answers. -/
theorem recoverReconcile_spec {p p' : Project} {f : Fenced} {r : RecoveryResult}
    (hinv : p.RecordInv) (hfence : p.fences.lookup f.request.brokerSeq = some f.fence)
    (hgrant : f.fence.grantId = f.grantId)
    (h : recoverReconcile revocation sealVoid p f = .ok (r, p')) :
    ReflTransGen Evolves p p' ∧ p'.results.lookup f.request.brokerSeq = some r := by
  unfold recoverReconcile at h
  dsimp only at h
  split at h
  · cases h
  · split at h
    · cases h
    · split at h
      · next done hdone =>
        obtain ⟨rfl, rfl⟩ := by simpa using h
        exact ⟨.refl, hdone⟩
      · split at h
        · cases h
        · next outcome winner p₁ hwinner =>
          split at h
          · cases h
          · next result created p₂ hput =>
            obtain ⟨rfl, rfl⟩ := by simpa using h
            have hc := p₁.apply_change (.putRecoveryResult true
              ⟨f.request.projectId, outcome, winner.contentHash, f.request.brokerSeq, 1⟩)
            rw [apply, hput] at hc
            refine ⟨(evolves_recoverWinner hinv hfence hgrant hwinner).tail
              (evolves_of_change hc (by intro g heq; cases heq) (by intro i r heq; cases heq)), ?_⟩
            obtain ⟨_, -, -, -, -, ⟨-, rfl, hget, -⟩ | ⟨-, rfl, -, rfl⟩⟩ :=
              putRecoveryResult_cases hput
            · exact hget
            · exact AList.lookup_insert _

/-- What holds of every system on the way: requests in flight know the fence that stands, and
answers are the results that stand. -/
structure SysInv (digest : VoidRequest → String → String) (s : RecoverySys) : Prop where
  store : s.p.RecordInv
  fenced : ∀ f ∈ s.fenced, s.p.fences.lookup f.request.brokerSeq = some f.fence ∧
    f.fence = wantedFence digest f.request f.grantId
  answered : ∀ v r, (v, r) ∈ s.answered → s.p.results.lookup v.brokerSeq = some r ∧
    ∃ f ∈ s.fenced, f.request = v

theorem sysInv_empty : SysInv digest {} where
  store := recordInv_empty
  fenced f h := by cases h
  answered v r h := by cases h

/-- A later project keeps what is in flight. -/
theorem SysInv.of_later {s : RecoverySys} {p' : Project} (h : SysInv digest s)
    (hstar : ReflTransGen Evolves s.p p') : SysInv digest { s with p := p' } := by
  obtain ⟨hinv, hlater⟩ := evolves_star h.store hstar
  refine ⟨hinv, ?_, ?_⟩
  · intro f hf
    exact ⟨hlater.fences _ _ (h.fenced f hf).1, (h.fenced f hf).2⟩
  · intro v r hr
    exact ⟨hlater.results _ _ (h.answered v r hr).1, (h.answered v r hr).2⟩

/-- A step is made of changes. -/
theorem RecoveryStep.evolves {s s' : RecoverySys} (h : SysInv digest s)
    (hstep : RecoveryStep project digest revocation sealVoid s s') :
    ReflTransGen Evolves s.p s'.p := by
  cases hstep with
  | issue i p' hok => exact evolves_issueGrant hok
  | reserve g answer p' hg hok => exact .single (evolves_allocate hg hok)
  | release g =>
    exact .single (evolves_of_change (s.p.apply_change (.releaseBrokerSeq g))
      (by intro g heq; cases heq) (by intro i r heq; cases heq))
  | legacyVoid g seq rec answer p' hget hid hseq hok =>
    refine .single (evolves_put hok ?_)
    intro n hn
    rw [hseq, Option.some.injEq] at hn
    rw [hid, ← hn]
    exact ⟨h.store.named g seq hget, hget⟩
  | record idem rec answer p' hfree hok =>
    refine .single (evolves_put hok ?_)
    intro n hn
    rw [hfree] at hn
    cases hn
  | call c hc => exact .single (.elsewhere _ (outside_call s.p hc))
  | fence v f p' hproject hok => exact .single (recoverFence_spec hok).1
  | reconcile f r p' hmem hok =>
    obtain ⟨hfence, hwanted⟩ := h.fenced f hmem
    exact (recoverReconcile_spec h.store hfence (by rw [hwanted]; rfl) hok).1

theorem SysInv.step {s s' : RecoverySys} (h : SysInv digest s)
    (hstep : RecoveryStep project digest revocation sealVoid s s') : SysInv digest s' := by
  have hstar := hstep.evolves h
  cases hstep with
  | issue i p' hok => exact h.of_later hstar
  | reserve g answer p' hg hok => exact h.of_later hstar
  | release g => exact h.of_later hstar
  | legacyVoid g seq rec answer p' hget hid hseq hok => exact h.of_later hstar
  | record idem rec answer p' hfree hok => exact h.of_later hstar
  | call c hc => exact h.of_later hstar
  | fence v f p' hproject hok =>
    obtain ⟨hinv, hfenced, hanswered⟩ := h.of_later hstar
    obtain ⟨-, rfl, hwanted, hget⟩ := recoverFence_spec hok
    refine ⟨hinv, ?_, ?_⟩
    · intro f' hf'
      rcases List.mem_cons.mp hf' with rfl | hf'
      · exact ⟨hget, hwanted⟩
      · exact hfenced f' hf'
    · intro v r hr
      obtain ⟨hres, f', hf', heq⟩ := hanswered v r hr
      exact ⟨hres, f', List.mem_cons_of_mem _ hf', heq⟩
  | reconcile f r p' hmem hok =>
    obtain ⟨hinv, hfenced, hanswered⟩ := h.of_later hstar
    refine ⟨hinv, hfenced, ?_⟩
    intro v r' hr'
    rcases List.mem_cons.mp hr' with heq | hr'
    · obtain ⟨rfl, rfl⟩ := Prod.mk.inj heq
      obtain ⟨hfence, hwanted⟩ := h.fenced f hmem
      exact ⟨(recoverReconcile_spec h.store hfence (by rw [hwanted]; rfl) hok).2, f, hmem, rfl⟩
    · exact hanswered v r' hr'

theorem SysInv.run {s s' : RecoverySys} (h : SysInv digest s)
    (hrun : ReflTransGen (RecoveryStep project digest revocation sealVoid) s s') :
    SysInv digest s' ∧ s.p.Later s'.p := by
  induction hrun with
  | refl => exact ⟨h, .refl s.p⟩
  | tail _ hstep ih =>
    exact ⟨ih.1.step hstep, ih.2.trans (evolves_star ih.1.store (hstep.evolves ih.1)).2⟩

/-- A fence spells its request. -/
theorem request_eq_of_wantedFence {v v' : VoidRequest} {g g' : String}
    (h : wantedFence digest v g = wantedFence digest v' g') : v = v' := by
  cases v
  cases v'
  simp only [wantedFence, RecoveryFence.mk.injEq] at h
  simp only [VoidRequest.mk.injEq]
  tauto

/-- The record a result names is the one stored under the grant, and the outcome says what it
is. -/
theorem result_names_record {p : Project} (h : p.RecordInv) {n : Int} {r : RecoveryResult}
    (hr : p.results.lookup n = some r) :
    ∃ f rec, p.fences.lookup n = some f ∧ p.recordByRecordID f.grantId = some rec ∧
      r.winningRecordHash = rec.contentHash ∧
      (r.outcome = "recorded" ↔ recordIsLandedGrant rec.json n = true) ∧
      (r.outcome = "voided" ↔ IsTombstone rec.json f.projectId f.grantId n) := by
  obtain ⟨houtcome, f, hf, rec, hmem, hhash, hwin⟩ := h.result n r hr
  obtain ⟨hpos, rfl, hne, -⟩ := h.fence_pos hf
  have hid := recordIDOf_of_winner hwin
  -- No other record has the grant's identifier.
  have hfind : p.recordByRecordID f.grantId = some rec := by
    obtain ⟨rec', hrec'⟩ := Option.isSome_iff_exists.mp (List.find?_isSome.mpr
      (⟨rec, hmem, by simpa using hid⟩ :
        ∃ r ∈ p.records, decide (recordIDOf r.json = f.grantId) = true))
    obtain ⟨hmem', hid'⟩ := recordByRecordID_spec hrec'
    obtain ⟨i, hi⟩ := List.getElem?_of_mem hmem
    obtain ⟨j, hj⟩ := List.getElem?_of_mem hmem'
    have hij := h.ids i j rec rec' hi hj (hid ▸ hne) (hid.trans hid'.symm)
    rw [hij, hj] at hi
    rw [← Option.some.inj hi]
    exact hrec'
  refine ⟨f, rec, hf, hfind, hhash.symm, ?_⟩
  rcases houtcome with houtcome | houtcome
  · rw [houtcome] at hwin ⊢
    have hlanded := landed_of_winner hwin
    refine ⟨⟨fun _ => hlanded, fun _ => rfl⟩, ⟨fun hv => absurd hv (by decide), fun htomb => ?_⟩⟩
    rw [not_landed_of_bound htomb] at hlanded
    cases hlanded
  · rw [houtcome] at hwin ⊢
    obtain ⟨w, -, hbound⟩ := boundVoidRecord_of_winner hpos hwin
    have htomb : IsTombstone rec.json f.projectId f.grantId f.seq := ⟨_, _, hbound⟩
    refine ⟨⟨fun hr => absurd hr (by decide), fun hlanded => ?_⟩, ⟨fun _ => htomb, fun _ => rfl⟩⟩
    rw [not_landed_of_bound htomb] at hlanded
    cases hlanded

/-- Recoveries over every run. A number is carried by one record at most, which has the grant
that holds the number. A fence and a result never change, and what is written for a grant
once it is fenced is a tombstone of the fence's operation under the key of the number. A
result names the record stored under its grant and says whether it is the grant or a
tombstone. Requests that succeed agree with the fence, and so with each other. -/
theorem recovery_protocol_safe {s : RecoverySys}
    (hrun : ReflTransGen (RecoveryStep project digest revocation sealVoid) {} s) :
    (∀ (i j : Nat) (ri rj : Record) (n : Int), s.p.records[i]? = some ri →
      s.p.records[j]? = some rj → grantSeqOf ri.json = some n → grantSeqOf rj.json = some n →
        i = j ∧ s.p.brokerSeq.lookup (recordIDOf ri.json) = some n) ∧
    (∀ s', ReflTransGen (RecoveryStep project digest revocation sealVoid) s s' →
      (∀ n f, s.p.fences.lookup n = some f → s'.p.fences.lookup n = some f) ∧
      (∀ n r, s.p.results.lookup n = some r → s'.p.results.lookup n = some r) ∧
      ∀ (n : Int) (f : RecoveryFence) (i : Nat) (rec : Record), s.p.fences.lookup n = some f →
        s.p.records.length ≤ i → s'.p.records[i]? = some rec →
        recordIDOf rec.json = f.grantId →
          IsTombstoneOf rec.json f ∧ s'.p.idem.lookup (voidIdem n) = some i) ∧
    (∀ n r, s.p.results.lookup n = some r →
      ∃ f rec, s.p.fences.lookup n = some f ∧ s.p.recordByRecordID f.grantId = some rec ∧
        r.winningRecordHash = rec.contentHash ∧
        (r.outcome = "recorded" ↔ recordIsLandedGrant rec.json n = true) ∧
        (r.outcome = "voided" ↔ IsTombstone rec.json f.projectId f.grantId n)) ∧
    ∀ v r, (v, r) ∈ s.answered →
      (∃ f, s.p.fences.lookup v.brokerSeq = some f ∧ f.projectId = v.projectId ∧
        f.operationId = v.operationId ∧ f.actorId = v.actorId ∧ f.sessionId = v.sessionId ∧
        f.reason = v.reason) ∧
      ∀ v' r', (v', r') ∈ s.answered → v.brokerSeq = v'.brokerSeq → v = v' ∧ r = r' := by
  have hsys : SysInv digest s := (sysInv_empty.run hrun).1
  refine ⟨?_, ?_, fun n r hr => result_names_record hsys.store hr, ?_⟩
  · intro i j ri rj n hi hj hni hnj
    obtain ⟨hne, hgi⟩ := hsys.store.carried ri (List.mem_of_getElem? hi) n hni
    obtain ⟨-, hgj⟩ := hsys.store.carried rj (List.mem_of_getElem? hj) n hnj
    exact ⟨hsys.store.ids i j ri rj hi hj hne (hsys.store.seq.injective _ _ n hgi hgj), hgi⟩
  · intro s' hrun'
    have hlater := (hsys.run hrun').2
    refine ⟨hlater.fences, hlater.results, ?_⟩
    intro n f i rec hf hi hget hid
    rw [← (hsys.store.fence_pos hf).2.1]
    exact hlater.tombstones n f i rec hf hi hget hid
  · intro v r hr
    obtain ⟨hres, f, hmem, rfl⟩ := hsys.answered v r hr
    obtain ⟨hfence, hwanted⟩ := hsys.fenced f hmem
    refine ⟨⟨f.fence, hfence, ?_⟩, ?_⟩
    · rw [hwanted]
      exact ⟨rfl, rfl, rfl, rfl, rfl⟩
    · intro v' r' hr' hseq
      obtain ⟨hres', f', hmem', rfl⟩ := hsys.answered v' r' hr'
      obtain ⟨hfence', hwanted'⟩ := hsys.fenced f' hmem'
      rw [← hseq] at hfence' hres'
      have heq : wantedFence digest f.request f.grantId =
          wantedFence digest f'.request f'.grantId := by
        rw [← hwanted, ← hwanted']
        exact Option.some.inj (hfence.symm.trans hfence')
      exact ⟨request_eq_of_wantedFence heq, Option.some.inj (hres.symm.trans hres')⟩

end Runs

/-- A tombstone, as far as it is read. -/
def sampleTombstone (v : VoidRequest) (grantId : String) : CanonValue :=
  .obj [("record_id", .str grantId), ("project_id", .str v.projectId),
    ("session_id", .str v.sessionId), ("event_type", .str "credential_grant_void"),
    ("authority", .obj [("source", .str "gateway_enforced"),
      ("enforcement_point", .str "credential_broker"), ("grant_id", .str grantId)]),
    ("extensions", .obj [("broker", .obj [("kind", .str "grant_void"),
      ("void_evidence", .obj [("domain", .str grantVoidDomain), ("project_id", .str v.projectId),
        ("broker_seq", .int (.ofInt v.brokerSeq)), ("grant_id", .str grantId),
        ("actor_id", .str v.actorId), ("operation_id", .str v.operationId),
        ("reason", .str v.reason)])])])]

/-- A request to recover the first number. -/
def sampleRequest : VoidRequest := ⟨"p", 1, "s", "op", "lost", "ops"⟩

/-- A digest that shows the operation. -/
def sampleDigest (v : VoidRequest) (grantId : String) : String := v.operationId ++ "/" ++ grantId

/-- A tombstone as it is stored. -/
def sampleSealVoid (_ : Project) (v : VoidRequest) (grantId : String) : Option Record :=
  some ⟨sampleTombstone v grantId, "sha256:t", v.sessionId, [], []⟩

/-- A grant record, as far as it is read. -/
def sampleGrantRecord (seq : Int) : CanonValue :=
  .obj [("record_id", .str "g"), ("project_id", .str "p"), ("session_id", .str "s"),
    ("event_type", .str "credential_grant"),
    ("authority", .obj [("source", .str "gateway_enforced"),
      ("enforcement_point", .str "credential_broker"), ("grant_id", .str "g")]),
    ("extensions", .obj [("broker", .obj [("kind", .str "grant"),
      ("grant_evidence", .obj [("broker_seq", .int (.ofInt seq)), ("grant_id", .str "g")])])])]

/-- The issuing of that grant, for a number that fits. -/
def sampleIssuance : Issuance where
  idemKey := "k"
  grantId := "g"
  build _ seq := if 1 ≤ seq ∧ seq < 2 ^ 63 then
    some ⟨sampleGrantRecord seq, "sha256:g", "s", [], []⟩ else none
  named := by decide
  build_grant := by
    intro p seq rec h
    split_ifs at h with hseq
    obtain rfl := Option.some.inj h
    have hread : (Int64.ofInt seq).toInt = seq := Int64.toInt_ofInt_of_le (by omega) (by omega)
    refine ⟨rfl, ?_⟩
    have hkind : jsonText (sampleGrantRecord seq) ["extensions", "broker", "kind"] = "grant" := rfl
    have hpoint : jsonText (sampleGrantRecord seq) ["authority", "enforcement_point"] =
        "credential_broker" := rfl
    have hnum : jsonSeq (sampleGrantRecord seq)
        ["extensions", "broker", "grant_evidence", "broker_seq"] = seq := by
      have hraw : jsonSeq (sampleGrantRecord seq)
          ["extensions", "broker", "grant_evidence", "broker_seq"] =
            if (Int64.ofInt seq).toInt < 1 then 0 else (Int64.ofInt seq).toInt := rfl
      rw [hraw, hread, if_neg (by omega)]
    unfold grantSeqOf
    dsimp only
    rw [hkind, hpoint, hnum, if_neg (by decide), if_neg (by decide), if_neg (by omega)]

/-- A run answers the request with this outcome, and the number is fenced for its operation. -/
def AnsweredAs (outcome : String) : Prop :=
  ∃ s : RecoverySys, (∃ r, s.answered = [(sampleRequest, r)] ∧ r.outcome = outcome) ∧
    ∀ v r, (v, r) ∈ s.answered → ∃ f, s.p.fences.lookup v.brokerSeq = some f ∧
      f.operationId = v.operationId

/-- A number is reserved for a grant that is never recorded, and recovered with a tombstone. One
whose grant was issued, before a record of no concern, is recovered as recorded. -/
theorem recovery_protocol_safe_tombstone : AnsweredAs "voided" ∧ AnsweredAs "recorded" := by
  have hanswered : ∀ {p₁ p₂ p₃ : Project} {f : Fenced} {r : RecoveryResult},
      Relation.ReflTransGen (RecoveryStep "p" sampleDigest true sampleSealVoid) {} { p := p₁ } →
      recoverFence sampleDigest p₁ sampleRequest = .ok (f, p₂) → f.request = sampleRequest →
      recoverReconcile true sampleSealVoid p₂ f = .ok (r, p₃) → AnsweredAs r.outcome := by
    intro p₁ p₂ p₃ f r hfirst hfence hrequest hreconcile
    have hrun := (hfirst.tail (.fence sampleRequest f p₂ rfl hfence)).tail
      (.reconcile f r p₃ List.mem_cons_self hreconcile)
    rw [hrequest] at hrun
    refine ⟨{ p := p₃, fenced := [f], answered := [(sampleRequest, r)] }, ⟨r, rfl, rfl⟩,
      fun v r' hr' => ?_⟩
    obtain ⟨⟨f', hf', -, hop, -⟩, -⟩ := (recovery_protocol_safe hrun).2.2.2 v r' hr'
    exact ⟨f', hf', hop⟩
  constructor
  · obtain ⟨a, p₁, h₁, f, p₂, h₂, r, p₃, h₃, houtcome, hrequest⟩ :
        ∃ a p₁, ({} : Project).allocateBrokerSeq "g" = .ok (a, p₁) ∧
        ∃ f p₂, recoverFence sampleDigest p₁ sampleRequest = .ok (f, p₂) ∧
        ∃ r p₃, recoverReconcile true sampleSealVoid p₂ f = .ok (r, p₃) ∧
          r.outcome = "voided" ∧ f.request = sampleRequest :=
      ⟨_, _, rfl, _, _, rfl, _, _, rfl, rfl, rfl⟩
    have hanswer := hanswered (.single (.reserve "g" a p₁ (by decide) h₁)) h₂ hrequest h₃
    rwa [houtcome] at hanswer
  · obtain ⟨p₁, h₁, b, p₂, h₂, f, p₃, h₃, r, p₄, h₄, houtcome, hrequest⟩ :
        ∃ p₁, issueGrant {} sampleIssuance = .ok p₁ ∧
        ∃ b p₂, p₁.putRecord "n" ⟨.obj [("record_id", .str "n")], "sha256:n", "s", [], []⟩ =
          .ok (b, p₂) ∧
        ∃ f p₃, recoverFence sampleDigest p₂ sampleRequest = .ok (f, p₃) ∧
        ∃ r p₄, recoverReconcile true sampleSealVoid p₃ f = .ok (r, p₄) ∧
          r.outcome = "recorded" ∧ f.request = sampleRequest :=
      ⟨_, rfl, _, _, rfl, _, _, rfl, _, _, rfl, rfl, rfl⟩
    have hanswer := hanswered ((Relation.ReflTransGen.single (.issue sampleIssuance p₁ h₁)).tail
      (.record _ _ b p₂ rfl h₂)) h₃ hrequest h₄
    rwa [houtcome] at hanswer

end Averin
