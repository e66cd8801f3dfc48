import Averin.Server.ProjectTx
import Averin.Server.RecoveryRuns
import Averin.Store.TrackedStore

/-!
# What a callback leaves

A write transaction is modelled twice: as a callback over the store that counts its rows, where any
call may fail, and as a change of the project that says what a success leaves. Where a callback
returns, it leaves what the change leaves and answers what the change answers. So the transactions
that commit are steps of the runs that recoveries are proved over.
-/

namespace Averin

open CountedStore hiding sealAndStore putRecord

/-- Where a callback returns, it leaves a project, and gives an answer, as is said. -/
def Leaves (n : Nat) (p : Project) (m : TxCallback) (post : TxReply → Project → Prop) : Prop :=
  Attempt.Triple (Opened n p) m (fun r s => post r s.project) fun _ _ => True

section Callbacks

variable {n : Nat} {p : Project} {α β : Type} {P : CountedStore → Prop}
  {post : α → CountedStore → Prop}

/-- What was built is at hand afterwards. -/
theorem orAbort_followed {o : Option β} {f : β → Callback TxReply α}
    (h : ∀ b, o = some b → Attempt.Triple P (f b) post fun _ _ => True) :
    Attempt.Triple P (orAbort o >>= f) post fun _ _ => True := by
  intro s hs
  cases o with
  | none => trivial
  | some b => exact h b rfl s hs

/-- What was checked holds afterwards. -/
theorem check_followed {b : Bool} {f : Unit → Callback TxReply α}
    (h : b = true → Attempt.Triple P (f ()) post fun _ _ => True) :
    Attempt.Triple P (check b >>= f) post fun _ _ => True := by
  intro s hs
  cases b with
  | false => trivial
  | true => exact h rfl s hs

/-- What is sealed and stored leaves what the same change leaves. -/
theorem seal_followed {S : Sealer} {sessionId idem : String} {body : CanonValue}
    {disclosures : List DisclosureSecret} (hp : p.RowInv)
    {f : CanonValue × Bool → Callback TxReply α}
    (h : ∀ row created q,
      sealCounted n S p sessionId idem body disclosures = .ok ((row, created), q) →
        Attempt.Triple (HoldsProject q) (f (row, created)) post fun _ _ => True) :
    Attempt.Triple (Opened n p)
      (CountedStore.sealAndStore S sessionId idem body disclosures >>= f) post fun _ _ => True := by
  have hseal := (sealAndStore_followed (ρ := TxReply) (n := n) hp S sessionId idem body
    disclosures).weaken (fun _ hs => hs) (fun _ _ hs => hs) (fun _ _ _ => trivial)
  apply Attempt.Triple.bind hseal
  rintro ⟨row, created⟩ s hs
  exact h row created s.project hs s rfl

/-- What a quota lets through is sealed and stored all the same. -/
theorem sealAndStore_of_sealCounted {quota : Nat} {S : Sealer} {sessionId idem : String}
    {body : CanonValue} {disclosures : List DisclosureSecret} {row : CanonValue} {created : Bool}
    {q : Project}
    (h : sealCounted quota S p sessionId idem body disclosures = .ok ((row, created), q)) :
    ∃ sealed stored, S.sealRecord p sessionId body = some sealed ∧
      p.putRecord idem (sealedRecord sealed disclosures) = .ok ((stored, created), q) ∧
        stored.json = row := by
  unfold sealCounted at h
  split at h
  · cases h
  · next row' created' q' hstore =>
    split_ifs at h
    obtain ⟨heq, rfl⟩ := Prod.mk.inj (Except.ok.inj h)
    obtain ⟨rfl, rfl⟩ := Prod.mk.inj heq
    unfold Averin.sealAndStore at hstore
    split at hstore
    · cases hstore
    · next sealed hsealed =>
      split at hstore
      · cases hstore
      · next stored created'' q'' hput =>
        obtain ⟨heq, rfl⟩ := Prod.mk.inj (Except.ok.inj hstore)
        obtain ⟨rfl, rfl⟩ := Prod.mk.inj heq
        exact ⟨sealed, stored, hsealed, hput, rfl⟩

section Recovery

variable (digest : VoidRequest → String → String) (revocation : Bool)
  (buildVoid : VoidRequest → String → Option CanonValue) (S : Sealer)

/-- The tombstone of a request as it is written. -/
def sealVoidOf (p : Project) (v : VoidRequest) (grantId : String) : Option Record :=
  (buildVoid v grantId).bind fun body =>
    (S.sealRecord p v.sessionId body).map (sealedRecord · [])

/-- The first transaction of a recovery that commits is the change the recovery makes. -/
theorem fence_leaves (v : VoidRequest) :
    Leaves n p (v.fenceCallback digest) fun r q =>
      r = .done ∧ ∃ f, recoverFence digest p v = .ok (f, q) := by
  unfold Leaves VoidRequest.fenceCallback
  apply (opened_tracks n).read_bind fun _ => trivial
  apply orAbort_followed
  rintro ⟨grantId, voided⟩ hat
  apply (opened_tracks n).read_bind fun _ => trivial
  apply check_followed
  intro hprior
  apply (opened_tracks n).write_bind
  rintro ⟨fence, created⟩ q hput
  apply Attempt.Triple.pure
  intro s hs
  refine ⟨rfl, ⟨v, fence, grantId, voided⟩, ?_⟩
  rw [Bool.not_eq_true'] at hprior
  rw [recoverFence, hat]
  dsimp only
  rw [hprior, if_neg Bool.false_ne_true, hput, hs.project]

/-- A change without an answer is the change. -/
theorem written_of_map {x : Except StoreError Project} {q : Project}
    (h : x.map (((), ·)) = .ok ((), q)) : x = .ok q := by
  cases x with
  | error e => cases h
  | ok p' =>
    obtain ⟨-, rfl⟩ := Prod.mk.inj (Except.ok.inj h)
    rfl

/-- What is void is marked so, and its grant revoked where revocations are kept. -/
theorem markVoid_followed (h : Fenced) {f : Unit → Callback TxReply α}
    (hf : ∀ q, markVoid revocation p h = .ok q →
      Attempt.Triple (HoldsProject q) (f ()) post fun _ _ => True) :
    Attempt.Triple (HoldsProject p) (h.markVoid revocation >>= f) post fun _ _ => True := by
  have hmark : Attempt.Triple (HoldsProject p) (h.markVoid revocation)
      (fun _ s => markVoid revocation p h = .ok s.project) fun _ _ => True := by
    have hrevoke : ∀ q, Attempt.Triple (HoldsProject q)
        (do
          let _ ← write (·.putRevocationEvent ⟨h.request.projectId, h.grantId, revocationTotal, 0,
            "averin-recovery", "recovery_void"⟩)
          pure () : Callback TxReply Unit)
        (fun _ s => (q.putRevocationEvent ⟨h.request.projectId, h.grantId, revocationTotal, 0,
          "averin-recovery", "recovery_void"⟩).map (·.2) = .ok s.project) fun _ _ => True := by
      intro q
      apply holds_tracks.write_bind
      intro answer q' hput
      apply Attempt.Triple.pure
      intro s hs
      rw [hput, ← show s.project = q' from hs]
      rfl
    unfold Fenced.markVoid markVoid
    cases hv : h.voided <;> cases revocation <;>
      simp only [Bool.not_true, Bool.not_false, if_true, if_false, Bool.false_eq_true]
    · apply holds_tracks.write_bind
      rintro ⟨⟩ q hq
      apply Attempt.Triple.pure
      intro s hs
      rw [written_of_map hq, ← show s.project = q from hs]
    · apply holds_tracks.write_bind
      rintro ⟨⟩ q hq
      rw [written_of_map hq]
      exact hrevoke q
    · apply Attempt.Triple.pure
      intro s hs
      rw [← show s.project = p from hs]
    · exact hrevoke p
  apply Attempt.Triple.bind hmark
  intro _ s hs
  exact hf _ hs s rfl

/-- The outcome of a recovery is recorded for its number. -/
theorem putResult_followed (h : Fenced) (outcome : String) (winner : Record)
    {f : Unit → Callback TxReply α}
    (hf : ∀ r created q, p.putRecoveryResult true ⟨h.request.projectId, outcome,
        winner.contentHash, h.request.brokerSeq, 1⟩ = .ok ((r, created), q) →
      Attempt.Triple (HoldsProject q) (f ()) post fun _ _ => True) :
    Attempt.Triple (HoldsProject p) (h.putResult outcome winner >>= f) post fun _ _ => True := by
  have hput : Attempt.Triple (HoldsProject p) (h.putResult outcome winner)
      (fun _ s => ∃ r created, p.putRecoveryResult true ⟨h.request.projectId, outcome,
        winner.contentHash, h.request.brokerSeq, 1⟩ = .ok ((r, created), s.project))
      fun _ _ => True := by
    unfold Fenced.putResult
    apply holds_tracks.write_bind
    rintro ⟨r, created⟩ q hq
    apply Attempt.Triple.pure
    intro s hs
    exact ⟨r, created, by rw [hq, ← show s.project = q from hs]⟩
  apply Attempt.Triple.bind hput
  rintro _ s ⟨r, created, hr⟩
  exact hf r created _ hr s rfl

/-- Once the winner is in place its result is the recovery's. -/
theorem recoverReconcile_of_winner {sealVoid : Project → VoidRequest → String → Option Record}
    {p q q' : Project} {h : Fenced} {current : RecoveryFence} {outcome : String} {winner : Record}
    {r : RecoveryResult} {created : Bool}
    (hcurrent : p.recoveryFenceAt h.request.brokerSeq = some current)
    (hdigest : current.requestDigest = h.fence.requestDigest)
    (hopen : p.recoveryResultAt h.request.brokerSeq = none)
    (hwinner : recoverWinner revocation sealVoid p h = .ok ((outcome, winner), q))
    (hput : q.putRecoveryResult true ⟨h.request.projectId, outcome, winner.contentHash,
      h.request.brokerSeq, 1⟩ = .ok ((r, created), q')) :
    recoverReconcile revocation sealVoid p h = .ok (r, q') := by
  rw [recoverReconcile, hcurrent]
  dsimp only
  rw [if_neg (not_not.mpr hdigest), hopen]
  dsimp only
  rw [hwinner]
  dsimp only
  rw [hput]

/-- The second transaction of a recovery that commits is the change the recovery makes. -/
theorem reconcile_leaves (hp : p.RowInv) (h : Fenced) :
    Leaves n p (h.reconcileCallback revocation buildVoid S) fun _ q =>
      ∃ r, recoverReconcile revocation (sealVoidOf buildVoid S) p h = .ok (r, q) := by
  unfold Leaves Fenced.reconcileCallback
  apply (opened_tracks n).read_bind fun _ => trivial
  apply orAbort_followed
  intro current hcurrent
  apply check_followed
  intro hdigest
  have hdigest := of_decide_eq_true hdigest
  apply (opened_tracks n).read_bind fun _ => trivial
  cases hresult : p.recoveryResultAt h.request.brokerSeq with
  | some done =>
    have hdone : recoverReconcile revocation (sealVoidOf buildVoid S) p h = .ok (done, p) := by
      rw [recoverReconcile, hcurrent]
      dsimp only
      rw [if_neg (not_not.mpr hdigest), hresult]
    apply (opened_tracks n).read_bind fun _ => trivial
    cases p.recordByRecordID h.grantId <;>
      exact fun s hs => ⟨done, by rw [hdone, hs.project]⟩
  | none =>
    -- Whatever the winner is, its result is the last write.
    have hend : ∀ (outcome : String) (winner : Record) (q : Project) (reply : TxReply),
        recoverWinner revocation (sealVoidOf buildVoid S) p h = .ok ((outcome, winner), q) →
        Attempt.Triple (HoldsProject q) (h.putResult outcome winner >>= fun _ => pure reply)
          (fun _ s => ∃ r, recoverReconcile revocation (sealVoidOf buildVoid S) p h =
            .ok (r, s.project)) fun _ _ => True := by
      intro outcome winner q reply hwinner
      apply putResult_followed
      intro r created q' hput
      apply Attempt.Triple.pure
      intro s hs
      refine ⟨r, ?_⟩
      rw [show s.project = q' from hs]
      exact recoverReconcile_of_winner revocation hcurrent hdigest hresult hwinner hput
    apply (opened_tracks n).read_bind fun _ => trivial
    cases hprior : p.recordByRecordID h.grantId with
    | some winner =>
      dsimp only
      split_ifs with htomb
      · refine Attempt.Triple.weaken ?_ (fun _ => Opened.holds) (fun _ _ hs => hs) fun _ _ hs => hs
        apply markVoid_followed
        intro q hmark
        apply hend "voided" winner q
        rw [recoverWinner, hprior]
        dsimp only
        rw [if_pos htomb, hmark]
      · apply check_followed
        intro hlanded
        refine Attempt.Triple.weaken ?_ (fun _ => Opened.holds) (fun _ _ hs => hs) fun _ _ hs => hs
        apply hend "recorded" winner p
        rw [recoverWinner, hprior]
        dsimp only
        rw [if_neg htomb, if_pos hlanded]
    | none =>
      apply (opened_tracks n).read_bind fun _ => trivial
      apply check_followed
      intro hfree
      apply orAbort_followed
      intro body hbody
      apply seal_followed hp
      intro row created q hseal
      obtain ⟨sealed, stored, hsealed, hput, rfl⟩ := sealAndStore_of_sealCounted hseal
      apply holds_tracks.read_bind fun _ => trivial
      apply orAbort_followed
      intro winner hwinner
      apply check_followed
      intro hsame
      apply markVoid_followed
      intro q' hmark
      apply hend "voided" winner q'
      rw [Bool.not_eq_true'] at hfree
      rw [recoverWinner, hprior]
      dsimp only
      rw [hfree, if_neg Bool.false_ne_true, sealVoidOf, hbody, Option.bind_some, hsealed,
        Option.map_some]
      dsimp only
      rw [hput]
      dsimp only
      rw [hwinner]
      dsimp only
      rw [if_neg (not_not.mpr (of_decide_eq_true hsame)), hmark]

end Recovery

/-- An issuance that is the request of a grant: it has the names of the call and builds what the
call builds, sealed for the session. -/
structure GrantCall.Issues (c : GrantCall) (S : Sealer) (i : Issuance) : Prop where
  idem : i.idemKey = c.idem
  grant : i.grantId = c.grantId
  build : ∀ p seq, i.build p seq = (c.build seq).bind fun b =>
    (S.sealRecord p c.sessionId b.1).map (sealedRecord · b.2)

section Grant

variable {S : Sealer} {c : GrantCall} {i : Issuance}

/-- A number is drawn for a grant. -/
theorem drawSeq_followed (grantId : String) {f : Int → Callback TxReply α}
    (h : ∀ seq fresh q, p.allocateBrokerSeq grantId = .ok ((seq, fresh), q) →
      Attempt.Triple (Opened n q) (f seq) post fun _ _ => True) :
    Attempt.Triple (Opened n p) (drawSeq grantId >>= f) post fun _ _ => True := by
  have hdraw : Attempt.Triple (Opened n p) (drawSeq grantId)
      (fun seq s => ∃ fresh q, p.allocateBrokerSeq grantId = .ok ((seq, fresh), q) ∧ Opened n q s)
      fun _ _ => True := by
    unfold drawSeq
    apply (opened_tracks n).write_bind
    rintro ⟨seq, fresh⟩ q hq
    apply check_followed
    intro _
    apply Attempt.Triple.pure
    intro s hs
    exact ⟨fresh, q, hq, hs⟩
  apply Attempt.Triple.bind hdraw
  rintro seq s ⟨fresh, q, hq, hs⟩
  exact h seq fresh q hq s hs

/-- A grant that is sealed and stored anew is issued. -/
theorem issueGrant_of_sealed (hi : c.Issues S i) {seq : Int} {fresh : Bool} {q q' : Project}
    {body : CanonValue} {disclosures : List DisclosureSecret} {row : CanonValue}
    (hprior : p.recordByIdem c.idem = none)
    (hseq : p.allocateBrokerSeq c.grantId = .ok ((seq, fresh), q))
    (hbuild : c.build seq = some (body, disclosures))
    (hseal : sealCounted n S q c.sessionId c.idem body disclosures = .ok ((row, true), q')) :
    issueGrant p i = .ok q' := by
  obtain ⟨sealed, stored, hsealed, hput, -⟩ := sealAndStore_of_sealCounted hseal
  rw [issueGrant, hi.idem, hprior, hi.grant]
  dsimp only
  rw [hseq]
  dsimp only
  rw [hi.build, hbuild, Option.bind_some, hsealed, Option.map_some]
  dsimp only
  rw [hput]
  rfl

/-- A number that is drawn leaves the rows. -/
theorem rowInv_of_draw {grantId : String} {answer : Int × Bool} {q : Project} (hp : p.RowInv)
    (h : p.allocateBrokerSeq grantId = .ok (answer, q)) : q.RowInv :=
  (hp.of_rowTable (leavesRows_allocateBrokerSeq grantId _ _ _ h)).1

/-- A grant in one phase that commits issues the grant, if only by its stored record. One that is
not answered leaves everything. -/
theorem grant_leaves (hp : p.RowInv) (hi : c.Issues S i) :
    Leaves n p (c.callback S) fun r q => issueGrant p i = .ok q ∨ r = .declined ∧ q = p := by
  unfold Leaves GrantCall.callback
  apply (opened_tracks n).read_bind fun _ => trivial
  cases hprior : p.recordByIdem c.idem with
  | some prior =>
    have hstored : issueGrant p i = .ok p := by rw [issueGrant, hi.idem, hprior]
    apply orAbort_followed
    intro same _
    cases same with
    | true => exact fun s hs => Or.inl (by rw [hs.project]; exact hstored)
    | false => exact fun s hs => Or.inr ⟨rfl, hs.project⟩
  | none =>
    apply check_followed
    intro _
    apply drawSeq_followed
    intro seq fresh q hseq
    apply orAbort_followed
    rintro ⟨body, disclosures⟩ hbuild
    apply seal_followed (rowInv_of_draw hp hseq)
    intro row created q' hseal
    apply check_followed
    rintro rfl
    apply Attempt.Triple.pure
    intro s hs
    rw [show s.project = q' from hs]
    exact Or.inl (issueGrant_of_sealed hi hprior hseq hbuild hseal)

/-- Where the credential is minted elsewhere nothing is disclosed, and one that collapses leaves
its number drawn. -/
theorem native_leaves (hp : p.RowInv) (hi : c.Issues S i)
    (hplain : ∀ seq b, c.build seq = some b → b.2 = []) :
    Leaves n p (c.native S) fun r q => issueGrant p i = .ok q ∨
      ∃ row answer, r = .existing row ∧ p.allocateBrokerSeq c.grantId = .ok (answer, q) := by
  unfold Leaves GrantCall.native
  apply (opened_tracks n).read_bind fun _ => trivial
  cases hprior : p.recordByIdem c.idem with
  | some prior =>
    have hstored : issueGrant p i = .ok p := by rw [issueGrant, hi.idem, hprior]
    exact fun s hs => Or.inl (by rw [hs.project]; exact hstored)
  | none =>
    apply drawSeq_followed
    intro seq fresh q hseq
    apply orAbort_followed
    rintro ⟨body, disclosures⟩ hbuild
    obtain rfl : disclosures = [] := hplain seq _ hbuild
    apply seal_followed (rowInv_of_draw hp hseq)
    intro row created q' hseal
    apply Attempt.Triple.pure
    intro s hs
    rw [show s.project = q' from hs]
    cases created with
    | true => exact Or.inl (issueGrant_of_sealed hi hprior hseq hbuild hseal)
    | false =>
      obtain ⟨_, _, -, hput, -⟩ := sealAndStore_of_sealCounted hseal
      obtain ⟨-, rfl, -⟩ | ⟨hnew, -⟩ := Project.putRecord_cases hput
      · exact Or.inr ⟨row, (seq, fresh), rfl, hseq⟩
      · cases hnew

/-- The second phase of a grant issues it, or finds its number drawn and its record under another
key, and drops what was pending. -/
theorem finalize_leaves {c : PendingCall} (hp : p.RowInv) (hi : c.grant.Issues S i)
    (seen : List UInt8) (proofInTime : Bool) :
    Leaves n p (c.finalize S seen proofInTime) fun r q =>
      (r = .declined ∨ ∃ row, r = .existing row) ∧ q = p ∨
      ∃ q', q = q'.deletePendingGrant c.grant.idem ∧ (issueGrant p i = .ok q' ∨
        ∃ row answer, r = .existing row ∧
          p.allocateBrokerSeq c.grant.grantId = .ok (answer, q')) := by
  unfold Leaves PendingCall.finalize
  apply (opened_tracks n).read_bind fun _ => trivial
  cases hprior : p.recordByIdem c.grant.idem with
  | some prior =>
    dsimp only
    split_ifs
    · exact fun s hs => Or.inl ⟨Or.inr ⟨_, rfl⟩, hs.project⟩
    · exact fun s hs => Or.inl ⟨Or.inl rfl, hs.project⟩
  | none =>
    apply (opened_tracks n).read_bind fun _ => trivial
    have hdeclined : Attempt.Triple (Opened n p) (pure .declined : TxCallback)
        (fun r s => (r = .declined ∨ ∃ row, r = .existing row) ∧ s.project = p ∨
          ∃ q', s.project = q'.deletePendingGrant c.grant.idem ∧ (issueGrant p i = .ok q' ∨
            ∃ row answer, r = .existing row ∧
              p.allocateBrokerSeq c.grant.grantId = .ok (answer, q'))) fun _ _ => True :=
      fun s hs => Or.inl ⟨Or.inl rfl, hs.project⟩
    cases p.pending.lookup c.grant.idem with
    | none => exact hdeclined
    | some row =>
      dsimp only
      by_cases hpayload : row.payload ≠ seen
      · rw [if_pos hpayload]
        exact hdeclined
      rw [if_neg hpayload]
      apply (opened_tracks n).read_bind fun _ => trivial
      cases c.live p with
      | false => exact hdeclined
      | true =>
        cases c.grant.inTime && proofInTime with
        | false => exact hdeclined
        | true =>
          apply drawSeq_followed
          intro seq fresh q hseq
          apply orAbort_followed
          rintro ⟨body, disclosures⟩ hbuild
          apply seal_followed (rowInv_of_draw hp hseq)
          intro stored created q' hseal
          apply holds_tracks.write_bind
          rintro ⟨⟩ q'' hdelete
          obtain rfl := (Prod.mk.inj (Except.ok.inj hdelete)).2
          apply Attempt.Triple.pure
          intro s hs
          refine Or.inr ⟨q', hs, ?_⟩
          cases created with
          | true => exact Or.inl (issueGrant_of_sealed hi hprior hseq hbuild hseal)
          | false =>
            obtain ⟨_, _, -, hput, -⟩ := sealAndStore_of_sealCounted hseal
            obtain ⟨-, rfl, -⟩ | ⟨hnew, -⟩ := Project.putRecord_cases hput
            · exact Or.inr ⟨stored, (seq, fresh), rfl, hseq⟩
            · cases hnew

end Grant

section Gateway

variable {ed : Ed25519} {C : ResourceCore ed}

/-- An ordinal that is drawn leaves the rows. -/
theorem rowInv_of_order {ordinal : Int} {q : Project} (hp : p.RowInv)
    (h : p.allocateAuthorizationOrder = (ordinal, q)) : q.RowInv :=
  (hp.of_rowTable (leavesRows_allocateAuthorizationOrder _ _ _ (congrArg Except.ok h))).1

/-- A conflict that ends a callback is no answer that commits. -/
theorem onConflict_throw_followed {m : Callback TxReply β} {e : TxError TxReply}
    {f : β → Callback TxReply α} {P : CountedStore → Prop}
    (h : Attempt.Triple P (m >>= f) post fun _ _ => True) :
    Attempt.Triple P (onConflict m (throw e) >>= f) post fun _ _ => True := by
  intro s hs
  have hstep := h s hs
  rw [Attempt.exec_bind] at hstep ⊢
  unfold onConflict
  rw [Attempt.exec_tryCatch]
  rcases hm : Attempt.exec m s with ⟨e' | b, s'⟩
  · cases e' with
    | store e'' => cases e'' <;> trivial
    | _ => trivial
  · rw [hm] at hstep
    exact hstep

/-- The answer of a use as the transaction gives it. -/
def UseReply.tx : UseReply → TxReply
  | answered record _ true => .existing record
  | answered record _ false => .created record
  | _ => .declined

/-- A use that commits is the change of its project, with the answer of the change. -/
theorem use_leaves (hp : p.RowInv) (u : UseInvocation) (commitment : String)
    (claims : Table LedgerKey String) :
    Leaves C.quota p (C.useCallback u commitment claims) fun r q =>
      r = (C.useTransaction ⟨p, claims⟩ u commitment).1.tx ∧
        q = (C.useTransaction ⟨p, claims⟩ u commitment).2.project := by
  unfold Leaves ResourceCore.useCallback
  apply (opened_tracks C.quota).read_bind fun _ => trivial
  cases hstart : C.startUse p u commitment with
  | answered record grantId =>
    exact fun s hs => ⟨by simp only [ResourceCore.useTransaction, hstart]; rfl,
      by simp only [ResourceCore.useTransaction, hstart]; exact hs.project⟩
  | conflict =>
    exact fun s hs => ⟨by simp only [ResourceCore.useTransaction, hstart]; rfl,
      by simp only [ResourceCore.useTransaction, hstart]; exact hs.project⟩
  | refused refusal =>
    exact fun s hs => ⟨by simp only [ResourceCore.useTransaction, hstart]; rfl,
      by simp only [ResourceCore.useTransaction, hstart]; exact hs.project⟩
  | consume c nonce =>
    apply Attempt.Triple.bind ((opened_tracks C.quota).reach_spec fun _ => trivial)
    intro _
    cases hclaims : c.consume claims nonce u.jtiOwner with
    | error refusal =>
      exact fun s hs => ⟨by simp only [ResourceCore.useTransaction, hstart, hclaims]; rfl,
        by simp only [ResourceCore.useTransaction, hstart, hclaims]; exact hs.project⟩
    | ok claims' =>
      apply (opened_tracks C.quota).write_bind
      intro ordinal q horder
      have horder := Except.ok.inj horder
      apply orAbort_followed
      intro body hbody
      apply onConflict_throw_followed
      apply seal_followed (rowInv_of_order hp horder)
      intro stored created q' hseal
      cases created with
      | true =>
        apply holds_tracks.write_bind
        rintro ⟨⟩ q'' hput
        have hput := written_of_map hput
        have hrecord : C.recordUse p u c commitment = .ok (stored, q'') := by
          rw [ResourceCore.recordUse, horder]
          dsimp only
          rw [hbody]
          dsimp only
          rw [hseal]
          dsimp only
          rw [if_neg (by decide), hput]
        exact fun s hs =>
          ⟨by simp only [ResourceCore.useTransaction, hstart, hclaims, hrecord]; rfl,
            by simp only [ResourceCore.useTransaction, hstart, hclaims, hrecord]; exact hs⟩
      | false =>
        dsimp only
        rw [if_neg Bool.false_ne_true]
        split_ifs <;> exact fun _ _ => trivial

/-- The answer of an introspection as the transaction gives it. -/
def IntrospectionEnd.tx : IntrospectionEnd → TxReply
  | answered record => .existing record
  | recorded record => .created record
  | _ => .declined

/-- An introspection that commits is the change of its project. -/
theorem introspect_leaves (hp : p.RowInv) (u : IntrospectionCall) :
    Leaves C.quota p (C.introspectCallback u) fun r q =>
      ∃ e, C.introspect p u = .ok (e, q) ∧ r = e.tx := by
  unfold Leaves ResourceCore.introspectCallback
  apply (opened_tracks C.quota).read_bind fun _ => trivial
  cases hprior : p.recordByIdem u.request.idem with
  | some prior =>
    dsimp only
    split_ifs with hsame
    · exact fun s hs => ⟨.answered prior.json,
        by rw [ResourceCore.introspect, hprior, hs.project]; dsimp only; rw [if_pos hsame], rfl⟩
    · exact fun s hs => ⟨.conflict,
        by rw [ResourceCore.introspect, hprior, hs.project]; dsimp only; rw [if_neg hsame], rfl⟩
  | none =>
    apply (opened_tracks C.quota).read_bind fun _ => trivial
    cases hvalid : C.validateNativeIntrospection p u.request
        (if u.request.introspectedAt = 0 then u.unix else u.request.introspectedAt) u.unix with
    | error refusal =>
      exact fun s hs => ⟨.refused refusal,
        by rw [ResourceCore.introspect, hprior, hs.project]; dsimp only; rw [hvalid], rfl⟩
    | ok _ =>
      apply (opened_tracks C.quota).write_bind
      intro ordinal q horder
      have horder := Except.ok.inj horder
      apply orAbort_followed
      intro body hbody
      apply onConflict_throw_followed
      apply seal_followed (rowInv_of_order hp horder)
      intro stored created q' hseal
      cases created with
      | true =>
        apply holds_tracks.write_bind
        rintro ⟨⟩ q'' hput
        have hput := written_of_map hput
        have hrecord : C.recordIntrospection p u
            (if u.request.introspectedAt = 0 then u.unix else u.request.introspectedAt) =
              .ok (stored, q'') := by
          rw [ResourceCore.recordIntrospection, horder]
          dsimp only
          rw [hbody]
          dsimp only
          rw [hseal]
          dsimp only
          rw [if_neg (by decide), hput]
        refine fun s hs => ⟨.recorded stored, ?_, rfl⟩
        rw [ResourceCore.introspect, hprior]
        dsimp only
        rw [hvalid]
        dsimp only
        rw [hrecord, show s.project = q'' from hs]
        rfl
      | false =>
        dsimp only
        rw [if_neg Bool.false_ne_true]
        split_ifs <;> exact fun _ _ => trivial

/-- The answer of an outcome as the transaction gives it. -/
def OutcomeEnd.tx : OutcomeEnd → TxReply
  | answered record => .existing record
  | recorded record => .created record
  | _ => .declined

/-- What an outcome seals is stored, or its conflict leaves everything as it was. -/
theorem outcomeSeal_followed (hp : p.RowInv) {sessionId idem : String} {body : CanonValue} :
    Attempt.Triple (Opened n p)
      (onConflict (do return some (← CountedStore.sealAndStore C.sealer sessionId idem body []))
        (pure none) : Callback TxReply (Option (CanonValue × Bool)))
      (fun o s => match o with
        | some a => sealCounted n C.sealer p sessionId idem body [] = .ok (a, s.project)
        | none => s.project = p ∧ ∃ id, sealCounted n C.sealer p sessionId idem body [] =
          .error (.store (.recordIDConflict id))) fun _ _ => True := by
  have hseal := sealAndStore_followed (ρ := TxReply) (n := n) hp C.sealer sessionId idem body []
  refine Attempt.Triple.tryCatch (Attempt.Triple.bind hseal fun a => Attempt.Triple.pure
    fun s hs => hs) ?_
  intro e
  cases e with
  | store e' =>
    cases e' with
    | recordIDConflict id =>
      intro s hs
      obtain ⟨hproject, hconflict⟩ := hs id rfl
      exact ⟨hproject, id, hconflict⟩
    | _ => exact fun _ _ => trivial
  | _ => exact fun _ _ => trivial

/-- An outcome that commits is the change of its project. -/
theorem outcome_leaves (hp : p.RowInv) (u : OutcomeCall) :
    Leaves C.quota p (C.outcomeCallback u) fun r q =>
      ∃ e, C.useOutcome p u = .ok (e, q) ∧ r = e.tx := by
  unfold Leaves ResourceCore.outcomeCallback
  apply (opened_tracks C.quota).read_bind fun _ => trivial
  cases hprior : p.recordByIdem u.request.idem with
  | some prior =>
    dsimp only
    split_ifs with hsame
    · exact fun s hs => ⟨.answered prior.json,
        by rw [ResourceCore.useOutcome, hprior, hs.project]; dsimp only; rw [if_pos hsame], rfl⟩
    · exact fun s hs => ⟨.conflict,
        by rw [ResourceCore.useOutcome, hprior, hs.project]; dsimp only; rw [if_neg hsame], rfl⟩
  | none =>
    apply (opened_tracks C.quota).read_bind fun _ => trivial
    cases hintent : p.intentRecord u.request.sessionId u.request.intentRecordId with
    | none =>
      exact fun s hs => ⟨.intentNotFound,
        by rw [ResourceCore.useOutcome, hprior, hs.project]; dsimp only; rw [hintent], rfl⟩
    | some intent =>
      apply orAbort_followed
      intro i hi
      dsimp only
      by_cases hkind : i.kind ≠ "use_intent"
      · rw [if_pos hkind]
        refine fun s hs => ⟨.notAnIntent i.kind, ?_, rfl⟩
        rw [ResourceCore.useOutcome, hprior, hs.project]
        dsimp only
        rw [hintent]
        dsimp only
        rw [hi]
        dsimp only
        rw [if_pos hkind]
      rw [if_neg hkind]
      -- What is left is the record of the outcome, or its refusal.
      have hopen : ∀ e q, (if (p.useOutcomeFor u.request.sessionId
            u.request.intentRecordId).isSome = true then .ok (.conflict, p)
          else C.recordOutcome p u i) = .ok (e, q) → C.useOutcome p u = .ok (e, q) := by
        intro e q heq
        rw [ResourceCore.useOutcome, hprior]
        dsimp only
        rw [hintent]
        dsimp only
        rw [hi]
        dsimp only
        rw [if_neg hkind]
        exact heq
      apply (opened_tracks C.quota).read_bind fun _ => trivial
      by_cases hdone : (p.useOutcomeFor u.request.sessionId u.request.intentRecordId).isSome = true
      · rw [if_pos hdone]
        exact fun s hs => ⟨.conflict, hopen _ _ (by rw [if_pos hdone, hs.project]), rfl⟩
      rw [if_neg hdone] at hopen ⊢
      apply check_followed
      intro horder
      rw [Bool.not_eq_true'] at horder
      apply orAbort_followed
      intro body hbody
      apply Attempt.Triple.bind (outcomeSeal_followed hp)
      rintro (_ | ⟨stored, created⟩) s hs
      · obtain ⟨hproject, id, hconflict⟩ := hs
        have hrecord : C.recordOutcome p u i = .ok (.conflict, p) := by
          rw [ResourceCore.recordOutcome, horder, hbody, if_neg Bool.false_ne_true]
          simp only [hconflict]
        exact ⟨.conflict, hopen _ _ (by rw [hrecord, hproject]), rfl⟩
      · have hrecord : C.recordOutcome p u i =
            if created = true then .ok (.recorded stored, s.project)
            else if C.priorOutcomeMatches stored u.request then .ok (.answered stored, s.project)
            else .ok (.conflict, s.project) := by
          rw [ResourceCore.recordOutcome, horder, hbody, if_neg Bool.false_ne_true]
          simp only [hs]
        dsimp only
        split_ifs at hrecord ⊢ with hcreated hmatch
        · exact ⟨.recorded stored, hopen _ _ hrecord, rfl⟩
        · exact ⟨.answered stored, hopen _ _ hrecord, rfl⟩
        · exact ⟨.conflict, hopen _ _ hrecord, rfl⟩

end Gateway

/-- A revocation that commits is the change of its project. -/
theorem revoke_leaves (cap : Nat) (ev : RevocationEvent) :
    Leaves n p (revokeCallback cap ev) fun r q =>
      r = .done ∧ ∃ answer, revokeGrantEvent cap p ev = .ok (answer, q) := by
  unfold Leaves revokeCallback
  apply (opened_tracks n).read_bind fun _ => trivial
  apply check_followed
  intro hroom
  apply (opened_tracks n).write_bind
  intro answer q hput
  apply (opened_tracks n).read_bind fun _ => trivial
  apply Attempt.Triple.pure
  intro s hs
  refine ⟨rfl, answer, ?_⟩
  rw [Bool.or_eq_true, decide_eq_true_eq, decide_eq_true_eq] at hroom
  rw [revokeGrantEvent, if_neg (by rintro ⟨hnew, hfull⟩; exact hroom.elim hnew (by omega)), hput,
    hs.project]

/-- What a callback leaves may be said less precisely. -/
theorem Leaves.mono {m : TxCallback} {post post' : TxReply → Project → Prop}
    (h : Leaves n p m post) (hpost : ∀ r q, post r q → post' r q) : Leaves n p m post' :=
  h.weaken (fun _ hs => hs) (fun r s hs => hpost r s.project hs) fun _ _ hs => hs

end Callbacks

section Steps

open Relation

variable {n : Nat} {project : String} {digest : VoidRequest → String → String} {revocation : Bool}
  {sealVoid : Project → VoidRequest → String → Option Record} {s : RecoverySys} {S : Sealer}
  {c : GrantCall} {i : Issuance}

/-- A fence that commits is a step of the run. -/
theorem fence_step {v : VoidRequest} (hproject : v.projectId = project) :
    Leaves n s.p (v.fenceCallback digest) fun _ q =>
      ∃ f, RecoveryStep project digest revocation sealVoid s
        { s with p := q, fenced := f :: s.fenced } := by
  apply (fence_leaves digest v).mono
  rintro r q ⟨-, f, hf⟩
  exact ⟨f, .fence v f q hproject hf⟩

/-- So is what answers a request that is in flight. -/
theorem reconcile_step {buildVoid : VoidRequest → String → Option CanonValue} (hp : s.p.RowInv)
    {h : Fenced} (hmem : h ∈ s.fenced) :
    Leaves n s.p (h.reconcileCallback revocation buildVoid S) fun _ q =>
      ∃ r, RecoveryStep project digest revocation (sealVoidOf buildVoid S) s
        { s with p := q, answered := (h.request, r) :: s.answered } := by
  apply (reconcile_leaves revocation buildVoid S hp h).mono
  rintro _ q ⟨r, hr⟩
  exact ⟨r, .reconcile h r q hmem hr⟩

/-- A grant in one phase takes one step or none. -/
theorem grant_step (hp : s.p.RowInv) (hi : c.Issues S i) :
    Leaves n s.p (c.callback S) fun _ q =>
      ReflTransGen (RecoveryStep project digest revocation sealVoid) s { s with p := q } := by
  apply (grant_leaves hp hi).mono
  rintro r q (hissue | ⟨-, rfl⟩)
  · exact .single (.issue i q hissue)
  · exact .refl

/-- A grant that is minted elsewhere issues or reserves. -/
theorem native_step (hp : s.p.RowInv) (hi : c.Issues S i)
    (hplain : ∀ seq b, c.build seq = some b → b.2 = []) :
    Leaves n s.p (c.native S) fun _ q =>
      RecoveryStep project digest revocation sealVoid s { s with p := q } := by
  apply (native_leaves hp hi hplain).mono
  rintro r q (hissue | ⟨row, answer, -, hdraw⟩)
  · exact .issue i q hissue
  · exact .reserve c.grantId answer q (hi.grant ▸ i.named) hdraw

/-- The second phase of a grant does so too, and then drops what was pending. -/
theorem finalize_step {c : PendingCall} (hp : s.p.RowInv) (hi : c.grant.Issues S i)
    (seen : List UInt8) (proofInTime : Bool) :
    Leaves n s.p (c.finalize S seen proofInTime) fun _ q =>
      ReflTransGen (RecoveryStep project digest revocation sealVoid) s { s with p := q } := by
  apply (finalize_leaves hp hi seen proofInTime).mono
  rintro r q (⟨-, rfl⟩ | ⟨q', rfl, hmade⟩)
  · exact .refl
  · have hfirst : RecoveryStep project digest revocation sealVoid s { s with p := q' } := by
      rcases hmade with hissue | ⟨row, answer, -, hdraw⟩
      · exact .issue i q' hissue
      · exact .reserve c.grant.grantId answer q' (hi.grant ▸ i.named) hdraw
    exact (ReflTransGen.single hfirst).tail
      (.call (.deletePendingGrant c.grant.idem) fun o h => by cases h)

/-- A revocation is a call of no concern to the numbers. -/
theorem revoke_step (cap : Nat) (ev : RevocationEvent) :
    Leaves n s.p (revokeCallback cap ev) fun _ q =>
      RecoveryStep project digest revocation sealVoid s { s with p := q } := by
  apply (revoke_leaves cap ev).mono
  rintro r q ⟨-, answer, hok⟩
  have hput : s.p.putRevocationEvent ev = .ok (answer, q) := by
    unfold revokeGrantEvent at hok
    split_ifs at hok
    cases h : s.p.putRevocationEvent ev with
    | error e =>
      rw [h] at hok
      cases hok
    | ok a =>
      rw [h] at hok
      rw [Except.ok.inj hok]
  have hcall : s.p.call (.putRevocationEvent ev) = q := by rw [Project.call, hput]; rfl
  rw [← hcall]
  exact .call (.putRevocationEvent ev) fun o h => by cases h

end Steps

end Averin
