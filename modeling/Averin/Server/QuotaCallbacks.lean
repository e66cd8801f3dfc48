import Averin.Server.ProjectTx

/-!
# Callbacks within the quota

Rows are written first and counted afterwards, so the limit holds only because every callback that
is told of one row too many ends with an error. This is shown of each of them, from what the
operations of the counting store do.
-/

namespace Averin

open CountedStore hiding sealAndStore putRecord

/-- A row that is answered as one that was there was there. -/
def TxReply.FromStore (p : Project) (r : TxReply) : Prop :=
  ∀ row, r = .existing row → ∃ rec ∈ p.records, rec.json = row

/-- A callback counts the rows it writes. It ends without an error only within the limit, and
reports the limit only if the project would go past it and no row answers the request. -/
def CountsRows (n : Nat) (p : Project) (answer : Option Record) (m : TxCallback) : Prop :=
  Attempt.Triple (Untouched n p) m (fun r s => Counting n p s ∧ r.FromStore p)
    (Failed n p answer (·.FromStore p))

section Rules

variable {n : Nat} {p : Project} {answer : Option Record} {α β : Type} {P : CountedStore → Prop}
  {post : α → CountedStore → Prop} {ok : TxReply → Prop}

/-- What was built is at hand, or nothing was marked. -/
theorem orAbort_bind (hmark : ∀ s, P s → s.hit = false) {o : Option β}
    {f : β → Callback TxReply α}
    (h : ∀ b, o = some b → Attempt.Triple P (f b) post (Failed n p answer ok)) :
    Attempt.Triple P (orAbort o >>= f) post (Failed n p answer ok) := by
  intro s hs
  cases o with
  | none => exact hmark s hs
  | some b => exact h b rfl s hs

/-- What was checked holds, or nothing was marked. -/
theorem check_bind (hmark : ∀ s, P s → s.hit = false) {b : Bool} {f : Unit → Callback TxReply α}
    (h : b = true → Attempt.Triple P (f ()) post (Failed n p answer ok)) :
    Attempt.Triple P (check b >>= f) post (Failed n p answer ok) := by
  intro s hs
  cases b with
  | false => exact hmark s hs
  | true => exact h rfl s hs

/-- A conflict is decided with everything counted. -/
theorem onConflict_spec {m h : Callback TxReply α}
    (hm : Attempt.Triple P m post (Failed n p answer ok))
    (hh : Attempt.Triple (Counting n p) h post (Failed n p answer ok)) :
    Attempt.Triple P (onConflict m h) post (Failed n p answer ok) := by
  unfold onConflict
  apply Attempt.Triple.tryCatch hm
  intro e
  cases e with
  | store e =>
    cases e with
    | recordIDConflict => exact hh
    | _ => exact Attempt.Triple.throw fun _ hs => hs
  | _ => exact Attempt.Triple.throw fun _ hs => hs

/-- What is read before anything is written. -/
theorem read_bind {f : Project → β} {g : β → Callback TxReply α}
    (h : ∀ b, Attempt.Triple (Untouched n p) (g b) post (Failed n p answer ok)) :
    Attempt.Triple (Untouched n p) (read f >>= g) post (Failed n p answer ok) := by
  apply Attempt.Triple.bind (read_spec untouched_steady fun s hs => hs.unmarked)
  intro b s hs
  exact h b s hs.2

/-- Reading afterwards counts nothing. -/
theorem readAfter_bind {f : Project → β} {g : β → Callback TxReply α}
    (h : ∀ b, Attempt.Triple (Counting n p) (g b) post (Failed n p answer ok)) :
    Attempt.Triple (Counting n p) (read f >>= g) post (Failed n p answer ok) := by
  apply Attempt.Triple.bind (read_spec counting_steady fun s hs => hs.unmarked)
  intro b s hs
  exact h b s hs.2

/-- What holds wherever the rows are counted holds before anything is written. -/
theorem of_counting {m : Callback TxReply α}
    (h : Attempt.Triple (Counting n p) m post (Failed n p answer ok)) :
    Attempt.Triple (Untouched n p) m post (Failed n p answer ok) :=
  h.weaken (fun _ hs => hs.toCounting) (fun _ _ h => h) (fun _ _ h => h)

/-- What is read of the rows before anything is written is what the transaction began with. -/
theorem rows_bind {f : Project → β} (hf : ∀ q q', q.rowTable = q'.rowTable → f q = f q')
    {g : β → Callback TxReply α}
    (h : Attempt.Triple (Untouched n p) (g (f p)) post (Failed n p answer ok)) :
    Attempt.Triple (Untouched n p) (read f >>= g) post (Failed n p answer ok) := by
  apply Attempt.Triple.bind (read_spec untouched_steady fun s hs => hs.unmarked)
  rintro b s ⟨rfl, hs⟩
  rw [hf _ _ hs.same]
  exact h s hs

/-- What is read before anything is written, with what it says of the rows. -/
theorem fact_bind {f : Project → β} {fact : β → Prop}
    (hfact : ∀ q, q.rowTable = p.rowTable → fact (f q)) {g : β → Callback TxReply α}
    (h : ∀ b, fact b → Attempt.Triple (Untouched n p) (g b) post (Failed n p answer ok)) :
    Attempt.Triple (Untouched n p) (read f >>= g) post (Failed n p answer ok) := by
  apply Attempt.Triple.bind (read_spec untouched_steady fun s hs => hs.unmarked)
  rintro b s ⟨rfl, hs⟩
  exact h _ (hfact _ hs.same) s hs

/-- Drawing a number writes no row. -/
theorem drawSeq_spec (grantId : String) :
    Attempt.Triple (Untouched n p) (drawSeq grantId) (fun _ => Untouched n p)
      (Failed n p answer ok) := by
  unfold drawSeq
  apply Attempt.Triple.bind (write_untouched (leavesRows_allocateBrokerSeq grantId))
  rintro ⟨seq, fresh⟩
  exact check_bind (fun s hs => hs.unmarked) fun _ => Attempt.Triple.pure fun _ hs => hs

/-- What a key finds depends on the rows only. -/
theorem recordByIdem_congr (idem : String) (q q' : Project) (h : q.rowTable = q'.rowTable) :
    q.recordByIdem idem = q'.recordByIdem idem := by
  unfold Project.recordByIdem
  rw [show q.records = q'.records from congrArg Prod.fst h,
    show q.idem = q'.idem from congrArg (·.2.1) h]

theorem recordByRecordID_congr (recordId : String) (q q' : Project)
    (h : q.rowTable = q'.rowTable) : q.recordByRecordID recordId = q'.recordByRecordID recordId :=
  congrArg (fun t => t.1.find? (recordIDOf ·.json = recordId)) h

theorem mem_of_recordByIdem {idem : String} {r : Record} (h : p.recordByIdem idem = some r) :
    r ∈ p.records := by
  obtain ⟨i, -, hi⟩ := Option.bind_eq_some_iff.mp h
  exact List.mem_of_getElem? hi

/-- A lookup of a key finds a row that was there, or none is. -/
theorem byIdem_bind {idem : String} {g : Option Record → Callback TxReply α}
    (hsome : ∀ r, r ∈ p.records → p.recordByIdem idem = some r →
      Attempt.Triple (Untouched n p) (g (some r)) post (Failed n p answer ok))
    (hnone : p.recordByIdem idem = none →
      Attempt.Triple (Untouched n p) (g none) post (Failed n p answer ok)) :
    Attempt.Triple (Untouched n p) (read (·.recordByIdem idem) >>= g) post
      (Failed n p answer ok) := by
  apply rows_bind (recordByIdem_congr idem)
  rcases h : p.recordByIdem idem with _ | r
  · exact hnone h
  · exact hsome r (mem_of_recordByIdem h) h

/-- A sealed body is stored and counted, or a row that was there answers. -/
theorem seal_counts {S : Sealer} {sessionId idem : String} {body : CanonValue}
    {disclosures : List DisclosureSecret} (hp : p.RowInv)
    (hfree : p.known idem = none → answer = none) :
    Attempt.Triple (Untouched n p) (CountedStore.sealAndStore S sessionId idem body disclosures)
      (fun a s => (a.2 = false → ∃ r ∈ p.records, r.json = a.1) ∧ Counting n p s)
      (Failed n p answer ok) := by
  apply (sealAndStore_spec S sessionId body disclosures hp hfree).weaken
  · exact fun s hs => hs
  · rintro ⟨row, created⟩ s (⟨rfl, hs⟩ | ⟨rfl, hs, hin⟩)
    · exact ⟨fun h => (by cases h), hs⟩
    · exact ⟨fun _ => hin, hs.toCounting⟩
  · exact fun _ _ h => h

/-- What is sealed and stored is counted. -/
theorem seal_bind {S : Sealer} {sessionId idem : String} {body : CanonValue}
    {disclosures : List DisclosureSecret} (hp : p.RowInv)
    (hfree : p.known idem = none → answer = none) {g : CanonValue × Bool → Callback TxReply α}
    (h : ∀ row created, (created = false → ∃ r ∈ p.records, r.json = row) →
      Attempt.Triple (Counting n p) (g (row, created)) post (Failed n p answer ok)) :
    Attempt.Triple (Untouched n p)
      (CountedStore.sealAndStore S sessionId idem body disclosures >>= g) post
      (Failed n p answer ok) := by
  apply Attempt.Triple.bind (seal_counts hp hfree)
  rintro ⟨row, created⟩
  exact Attempt.Triple.of_fact (h row created)

/-- What is written after the row leaves the rows alone. -/
theorem write_bind {f : Project → Except StoreError (β × Project)} (hf : LeavesRows f)
    {g : β → Callback TxReply α}
    (h : ∀ b, Attempt.Triple (Counting n p) (g b) post (Failed n p answer ok)) :
    Attempt.Triple (Counting n p) (write f >>= g) post (Failed n p answer ok) :=
  Attempt.Triple.bind (write_counting hf) h

theorem settled_stored {row : CanonValue} {created : Bool}
    (hin : created = false → ∃ r ∈ p.records, r.json = row) {s : CountedStore}
    (hs : Counting n p s) : Counting n p s ∧ (TxReply.stored row created).FromStore p := by
  refine ⟨hs, ?_⟩
  cases created with
  | true => exact fun _ hrow => by cases hrow
  | false =>
    intro row' hrow
    obtain rfl := TxReply.existing.inj hrow
    exact hin rfl

theorem settled_existing {r : Record} (hr : r ∈ p.records) {s : CountedStore}
    (hs : Counting n p s) : Counting n p s ∧ (TxReply.existing r.json).FromStore p := by
  refine ⟨hs, ?_⟩
  intro row hrow
  obtain rfl := TxReply.existing.inj hrow
  exact ⟨r, hr, rfl⟩

theorem settled_created {row : CanonValue} {s : CountedStore} (hs : Counting n p s) :
    Counting n p s ∧ (TxReply.created row).FromStore p :=
  ⟨hs, fun _ hrow => by cases hrow⟩

theorem settled_declined {s : CountedStore} (hs : Counting n p s) :
    Counting n p s ∧ TxReply.declined.FromStore p :=
  ⟨hs, fun _ hrow => by cases hrow⟩

theorem settled_done {s : CountedStore} (hs : Counting n p s) :
    Counting n p s ∧ TxReply.done.FromStore p :=
  ⟨hs, fun _ hrow => by cases hrow⟩

end Rules

section Callbacks

variable {n : Nat} {p : Project} {S : Sealer}

theorem ingest_counts (hp : p.RowInv) (c : IngestCall) :
    CountsRows n p (p.known c.idem) (c.callback S) := by
  unfold CountsRows IngestCall.callback
  apply seal_bind hp id
  intro row created hin
  exact Attempt.Triple.pure fun s hs => settled_stored hin hs

theorem refusal_counts (hp : p.RowInv) (c : RefusalCall) :
    CountsRows n p (p.recordByIdem c.idem) (c.callback S) := by
  unfold CountsRows RefusalCall.callback
  apply byIdem_bind
  · intro r hr _
    exact Attempt.Triple.pure fun s hs => settled_existing hr hs.toCounting
  · intro hnone
    apply seal_bind hp fun _ => hnone
    intro row created hin
    exact Attempt.Triple.pure fun s hs => settled_stored hin hs

theorem grant_counts (hp : p.RowInv) (c : GrantCall) :
    CountsRows n p (p.recordByIdem c.idem) (c.callback S) := by
  unfold CountsRows GrantCall.callback
  apply byIdem_bind
  · intro r hr _
    apply orAbort_bind fun s hs => hs.unmarked
    intro same _
    cases same with
    | true => exact Attempt.Triple.pure fun s hs => settled_existing hr hs.toCounting
    | false => exact Attempt.Triple.pure fun s hs => settled_declined hs.toCounting
  · intro hnone
    apply check_bind fun s hs => hs.unmarked
    intro _
    apply Attempt.Triple.bind (drawSeq_spec c.grantId)
    intro seq
    apply orAbort_bind fun s hs => hs.unmarked
    rintro ⟨body, disclosures⟩ _
    apply seal_bind hp fun _ => hnone
    intro row created _
    apply check_bind fun s hs => hs.unmarked
    intro _
    exact Attempt.Triple.pure fun s hs => settled_created hs

theorem native_counts (hp : p.RowInv) (c : GrantCall) :
    CountsRows n p (p.recordByIdem c.idem) (c.native S) := by
  unfold CountsRows GrantCall.native
  apply byIdem_bind
  · intro r hr _
    exact Attempt.Triple.pure fun s hs => settled_existing hr hs.toCounting
  · intro hnone
    apply Attempt.Triple.bind (drawSeq_spec c.grantId)
    intro seq
    apply orAbort_bind fun s hs => hs.unmarked
    rintro ⟨body, disclosures⟩ _
    apply seal_bind hp fun _ => hnone
    intro row created hin
    exact Attempt.Triple.pure fun s hs => settled_stored hin hs

theorem keep_counts {answer : Option Record} (c : PendingCall) :
    CountsRows n p answer c.keep := by
  unfold CountsRows PendingCall.keep
  apply orAbort_bind fun s hs => hs.unmarked
  intro row _
  apply Attempt.Triple.bind (write_untouched (leavesRows_putPendingGrant _ row))
  rintro ⟨winning, fresh⟩
  apply orAbort_bind fun s hs => hs.unmarked
  intro proof _
  apply Attempt.Triple.pure
  intro s hs
  split_ifs
  · exact settled_done hs.toCounting
  · exact settled_declined hs.toCounting

theorem prepare_counts {answer : Option Record} (c : PendingCall) :
    CountsRows n p answer c.prepare := by
  unfold CountsRows PendingCall.prepare
  apply byIdem_bind
  · intro r hr _
    apply Attempt.Triple.pure
    intro s hs
    split_ifs
    · exact settled_existing hr hs.toCounting
    · exact settled_declined hs.toCounting
  · intro _
    apply read_bind
    intro fenced
    split_ifs
    · exact Attempt.Triple.throw fun s hs => hs.unmarked
    · exact Attempt.Triple.pure fun s hs => settled_declined hs.toCounting
    · apply read_bind
      rintro (_ | row)
      · exact keep_counts c
      · apply read_bind
        intro live
        split_ifs
        · apply orAbort_bind fun s hs => hs.unmarked
          intro proof _
          apply Attempt.Triple.pure
          intro s hs
          split_ifs
          · exact settled_done hs.toCounting
          · exact settled_declined hs.toCounting
        · apply Attempt.Triple.bind (write_untouched (leavesRows_deletePendingGrant _))
          intro _
          exact keep_counts c

theorem finalize_counts (hp : p.RowInv) (c : PendingCall) (seen : List UInt8)
    (proofInTime : Bool) :
    CountsRows n p (p.recordByIdem c.grant.idem) (c.finalize S seen proofInTime) := by
  unfold CountsRows PendingCall.finalize
  apply byIdem_bind
  · intro r hr _
    apply Attempt.Triple.pure
    intro s hs
    split_ifs
    · exact settled_existing hr hs.toCounting
    · exact settled_declined hs.toCounting
  · intro hnone
    have hdeclined : Attempt.Triple (Untouched n p) (pure .declined)
        (fun r s => Counting n p s ∧ TxReply.FromStore p r)
        (Failed n p (p.recordByIdem c.grant.idem) (TxReply.FromStore p)) :=
      Attempt.Triple.pure fun s hs => settled_declined hs.toCounting
    apply read_bind
    rintro (_ | row)
    · exact hdeclined
    · dsimp only
      by_cases hseen : row.payload ≠ seen
      · rw [if_pos hseen]
        exact hdeclined
      · rw [if_neg hseen]
        apply read_bind
        intro live
        split_ifs
        · exact hdeclined
        · exact hdeclined
        · apply Attempt.Triple.bind (drawSeq_spec c.grant.grantId)
          intro seq
          apply orAbort_bind fun s hs => hs.unmarked
          rintro ⟨body, disclosures⟩ _
          apply seal_bind hp fun _ => hnone
          intro row created hin
          apply write_bind (leavesRows_deletePendingGrant _)
          intro _
          exact Attempt.Triple.pure fun s hs => settled_stored hin hs

theorem denial_counts (hp : p.RowInv) (c : DenialCall) :
    CountsRows n p (p.recordByIdem c.requestIdem) (c.callback S) := by
  unfold CountsRows DenialCall.callback
  apply byIdem_bind
  · intro _ _ _
    exact Attempt.Triple.pure fun s hs => settled_declined hs.toCounting
  · intro hnone
    apply Attempt.Triple.bind (sealAndStore_spec S _ _ _ hp fun _ => hnone)
    rintro ⟨stored, created⟩ s (⟨rfl, hs⟩ | ⟨rfl, hs, r, hr, rfl⟩)
    · exact settled_created hs
    · dsimp only
      rw [if_neg Bool.false_ne_true]
      split_ifs
      · exact settled_existing hr hs.toCounting
      · refine seal_bind hp (fun _ => hnone) ?_ s hs
        intro row fresh _
        apply check_bind fun s hs => hs.unmarked
        intro _
        exact Attempt.Triple.pure fun s hs => settled_created hs

theorem revoke_counts {answer : Option Record} (cap : Nat) (ev : RevocationEvent) :
    CountsRows n p answer (revokeCallback cap ev) := by
  unfold CountsRows revokeCallback
  apply read_bind
  intro ids
  apply check_bind fun s hs => hs.unmarked
  intro _
  apply Attempt.Triple.bind (write_untouched (leavesRows_putRevocationEvent ev))
  intro _
  apply read_bind
  intro _
  exact Attempt.Triple.pure fun s hs => settled_done hs.toCounting

theorem checkpoint_counts {answer : Option Record} (cut : Project → Option Checkpoint) :
    CountsRows n p answer (checkpointCallback cut) := by
  unfold CountsRows checkpointCallback
  apply read_bind
  intro found
  apply orAbort_bind fun s hs => hs.unmarked
  intro cp _
  apply Attempt.Triple.bind (write_untouched (leavesRows_putCheckpoint cp))
  intro _
  exact Attempt.Triple.pure fun s hs => settled_done hs.toCounting

theorem fence_counts {answer : Option Record} (digest : VoidRequest → String → String)
    (v : VoidRequest) : CountsRows n p answer (v.fenceCallback digest) := by
  unfold CountsRows VoidRequest.fenceCallback
  apply read_bind
  intro found
  apply orAbort_bind fun s hs => hs.unmarked
  rintro ⟨grantId, voided⟩ _
  apply read_bind
  intro prior
  apply check_bind fun s hs => hs.unmarked
  intro _
  apply Attempt.Triple.bind (write_untouched (leavesRows_putRecoveryFence _))
  intro _
  exact Attempt.Triple.pure fun s hs => settled_done hs.toCounting

theorem markVoid_counts {answer : Option Record} {ok : TxReply → Prop} (revocation : Bool)
    (h : Fenced) : Attempt.Triple (Counting n p) (h.markVoid revocation) (fun _ => Counting n p)
      (Failed n p answer ok) := by
  have hdone : Attempt.Triple (Counting n p) (pure () : Callback TxReply Unit)
      (fun _ => Counting n p) (Failed n p answer ok) := Attempt.Triple.pure fun _ hs => hs
  unfold Fenced.markVoid
  dsimp only
  split_ifs
  · apply write_bind (leavesRows_voidBrokerSeq _ _)
    intro _
    apply write_bind (leavesRows_putRevocationEvent _)
    exact fun _ => hdone
  · apply write_bind (leavesRows_voidBrokerSeq _ _)
    exact fun _ => hdone
  · apply write_bind (leavesRows_putRevocationEvent _)
    exact fun _ => hdone
  · exact hdone

theorem putResult_counts {answer : Option Record} {ok : TxReply → Prop} (h : Fenced)
    (outcome : String) (winner : Record) :
    Attempt.Triple (Counting n p) (h.putResult outcome winner) (fun _ => Counting n p)
      (Failed n p answer ok) := by
  unfold Fenced.putResult
  exact write_bind (leavesRows_putRecoveryResult _) fun _ => Attempt.Triple.pure fun _ hs => hs

theorem reconcile_counts (hp : p.RowInv) (revocation : Bool)
    (buildVoid : VoidRequest → String → Option CanonValue) (h : Fenced) :
    CountsRows n p (p.recordByRecordID h.grantId)
      (h.reconcileCallback revocation buildVoid S) := by
  unfold CountsRows Fenced.reconcileCallback
  apply read_bind
  intro found
  apply orAbort_bind fun s hs => hs.unmarked
  intro current _
  apply check_bind fun s hs => hs.unmarked
  intro _
  apply read_bind
  rintro (_ | done)
  · apply rows_bind (recordByRecordID_congr h.grantId)
    rcases hwinner : p.recordByRecordID h.grantId with _ | winner
    · apply read_bind
      intro taken
      apply check_bind fun s hs => hs.unmarked
      intro _
      apply orAbort_bind fun s hs => hs.unmarked
      intro body _
      apply seal_bind hp fun _ => rfl
      intro row created hin
      apply readAfter_bind
      intro found
      apply orAbort_bind fun s hs => hs.unmarked
      intro winner _
      apply check_bind fun s hs => hs.unmarked
      intro _
      apply Attempt.Triple.bind (markVoid_counts revocation h)
      intro _
      apply Attempt.Triple.bind (putResult_counts h "voided" winner)
      intro _
      exact Attempt.Triple.pure fun s hs => settled_stored hin hs
    · have hin : winner ∈ p.records := List.mem_of_find?_eq_some hwinner
      apply of_counting
      dsimp only
      split_ifs
      · apply Attempt.Triple.bind (markVoid_counts revocation h)
        intro _
        apply Attempt.Triple.bind (putResult_counts h "voided" winner)
        intro _
        exact Attempt.Triple.pure fun s hs => settled_existing hin hs
      · apply check_bind fun s hs => hs.unmarked
        intro _
        apply Attempt.Triple.bind (putResult_counts h "recorded" winner)
        intro _
        exact Attempt.Triple.pure fun s hs => settled_existing hin hs
  · apply rows_bind (recordByRecordID_congr h.grantId)
    rcases hwinner : p.recordByRecordID h.grantId with _ | winner
    · exact Attempt.Triple.pure fun s hs => settled_done hs.toCounting
    · have hin : winner ∈ p.records := List.mem_of_find?_eq_some hwinner
      exact Attempt.Triple.pure fun s hs => settled_existing hin hs.toCounting

variable {ed : Ed25519} (C : ResourceCore ed)

/-- What a use begins with says of the rows: an answer is a row that is there, and a use that goes
on found none. -/
def UseStart.Found (q : Project) (idem : String) : UseStart → Prop
  | .answered record _ => ∃ r ∈ q.records, r.json = record
  | .consume _ _ => q.recordByIdem idem = none
  | _ => True

/-- What a use finds before it starts. -/
theorem startUse_found (q : Project) (u : UseInvocation) (commitment : String) :
    (C.startUse q u commitment).Found q u.request.idem := by
  unfold ResourceCore.startUse
  dsimp only
  rcases hprior : q.recordByIdem u.request.idem with _ | prior
  · dsimp only
    split
    · trivial
    · split_ifs
      · trivial
      · split
        · trivial
        · exact hprior
  · dsimp only
    split_ifs
    · exact ⟨prior, mem_of_recordByIdem hprior, rfl⟩
    · trivial

theorem UseStart.Found.congr {q : Project} {idem : String} {start : UseStart}
    (h : start.Found q idem) (hq : q.rowTable = p.rowTable) : start.Found p idem := by
  cases start with
  | answered record grantId =>
    obtain ⟨r, hr, hjson⟩ := h
    have hrecords : q.records = p.records := congrArg Prod.fst hq
    exact ⟨r, hrecords ▸ hr, hjson⟩
  | consume c claim => exact (recordByIdem_congr idem q p hq).symm.trans h
  | conflict | refused => trivial

theorem throw_declined {α : Type} {answer : Option Record} {post : α → CountedStore → Prop} :
    Attempt.Triple (Counting n p) (throw (.decided .declined) : Callback TxReply α) post
      (Failed n p answer (TxReply.FromStore p)) :=
  Attempt.Triple.throw fun _ hs => ⟨hs.unmarked, fun _ hrow => by cases hrow⟩

/-- A receipt that collapsed is decided: it is answered with the row or turned away. -/
theorem decided_spec {answer : Option Record} {stored : CanonValue}
    (hin : ∃ r ∈ p.records, r.json = stored) (same : Bool) :
    Attempt.Triple (Counting n p) (if same then throw (.decided (.existing stored))
      else throw (.decided .declined) : TxCallback) (fun r s => Counting n p s ∧ r.FromStore p)
      (Failed n p answer (TxReply.FromStore p)) := by
  cases same with
  | true =>
    apply Attempt.Triple.throw
    intro s hs
    refine ⟨hs.unmarked, ?_⟩
    intro row hrow
    obtain rfl := TxReply.existing.inj hrow
    exact hin
  | false => exact throw_declined

theorem use_counts (hp : p.RowInv) (u : UseInvocation) (commitment : String)
    (claims : Table LedgerKey String) :
    CountsRows n p (p.recordByIdem u.request.idem) (C.useCallback u commitment claims) := by
  unfold CountsRows ResourceCore.useCallback
  dsimp only
  have hdeclined : ∀ {answer : Option Record}, Attempt.Triple (Untouched n p) (pure .declined)
      (fun r s => Counting n p s ∧ TxReply.FromStore p r)
      (Failed n p answer (TxReply.FromStore p)) :=
    Attempt.Triple.pure fun s hs => settled_declined hs.toCounting
  apply fact_bind (fun q hq => (startUse_found C q u commitment).congr hq)
  intro start hfound
  cases start with
  | answered record grantId =>
    obtain ⟨r, hr, rfl⟩ := hfound
    exact Attempt.Triple.pure fun s hs => settled_existing hr hs.toCounting
  | conflict => exact hdeclined
  | refused r => exact hdeclined
  | consume c nonce =>
    apply Attempt.Triple.bind (reach_spec untouched_steady fun s hs => hs.unmarked)
    intro _
    split
    · exact hdeclined
    · apply Attempt.Triple.bind (write_untouched leavesRows_allocateAuthorizationOrder)
      intro ordinal
      apply orAbort_bind fun s hs => hs.unmarked
      intro body _
      apply Attempt.Triple.bind
        (onConflict_spec (seal_counts hp fun _ => hfound) throw_declined)
      rintro ⟨stored, created⟩
      apply Attempt.Triple.of_fact
      intro hin
      cases created with
      | true =>
        apply write_bind (leavesRows_putAuthorizationReceipt _)
        intro _
        exact Attempt.Triple.pure fun s hs => settled_created hs
      | false => exact decided_spec (hin rfl) _

theorem introspect_counts (hp : p.RowInv) (u : IntrospectionCall) :
    CountsRows n p (p.recordByIdem u.request.idem) (C.introspectCallback u) := by
  unfold CountsRows ResourceCore.introspectCallback
  dsimp only
  apply byIdem_bind
  · intro r hr _
    apply Attempt.Triple.pure
    intro s hs
    split_ifs
    · exact settled_existing hr hs.toCounting
    · exact settled_declined hs.toCounting
  · intro hnone
    apply read_bind
    rintro (refusal | _)
    · exact Attempt.Triple.pure fun s hs => settled_declined hs.toCounting
    · apply Attempt.Triple.bind (write_untouched leavesRows_allocateAuthorizationOrder)
      intro ordinal
      apply orAbort_bind fun s hs => hs.unmarked
      intro body _
      apply Attempt.Triple.bind
        (onConflict_spec (seal_counts hp fun _ => hnone) throw_declined)
      rintro ⟨stored, created⟩
      apply Attempt.Triple.of_fact
      intro hin
      cases created with
      | true =>
        apply write_bind (leavesRows_putAuthorizationReceipt _)
        intro _
        exact Attempt.Triple.pure fun s hs => settled_created hs
      | false => exact decided_spec (hin rfl) _

theorem outcome_counts (hp : p.RowInv) (u : OutcomeCall) :
    CountsRows n p (p.recordByIdem u.request.idem) (C.outcomeCallback u) := by
  unfold CountsRows ResourceCore.outcomeCallback
  dsimp only
  have hdeclined : ∀ {answer : Option Record}, Attempt.Triple (Untouched n p) (pure .declined)
      (fun r s => Counting n p s ∧ TxReply.FromStore p r)
      (Failed n p answer (TxReply.FromStore p)) :=
    Attempt.Triple.pure fun s hs => settled_declined hs.toCounting
  apply byIdem_bind
  · intro r hr _
    apply Attempt.Triple.pure
    intro s hs
    split_ifs
    · exact settled_existing hr hs.toCounting
    · exact settled_declined hs.toCounting
  · intro hnone
    apply read_bind
    rintro (_ | intent)
    · exact hdeclined
    · apply orAbort_bind fun s hs => hs.unmarked
      intro i _
      by_cases hkind : i.kind ≠ "use_intent"
      · rw [if_pos hkind]
        exact hdeclined
      · rw [if_neg hkind]
        apply read_bind
        intro outcomeDone
        split_ifs
        · exact hdeclined
        · apply check_bind fun s hs => hs.unmarked
          intro _
          apply orAbort_bind fun s hs => hs.unmarked
          intro body _
          have hseal : Attempt.Triple (Untouched n p) (do
              let a ← CountedStore.sealAndStore C.sealer u.request.sessionId u.request.idem body []
              return some a)
              (fun a s => (∀ row, a = some (row, false) → ∃ r ∈ p.records, r.json = row) ∧
                Counting n p s) (Failed n p (p.recordByIdem u.request.idem)
                (TxReply.FromStore p)) := by
            apply seal_bind hp fun _ => hnone
            intro row created hin
            apply Attempt.Triple.pure
            intro s hs
            refine ⟨?_, hs⟩
            intro row' hrow
            obtain ⟨rfl, rfl⟩ := Prod.mk.inj (Option.some.inj hrow)
            exact hin rfl
          apply Attempt.Triple.bind (onConflict_spec hseal
            (Attempt.Triple.pure fun s hs => ⟨fun _ hrow => (by cases hrow), hs⟩))
          rintro (_ | ⟨stored, _ | _⟩)
          · exact Attempt.Triple.pure fun s hs => settled_declined hs.2
          · apply Attempt.Triple.of_fact
            intro hin
            obtain ⟨r, hr, rfl⟩ := hin stored rfl
            dsimp only
            rw [if_neg Bool.false_ne_true]
            split_ifs
            · exact Attempt.Triple.pure fun s hs => settled_existing hr hs
            · exact Attempt.Triple.pure fun s hs => settled_declined hs
          · exact Attempt.Triple.pure fun s hs => settled_created hs.2

end Callbacks

end Averin
