import Averin.Server.QuotaCallbacks

/-!
# The quota of a project

The write transactions of a project, in any order and from any requests. One at a time holds the
project; its callback runs on a private copy, which is committed or thrown away. A project never
holds more rows than its quota, a transaction that was told of one row too many leaves nothing
behind, and a request that an existing row answers is never refused.
-/

namespace Averin

open CountedStore hiding sealAndStore putRecord

/-- The server, as far as its write transactions need it. The limit of rows is that of the core. -/
structure WriteServer (ed : Ed25519) where
  core : ResourceCore ed
  revocationCap : Nat
  revocation : Bool
  digest : VoidRequest → String → String
  buildVoid : VoidRequest → String → Option CanonValue

/-- The write transactions. -/
inductive WriteTx where
  | ingest (c : IngestCall)
  | refusal (c : RefusalCall)
  | grant (c : GrantCall)
  | native (c : GrantCall)
  | prepare (c : PendingCall)
  | finalize (c : PendingCall) (seen : List UInt8) (proofInTime : Bool)
  | denial (c : DenialCall)
  | use (u : UseInvocation) (commitment : String) (claims : Table LedgerKey String)
  | introspect (u : IntrospectionCall)
  | outcome (u : OutcomeCall)
  | fence (v : VoidRequest)
  | reconcile (h : Fenced)
  | revoke (ev : RevocationEvent)
  | checkpoint (cut : Project → Option Checkpoint)

variable {ed : Ed25519} (W : WriteServer ed)

/-- The callback of a request, by its kind. -/
def WriteServer.callback : WriteTx → TxCallback
  | .ingest c => c.callback W.core.sealer
  | .refusal c => c.callback W.core.sealer
  | .grant c => c.callback W.core.sealer
  | .native c => c.native W.core.sealer
  | .prepare c => c.prepare
  | .finalize c seen proofInTime => c.finalize W.core.sealer seen proofInTime
  | .denial c => c.callback W.core.sealer
  | .use u commitment claims => W.core.useCallback u commitment claims
  | .introspect u => W.core.introspectCallback u
  | .outcome u => W.core.outcomeCallback u
  | .fence v => v.fenceCallback W.digest
  | .reconcile h => h.reconcileCallback W.revocation W.buildVoid W.core.sealer
  | .revoke ev => revokeCallback W.revocationCap ev
  | .checkpoint cut => checkpointCallback cut

/-- The row that stands where a transaction would write its own. -/
def WriteTx.answering (p : Project) : WriteTx → Option Record
  | .ingest c => p.known c.idem
  | .refusal c => p.recordByIdem c.idem
  | .grant c | .native c => p.recordByIdem c.idem
  | .prepare c | .finalize c _ _ => p.recordByIdem c.grant.idem
  | .denial c => p.recordByIdem c.requestIdem
  | .use u _ _ => p.recordByIdem u.request.idem
  | .introspect u => p.recordByIdem u.request.idem
  | .outcome u => p.recordByIdem u.request.idem
  | .reconcile h => p.recordByRecordID h.grantId
  | .fence _ | .revoke _ | .checkpoint _ => none

/-- A transaction whose callback has run. `before` is what it began with, `store` what it left. -/
structure OpenTx where
  request : Nat
  tx : WriteTx
  before : Project
  result : Except (TxError TxReply) TxReply
  store : CountedStore

/-- The callback was told that the limit is reached. -/
def OpenTx.refused (t : OpenTx) : Bool := t.store.hit

/-- A transaction that is over, with the project it left. -/
structure ClosedTx extends OpenTx where
  committed : Bool
  after : Project

/-- What the client is answered, unless it is an error. A decided failure is answered as well. -/
def ClosedTx.reply (t : ClosedTx) : Option TxReply :=
  match t.result with
  | .ok r => if t.committed then some r else none
  | .error (.decided r) => some r
  | .error _ => none

/-- The project, the transaction that holds it, the requests whose mark is set, which are answered
as refused, and the transactions that are over. -/
structure WriteSys where
  project : Project
  holder : Option OpenTx := none
  marks : Finset Nat := ∅
  closed : List ClosedTx := []

/-- What happens to a project. A transaction starts for a request, and it ends; whether a commit
goes through is not in its hands. Other writes go past the counting, and write no rows. -/
inductive WriteEvent where
  | start (request : Nat) (tx : WriteTx) (outage : Nat → Bool)
  | finish (commits : Bool)
  | other (c : StoreCall) (hc : ∀ idemKey rec, c ≠ .op (.putRecord idemKey rec))

/-- Run the callback of a transaction on a copy of the project. -/
def WriteServer.startTx (p : Project) (request : Nat) (tx : WriteTx) (outage : Nat → Bool) :
    OpenTx :=
  let (result, store) := (W.callback tx).exec
    { project := p, max := W.core.quota, outage := outage }
  ⟨request, tx, p, result, store⟩

/-- One event. While a transaction holds the project the others wait. -/
def WriteServer.step (s : WriteSys) : WriteEvent → WriteSys
  | .start request tx outage =>
    match s.holder with
    | some _ => s
    | none =>
      let t := W.startTx s.project request tx outage
      { s with
        holder := some t
        marks := if t.refused then insert request s.marks else s.marks }
  | .finish commits =>
    match s.holder with
    | none => s
    | some t =>
      let committed := commits && t.result.isOk
      let after := if committed then t.store.project else s.project
      { s with
        project := after
        holder := none
        closed := s.closed ++ [⟨t, committed, after⟩] }
  | .other c _ =>
    match s.holder with
    | some _ => s
    | none => { s with project := s.project.call c }

/-- The server after some events. -/
def WriteServer.run (s : WriteSys) (events : List WriteEvent) : WriteSys :=
  events.foldl W.step s

variable {W} {p : Project}

/-- Every callback counts its rows. -/
theorem callback_counts {n : Nat} (hp : p.RowInv) (tx : WriteTx) :
    CountsRows n p (tx.answering p) (W.callback tx) := by
  cases tx with
  | ingest c => exact ingest_counts hp c
  | refusal c => exact refusal_counts hp c
  | grant c => exact grant_counts hp c
  | native c => exact native_counts hp c
  | prepare c => exact prepare_counts c
  | finalize c seen proofInTime => exact finalize_counts hp c seen proofInTime
  | denial c => exact denial_counts hp c
  | use u commitment claims => exact use_counts W.core hp u commitment claims
  | introspect u => exact introspect_counts W.core hp u
  | outcome u => exact outcome_counts W.core hp u
  | fence v => exact fence_counts W.digest v
  | reconcile h => exact reconcile_counts hp W.revocation W.buildVoid h
  | revoke ev => exact revoke_counts W.revocationCap ev
  | checkpoint cut => exact checkpoint_counts cut

/-- A transaction begins with the project untouched. -/
theorem untouched_start (n : Nat) (hp : p.RowInv) (outage : Nat → Bool) :
    Untouched n p { project := p, max := n, outage := outage } where
  limit := rfl
  rows := hp
  later := Project.RowsLater.refl p
  count := (Int.add_zero _).symm
  base _ h := by cases h
  unmarked := rfl
  counted _ _ := rfl
  within _ h := h
  same := rfl

/-- What a transaction that ran says: it returned with its rows counted, it decided its answer and
was not refused, or it failed, and where it was refused the limit was reached and no row could
have answered. -/
structure OpenTx.Sound (n : Nat) (t : OpenTx) : Prop where
  rows : t.before.RowInv
  returned : ∀ r, t.result = .ok r → Counting n t.before t.store ∧ r.FromStore t.before
  decided : ∀ r, t.result = .error (.decided r) → t.refused = false ∧ r.FromStore t.before
  refused : t.refused = true → t.result = .error .quota ∧
    (n : Int) < t.before.records.length + t.store.created ∧ t.tx.answering t.before = none

/-- Only the limit sets the mark. -/
theorem eq_quota_of_hit {n : Nat} {answer : Option Record} {ok : TxReply → Prop}
    {e : TxError TxReply} {store : CountedStore} (h : Failed n p answer ok e store)
    (hhit : store.hit = true) :
    e = .quota ∧ (n : Int) < p.records.length + store.created ∧ answer = none := by
  have hclash : store.hit = false → False := fun hfalse => Bool.eq_false_iff.mp hfalse hhit
  cases e with
  | quota => exact ⟨rfl, h.2⟩
  | decided r => exact (hclash h.1).elim
  | store e =>
    cases e with
    | recordIDConflict recordId => exact (hclash h.unmarked).elim
    | _ => exact (hclash h).elim
  | _ => exact (hclash h).elim

/-- One that starts is sound. -/
theorem startTx_sound (hp : p.RowInv) (request : Nat) (tx : WriteTx) (outage : Nat → Bool) :
    (W.startTx p request tx outage).Sound W.core.quota := by
  have hrun := callback_counts (W := W) (n := W.core.quota) hp tx _
    (untouched_start W.core.quota hp outage)
  unfold WriteServer.startTx
  rcases hexec : (W.callback tx).exec { project := p, max := W.core.quota, outage := outage } with
    ⟨e | r, store⟩
  · rw [hexec] at hrun
    refine ⟨hp, fun r hr => (by cases hr), ?_, ?_⟩
    · intro r hr
      obtain rfl := Except.error.inj hr
      exact hrun
    · intro hhit
      obtain ⟨rfl, hbeyond⟩ := eq_quota_of_hit hrun hhit
      exact ⟨rfl, hbeyond⟩
  · rw [hexec] at hrun
    refine ⟨hp, ?_, fun r hr => (by cases hr), ?_⟩
    · intro r' hr
      obtain rfl := Except.ok.inj hr
      exact hrun
    · intro hhit
      exact absurd hhit (Bool.eq_false_iff.mp hrun.1.unmarked)

/-- What holds of a transaction that is over. -/
structure ClosedTx.Exact (n : Nat) (t : ClosedTx) : Prop where
  rolledBack : t.refused = true → t.committed = false ∧ t.after = t.before
  beyond : t.refused = true → (n : Int) < t.before.records.length + t.store.created
  within : t.committed = true → t.after.records.length ≤ n ∧
    (t.after.records.length : Int) = t.before.records.length + t.store.created
  fromRow : ∀ row, t.reply = some (.existing row) →
    t.refused = false ∧ ∃ r ∈ t.before.records, r.json = row
  answered : (t.tx.answering t.before).isSome → t.refused = false

/-- One that is sound ends within the limit. -/
theorem OpenTx.Sound.closed {n : Nat} {t : OpenTx} (hn : n ≠ 0) (h : t.Sound n)
    (hlen : t.before.records.length ≤ n) (commits : Bool) :
    ClosedTx.Exact n ⟨t, commits && t.result.isOk,
      if (commits && t.result.isOk) = true then t.store.project else t.before⟩ := by
  have hrefused : t.refused = true → (commits && t.result.isOk) = false := by
    intro hhit
    rw [(h.refused hhit).1]
    exact Bool.and_false _
  refine ⟨?_, fun hhit => (h.refused hhit).2.1, ?_, ?_, ?_⟩
  · intro hhit
    refine ⟨hrefused hhit, ?_⟩
    dsimp only
    rw [hrefused hhit, if_neg Bool.false_ne_true]
  · intro hcommitted
    dsimp only at hcommitted ⊢
    rw [if_pos hcommitted]
    rcases hresult : t.result with e | r
    · rw [hresult, Except.isOk, Except.toBool, Bool.and_false] at hcommitted
      cases hcommitted
    · obtain ⟨hcount, -⟩ := h.returned r hresult
      exact ⟨hcount.within hn hlen, hcount.count⟩
  · intro row hreply
    unfold ClosedTx.reply at hreply
    dsimp only at hreply
    rcases hresult : t.result with e | r
    · rw [hresult] at hreply
      cases e with
      | decided r =>
        obtain rfl := Option.some.inj hreply
        obtain ⟨hhit, hfrom⟩ := h.decided _ hresult
        exact ⟨hhit, hfrom row rfl⟩
      | _ => cases hreply
    · rw [hresult] at hreply
      dsimp only at hreply
      split_ifs at hreply
      obtain rfl := Option.some.inj hreply
      obtain ⟨hcount, hfrom⟩ := h.returned _ hresult
      exact ⟨hcount.unmarked, hfrom row rfl⟩
  · intro hsome
    by_contra hhit
    rw [Bool.not_eq_false] at hhit
    rw [(h.refused hhit).2.2] at hsome
    cases hsome

/-- What holds of a project at any time: its rows are within the limit, who holds it began with it,
and the marked requests are those of the refused transactions. -/
structure QuotaInv (n : Nat) (s : WriteSys) : Prop where
  rows : s.project.RowInv
  bounded : s.project.records.length ≤ n
  held : ∀ t, s.holder = some t → t.Sound n ∧ t.before = s.project
  closed : ∀ t ∈ s.closed, t.Exact n
  marks : ∀ request, request ∈ s.marks ↔ ∃ t, (s.holder = some t ∨ ∃ c ∈ s.closed,
    c.toOpenTx = t) ∧ t.request = request ∧ t.refused = true

variable {s : WriteSys}

theorem QuotaInv.start (h : QuotaInv W.core.quota s) (hfree : s.holder = none) (request : Nat)
    (tx : WriteTx) (outage : Nat → Bool) :
    QuotaInv W.core.quota { s with
      holder := some (W.startTx s.project request tx outage)
      marks := if (W.startTx s.project request tx outage).refused then insert request s.marks
        else s.marks } where
  rows := h.rows
  bounded := h.bounded
  closed := h.closed
  held t ht := by
    obtain rfl := Option.some.inj ht
    exact ⟨startTx_sound h.rows request tx outage, rfl⟩
  marks r := by
    dsimp only
    constructor
    · intro hr
      split_ifs at hr with hrefused
      · rcases Finset.mem_insert.mp hr with rfl | hr
        · exact ⟨_, Or.inl rfl, rfl, hrefused⟩
        · obtain ⟨t, hheld | hclosed, ht⟩ := (h.marks r).mp hr
          · rw [hfree] at hheld
            cases hheld
          · exact ⟨t, Or.inr hclosed, ht⟩
      · obtain ⟨t, hheld | hclosed, ht⟩ := (h.marks r).mp hr
        · rw [hfree] at hheld
          cases hheld
        · exact ⟨t, Or.inr hclosed, ht⟩
    · rintro ⟨t, hheld | hclosed, hrequest, hrefused⟩
      · obtain rfl := Option.some.inj hheld
        obtain rfl : request = r := hrequest
        rw [if_pos hrefused]
        exact Finset.mem_insert_self _ _
      · have hr := (h.marks r).mpr ⟨t, Or.inr hclosed, hrequest, hrefused⟩
        split_ifs
        · exact Finset.mem_insert_of_mem hr
        · exact hr

theorem QuotaInv.finish {n : Nat} (hn : n ≠ 0) (h : QuotaInv n s) {t : OpenTx}
    (ht : s.holder = some t) (commits : Bool) :
    QuotaInv n { s with
      project := if (commits && t.result.isOk) = true then t.store.project else s.project
      holder := none
      closed := s.closed ++ [⟨t, commits && t.result.isOk,
        if (commits && t.result.isOk) = true then t.store.project else s.project⟩] } := by
  obtain ⟨hsound, hbefore⟩ := h.held t ht
  have hexact := hsound.closed hn (hbefore ▸ h.bounded) commits
  rw [hbefore] at hexact
  refine ⟨?_, ?_, fun t ht => (by cases ht), ?_, ?_⟩
  · dsimp only
    split_ifs with hcommitted
    · rcases hresult : t.result with e | r
      · rw [hresult, Except.isOk, Except.toBool, Bool.and_false] at hcommitted
        cases hcommitted
      · exact (hsound.returned r hresult).1.rows
    · exact h.rows
  · dsimp only
    split_ifs with hcommitted
    · have hwithin := (hexact.within hcommitted).1
      rwa [if_pos hcommitted] at hwithin
    · exact h.bounded
  · intro c hc
    rcases List.mem_append.mp hc with hc | hc
    · exact h.closed c hc
    · rw [List.mem_singleton.mp hc]
      exact hexact
  · intro r
    dsimp only
    rw [h.marks r]
    apply exists_congr
    intro t'
    apply and_congr_left
    intro _
    rw [ht]
    constructor
    · rintro (hheld | ⟨c, hc, hct⟩)
      · obtain rfl := Option.some.inj hheld
        exact Or.inr ⟨_, List.mem_append_right _ (List.mem_singleton_self _), rfl⟩
      · exact Or.inr ⟨c, List.mem_append_left _ hc, hct⟩
    · rintro (hheld | ⟨c, hc, rfl⟩)
      · cases hheld
      · rcases List.mem_append.mp hc with hc | hc
        · exact Or.inr ⟨c, hc, rfl⟩
        · rw [List.mem_singleton.mp hc]
          exact Or.inl rfl

theorem QuotaInv.other {n : Nat} (h : QuotaInv n s) (hfree : s.holder = none) {c : StoreCall}
    (hc : ∀ idemKey rec, c ≠ .op (.putRecord idemKey rec)) :
    QuotaInv n { s with project := s.project.call c } where
  rows := (h.rows.call c).1
  bounded := by
    have hrows : (s.project.call c).records = s.project.records :=
      congrArg Prod.fst (Project.rowTable_call c hc)
    dsimp only
    rw [hrows]
    exact h.bounded
  held t ht := by
    rw [hfree] at ht
    cases ht
  closed := h.closed
  marks := h.marks

theorem QuotaInv.step (hn : W.core.quota ≠ 0) (h : QuotaInv W.core.quota s) (e : WriteEvent) :
    QuotaInv W.core.quota (W.step s e) := by
  cases e with
  | start request tx outage =>
    rcases hholder : s.holder with _ | t
    · simp only [WriteServer.step, hholder]
      exact h.start hholder request tx outage
    · simp only [WriteServer.step, hholder]
      exact h
  | finish commits =>
    rcases hholder : s.holder with _ | t
    · simp only [WriteServer.step, hholder]
      exact h
    · simp only [WriteServer.step, hholder]
      exact h.finish hn hholder commits
  | other c hc =>
    rcases hholder : s.holder with _ | t
    · simp only [WriteServer.step, hholder]
      have hother := h.other hholder hc
      rw [hholder] at hother
      exact hother
    · simp only [WriteServer.step, hholder]
      exact h

theorem QuotaInv.run (hn : W.core.quota ≠ 0) (h : QuotaInv W.core.quota s)
    (events : List WriteEvent) : QuotaInv W.core.quota (W.run s events) := by
  induction events generalizing s with
  | nil => exact h
  | cons e events ih => exact ih (h.step hn e)

/-- What a quota promises of a project. -/
structure QuotaExact (n : Nat) (s : WriteSys) : Prop where
  bounded : s.project.records.length ≤ n
  transactions : ∀ t ∈ s.closed, t.Exact n
  marked : ∀ request, request ∈ s.marks ↔ ∃ t, (s.holder = some t ∨ ∃ c ∈ s.closed,
    c.toOpenTx = t) ∧ t.request = request ∧ t.refused = true
  replayed : ∀ request, (∀ t, s.holder = some t → t.request ≠ request) →
    (∀ t ∈ s.closed, t.request = request → ∃ row, t.reply = some (.existing row)) →
      request ∉ s.marks

/-- A project that begins within its quota stays within it, in any order of write transactions of
all kinds, whatever calls of them fail. A transaction that was told of one row too many leaves the
project as it was, and would have taken it past the quota; one that is answered with a row that was
there, or could have been, is not told so; and a request is refused exactly if one of its
transactions was. -/
theorem project_quota_exact {ed : Ed25519} (W : WriteServer ed) (hquota : 0 < W.core.quota)
    (before : List StoreCall)
    (hbefore : (Project.calls {} before).records.length ≤ W.core.quota)
    (events : List WriteEvent) :
    QuotaExact W.core.quota (W.run { project := Project.calls {} before } events) := by
  have hinit : QuotaInv W.core.quota { project := Project.calls {} before } :=
    { rows := (Project.rowInv_empty.calls before).1
      bounded := hbefore
      held := fun t ht => (by cases ht)
      closed := fun t ht => (by cases ht)
      marks := fun r => (by simp) }
  have hinv := hinit.run (Nat.pos_iff_ne_zero.mp hquota) events
  refine ⟨hinv.bounded, hinv.closed, hinv.marks, ?_⟩
  intro request hfree hreplies hmarked
  obtain ⟨t, hheld | ⟨c, hc, rfl⟩, hrequest, hrefused⟩ := (hinv.marks request).mp hmarked
  · exact hfree t hheld hrequest
  · obtain ⟨row, hreply⟩ := hreplies c hc hrequest
    rw [((hinv.closed c hc).fromRow row hreply).1] at hrefused
    cases hrefused

/-- A server whose projects hold one row. -/
def oneRowServer : WriteServer anySig where
  core := { sampleCore with quota := 1 }
  revocationCap := 1
  revocation := false
  digest _ _ := ""
  buildVoid _ _ := none

/-- A record under a key of its own. -/
def rowCall (id : String) : IngestCall where
  sessionId := "s"
  idem := id
  body := .obj [("record_id", .str id), ("project_id", .str "p"), ("session_id", .str "s")]
  disclosures := []

/-- Two records for a project that holds one of them. -/
theorem project_quota_exact_two :
    QuotaExact 1 (oneRowServer.run { project := Project.calls {} [] }
      [.start 0 (.ingest (rowCall "a")) (fun _ => false),
        .finish true,
        .start 1 (.ingest (rowCall "b")) (fun _ => false),
        .finish true]) :=
  project_quota_exact oneRowServer Nat.one_pos [] (Nat.zero_le _) _

end Averin
