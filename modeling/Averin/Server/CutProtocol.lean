import Averin.Checkpoint.SealRoundTrip
import Averin.Server.CutAgreement

/-!
# Servers that cut checkpoints

Servers that share a store write rows and cut checkpoints. A cut is one transaction, unless the
incremental body is due to be compared with the full one: then that transaction is given up, both
bodies are computed from a snapshot, and a second transaction signs what was compared if the latest
checkpoint is still the same. However the steps of the servers interleave, every checkpoint is the
full cut of one project of the run, which had the checkpoints before it and no other.
-/

namespace Averin

/-- A cut that waits for its comparison, and the checkpoint it continues from. -/
structure ShadowDue where
  seq : Int
  hash : String

/-- What was compared, and what the snapshot held. -/
structure ShadowResult where
  body : CanonValue
  baseSeq : Int
  baseHash : String
  count : Nat
  maxSeq : Int

/-- How far a cut is between its transactions. -/
inductive CutJob where
  | due (d : ShadowDue)
  | compared (r : ShadowResult)

/-- The body to sign, or a comparison that comes first. -/
inductive CutAnswer where
  | body (b : CanonValue)
  | shadowDue (d : ShadowDue)

/-- Why no checkpoint is stored. -/
inductive CutRefusal where
  | cut (e : CutError)
  | shadowDue (d : ShadowDue)
  | raced
  | notIncremental
  | mismatch
  | shrank
  | sealing

/-- A call that neither writes a row nor a checkpoint. -/
def StoreCall.other : StoreCall → Bool
  | .op (.putRecord _ _) => false
  | .putCheckpoint _ => false
  | _ => true

/-- What a body asks for as parents: nothing, or the hash of one row. -/
def forcedParents (p : Project) (row : Option Nat) : CanonValue :=
  .arr ((row.bind (p.records[·]?)).toList.map fun r => .str r.contentHash)

/-- The store and the cuts that are under way. -/
structure CutWorld where
  project : Project := {}
  jobs : Table Nat CutJob := ∅

/-- A step of one of the servers. Whether a comparison is due, and whether the full body can be
computed in time, is up to the server. -/
inductive CutAction where
  | store (sessionId idem : String) (body : CanonValue) (row : Option Nat)
      (disclosures : List DisclosureSecret)
  | call (c : StoreCall)
  | start (t : Nat) (created : String) (shadow : Bool)
  | compare (t : Nat) (created : String) (fullRuns : Bool)
  | finish (t : Nat)
  | abandon (t : Nat)

namespace Cutter

variable {ed : Ed25519} (S : Cutter ed)

/-- The first transaction of a cut. -/
def checkpointBodyChecked (p : Project) (created : String) (shadow : Bool) :
    Except CutRefusal CutAnswer := do
  match ← (S.cutBodyIncremental p created).mapError .cut with
  | none => return .body (← (S.cutBodyFull p created).mapError .cut)
  | some body =>
    if shadow then
      let seq := ((body.get "checkpoint_seq").bind CanonValue.asInt).getD 0
      let prev := ((body.get "prev_checkpoint_hash").bind CanonValue.asStr).getD ""
      return .shadowDue ⟨seq - 1, prev⟩
    else return .body body

/-- Compare the incremental body with the full one, where the full one could be computed. Without
it the incremental one is signed unseen. A full computation that refuses is a difference too. -/
def compareShadow (p : Project) (created : String) (body : CanonValue) (fullRuns : Bool) :
    Except CutRefusal CanonValue :=
  if fullRuns then
    match S.cutBodyFull p created with
    | .error e => if e.refuses then .error .mismatch else .ok body
    | .ok full => if body = full then .ok full else .error .mismatch
  else .ok body

/-- The comparison, on a snapshot of the project. -/
def shadowOffLock (p : Project) (d : ShadowDue) (created : String) (fullRuns : Bool) :
    Except CutRefusal ShadowResult :=
  match p.latestCheckpoint with
  | none => .error .raced
  | some l =>
    if l.seq ≠ d.seq ∨ l.checkpointHash ≠ d.hash then .error .raced
    else do
      match ← (S.cutBodyIncremental p created).mapError .cut with
      | none => .error .notIncremental
      | some body =>
        let signed ← S.compareShadow p created body fullRuns
        return ⟨signed, d.seq, d.hash, p.recordCount, p.maxBrokerSeq⟩

/-- Seal a body and store it. -/
def storeCheckpoint (p : Project) (body : CanonValue) : Except CutRefusal Project := do
  let cp ← orFail (S.sealCheckpoint body) .sealing
  return p.putCheckpoint cp

/-- The checks of the second transaction. -/
def checkBase (p : Project) (pre : ShadowResult) : Except CutRefusal Unit :=
  match p.latestCheckpoint with
  | none => .error .raced
  | some l =>
    if l.seq ≠ pre.baseSeq ∨ l.checkpointHash ≠ pre.baseHash ∨
        p.nextCheckpointSeq ≠ pre.baseSeq + 1 then .error .raced
    else if p.recordCount < pre.count ∨ p.maxBrokerSeq < pre.maxSeq then .error .shrank
    else .ok ()

/-- The write transaction of a cut, from nothing or from a comparison. -/
def createCheckpointTx (p : Project) (created : String) (shadow : Bool) :
    (pre : Option ShadowResult) → Except CutRefusal Project
  | none => do
    match ← S.checkpointBodyChecked p created shadow with
    | .shadowDue d => .error (.shadowDue d)
    | .body body => S.storeCheckpoint p body
  | some pre => do
    checkBase p pre
    S.storeCheckpoint p pre.body

/-- One action. -/
def step (s : CutWorld) : CutAction → CutWorld
  | .store sessionId idem body row disclosures =>
    match sealAndStore S.sealer s.project sessionId idem
        (body.withField "causal_prev_hashes" (forcedParents s.project row)) disclosures with
    | .error _ => s
    | .ok (_, p) => { s with project := p }
  | .call c => if c.other then { s with project := s.project.call c } else s
  | .start t created shadow =>
    match S.createCheckpointTx s.project created shadow none with
    | .ok p => { s with project := p }
    | .error (.shadowDue d) => { s with jobs := s.jobs.insert t (.due d) }
    | .error _ => s
  | .compare t created fullRuns =>
    match s.jobs.lookup t with
    | some (.due d) =>
      match S.shadowOffLock s.project d created fullRuns with
      | .ok r => { s with jobs := s.jobs.insert t (.compared r) }
      | .error _ => { s with jobs := s.jobs.erase t }
    | _ => s
  | .finish t =>
    match s.jobs.lookup t with
    | some (.compared r) =>
      match S.createCheckpointTx s.project "" false (some r) with
      | .ok p => { project := p, jobs := s.jobs.erase t }
      | .error _ => { s with jobs := s.jobs.erase t }
    | _ => s
  | .abandon t => { s with jobs := s.jobs.erase t }

/-- A run from the empty store. -/
def run (acts : List CutAction) : CutWorld := acts.foldl S.step {}

variable {S} {p p' : Project} {was : Project → Prop} {created : String} {body : CanonValue}

/-- A success is no other failure. -/
theorem mapError_eq_ok {ε ε' α : Type} {f : ε → ε'} {x : Except ε α} {a : α}
    (h : x.mapError f = .ok a) : x = .ok a := by
  cases x with
  | error e => cases h
  | ok a' => exact congrArg _ (Except.ok.inj h)

/-- There is nothing to continue from before the first checkpoint. -/
theorem cutBodyIncremental_of_nil (h : p.checks = []) (created : String) :
    S.cutBodyIncremental p created = .ok none := by
  rw [cutBodyIncremental, Project.latestCheckpoint, h]
  rfl

/-- An incremental body is the full one. -/
theorem CutInv.full_of_incremental (h : CutInv S was p)
    (hinc : S.cutBodyIncremental p created = .ok (some body)) :
    S.cutBodyFull p created = .ok body := by
  by_cases hne : p.checks = []
  · rw [cutBodyIncremental_of_nil hne] at hinc
    cases hinc
  · rcases cutBodyIncremental_eq h hne created with heq | ⟨e, e', herror, -⟩
    · rw [hinc] at heq
      cases hfull : S.cutBodyFull p created with
      | error e =>
        rw [hfull] at heq
        cases heq
      | ok full =>
        rw [hfull] at heq
        rw [Option.some.inj (Except.ok.inj heq)]
    · rw [hinc] at herror
      cases herror

/-- A body that was checked is the full one. -/
theorem CutInv.full_of_checked (h : CutInv S was p) {shadow : Bool}
    (hbody : S.checkpointBodyChecked p created shadow = .ok (.body body)) :
    S.cutBodyFull p created = .ok body := by
  obtain ⟨inc, hinc, hbody⟩ := bind_eq_ok_iff.mp hbody
  have hinc := mapError_eq_ok hinc
  cases inc with
  | none =>
    obtain ⟨full, hfull, hbody⟩ := bind_eq_ok_iff.mp hbody
    rw [mapError_eq_ok hfull]
    cases hbody
    rfl
  | some b =>
    cases shadow with
    | true => cases hbody
    | false =>
      cases hbody
      exact h.full_of_incremental hinc

/-- A body that is the full one passes the comparison, whether or not it could be made. -/
theorem compareShadow_of_full {fullRuns : Bool} (hfull : S.cutBodyFull p created = .ok body) :
    S.compareShadow p created body fullRuns = .ok body := by
  unfold compareShadow
  split_ifs
  · rw [hfull]
    exact if_pos rfl
  · rfl

/-- A comparison that was made signs the full body of its snapshot, also if it had to go without
that body. -/
theorem CutInv.full_of_shadow (h : CutInv S was p) {d : ShadowDue} {fullRuns : Bool}
    {r : ShadowResult} (hr : S.shadowOffLock p d created fullRuns = .ok r) :
    S.cutBodyFull p created = .ok r.body ∧ ∃ l, p.latestCheckpoint = some l ∧
      l.seq = r.baseSeq := by
  unfold shadowOffLock at hr
  split at hr
  · cases hr
  · next l hlast =>
    split_ifs at hr with hbase
    rw [not_or, not_ne_iff, not_ne_iff] at hbase
    obtain ⟨inc, hinc, hr⟩ := bind_eq_ok_iff.mp hr
    have hinc := mapError_eq_ok hinc
    cases inc with
    | none => cases hr
    | some b =>
      have hfull := h.full_of_incremental hinc
      obtain ⟨signed, hsigned, hr⟩ := bind_eq_ok_iff.mp hr
      cases hr
      refine ⟨?_, l, hlast, hbase.1⟩
      rw [compareShadow_of_full hfull] at hsigned
      cases hsigned
      exact hfull

/-- A body that was compared is the full cut of a project that was there with the checkpoint the
comparison was made for. -/
structure Compared (S : Cutter ed) (was : Project → Prop) (p q : Project) (created : String)
    (r : ShadowResult) : Prop where
  was : was q
  rows : q.RowInv
  records : q.records <+: p.records
  checks : q.checks <+: p.checks
  base : ∃ l, q.latestCheckpoint = some l ∧ l.seq = r.baseSeq
  full : S.cutBodyFull q created = .ok r.body

/-- A row as the server seals it. -/
def Sealed (S : Cutter ed) (r : Record) : Prop :=
  ∃ body, Averin.sealRecord S.N S.sha256 body S.sk = .ok r.json ∧
    body.get "causal_prev_hashes" = some (.arr (r.parents.map .str)) ∧
    r.contentHash = textField r.json "content_hash"

/-- What holds in every state of a run. -/
structure WorldInv (S : Cutter ed) (was : Project → Prop) (s : CutWorld) : Prop where
  cut : CutInv S was s.project
  sealed : ∀ r ∈ s.project.records, S.Sealed r
  compared : ∀ t r, s.jobs.lookup t = some (.compared r) →
    ∃ q created, Compared S was s.project q created r

/-- The invariant holds for more states that were. -/
theorem WorldInv.mono {was' : Project → Prop} {s : CutWorld} (h : WorldInv S was s)
    (hwas : ∀ q, was q → was' q) : WorldInv S was' s where
  cut := { h.cut with
    cuts := fun i cp hcp => (h.cut.cuts i cp hcp).mono hwas List.prefix_rfl rfl }
  sealed := h.sealed
  compared t r hr := by
    obtain ⟨q, created, hq⟩ := h.compared t r hr
    exact ⟨q, created, { hq with was := hwas q hq.was }⟩

/-- A step that adds rows and no checkpoint. -/
theorem WorldInv.rows {s : CutWorld} (h : WorldInv S was s) (hrows : p'.RowInv)
    (hpre : s.project.records <+: p'.records) (hchecks : p'.checks = s.project.checks)
    (hnames : NamesEarlier (·.contentHash) Record.parents p'.records)
    (hsealed : ∀ r ∈ p'.records, S.Sealed r) : WorldInv S was { s with project := p' } where
  cut :=
    { rows := hrows
      names := hnames
      cuts := fun i cp hcp => by
        rw [hchecks] at hcp
        exact (h.cut.cuts i cp hcp).mono (fun _ hq => hq) hpre (by rw [hchecks]) }
  sealed := hsealed
  compared t r hr := by
    obtain ⟨q, created, hq⟩ := h.compared t r hr
    refine ⟨q, created, { hq with records := hq.records.trans hpre, checks := ?_ }⟩
    exact hchecks ▸ hq.checks

/-- A step of the jobs alone. -/
theorem WorldInv.jobs {s : CutWorld} (h : WorldInv S was s) {jobs : Table Nat CutJob}
    (hjobs : ∀ t r, jobs.lookup t = some (.compared r) →
      ∃ q created, Compared S was s.project q created r) :
    WorldInv S was { s with jobs := jobs } where
  cut := h.cut
  sealed := h.sealed
  compared := hjobs

/-- A job that is dropped changes nothing. -/
theorem WorldInv.erase {s : CutWorld} (h : WorldInv S was s) (t : Nat) :
    WorldInv S was { s with jobs := s.jobs.erase t } := by
  apply h.jobs
  intro t' r hr
  by_cases ht : t' = t
  · subst ht
    rw [AList.lookup_erase] at hr
    cases hr
  · rw [AList.lookup_erase_ne ht] at hr
    exact h.compared t' r hr

/-- A checkpoint's number is its place. -/
theorem CutInv.seq_eq (h : CutInv S was p) {i : Nat} {cp : Checkpoint}
    (hcp : p.checks[i]? = some cp) : cp.seq = i := by
  obtain ⟨q, -, -, -, hprior, created, body, hcut, hsealed⟩ := h.cuts i cp hcp
  obtain ⟨prior, head, -, -, hstates⟩ := (fullCut_of_ok hcut).states
  obtain ⟨number, hnumber, hseq⟩ := hstates.seq
  rw [seq_of_sealCheckpoint hsealed, hseq, decodeInt_jsonInt hnumber, Option.getD_some,
    Project.nextCheckpointSeq, hprior, List.length_take]
  have hlt := (List.getElem?_eq_some_iff.mp hcp).1
  omega

/-- Checkpoints have their positions as numbers, so the same latest number means the same
checkpoints. -/
theorem CutInv.checks_eq (h : CutInv S was p) {q : Project} (hpre : q.checks <+: p.checks)
    {l l' : Checkpoint} (hl : q.latestCheckpoint = some l) (hl' : p.latestCheckpoint = some l')
    (hseq : l'.seq = l.seq) : q.checks = p.checks := by
  unfold Project.latestCheckpoint at hl hl'
  rw [List.getLast?_eq_getElem?] at hl hl'
  have hlseq := h.seq_eq (Project.getElem?_of_prefix hpre hl)
  have hlseq' := h.seq_eq hl'
  have hlt := (List.getElem?_eq_some_iff.mp hl).1
  have hlt' := (List.getElem?_eq_some_iff.mp hl').1
  exact hpre.eq_of_length (by omega)

/-- A checkpoint is stored that was cut with the checkpoints that are there. -/
theorem WorldInv.stored {s : CutWorld} (h : WorldInv S was s) {q : Project} (hwas : was q)
    (hrows : q.RowInv) (hrecords : q.records <+: s.project.records)
    (hchecks : q.checks = s.project.checks) (hfull : S.cutBodyFull q created = .ok body)
    (hstored : S.storeCheckpoint s.project body = .ok p') :
    WorldInv S was { s with project := p' } := by
  obtain ⟨cp, hsealed, hp'⟩ := bind_eq_ok_iff.mp hstored
  rw [orFail_eq_ok_iff] at hsealed
  cases hp'
  refine ⟨⟨?_, h.cut.names, ?_⟩, h.sealed, ?_⟩
  · exact (h.cut.rows.call (.putCheckpoint cp)).1
  · intro i cp' hcp'
    have hchecks' : (s.project.putCheckpoint cp).checks = s.project.checks ++ [cp] := rfl
    rw [hchecks'] at hcp'
    rcases Nat.lt_trichotomy i s.project.checks.length with hi | rfl | hi
    · rw [List.getElem?_append_left hi] at hcp'
      refine (h.cut.cuts i cp' hcp').mono (fun _ hq => hq) List.prefix_rfl ?_
      rw [hchecks', List.take_append_of_le_length hi.le]
    · rw [List.getElem?_concat_length] at hcp'
      obtain rfl := Option.some.inj hcp'
      refine ⟨q, hwas, hrows, hrecords, ?_, created, body, hfull, hsealed⟩
      rw [hchecks', List.take_left, hchecks]
    · rw [List.getElem?_eq_none (by simp; omega)] at hcp'
      cases hcp'
  · intro t r hr
    obtain ⟨q', created', hq'⟩ := h.compared t r hr
    exact ⟨q', created', { hq' with checks := hq'.checks.trans (List.prefix_append _ _) }⟩

@[simp] theorem isSome_asObject_withField (v x : CanonValue) (k : String) :
    (v.withField k x).asObject.isSome = v.asObject.isSome := by
  cases v <;> rfl

@[simp] theorem isSome_asObject_putSeal (v : CanonValue) (k contentHash sig : String) :
    (v.putSeal k contentHash sig).asObject.isSome = v.asObject.isSome := by
  rw [CanonValue.putSeal, isSome_asObject_withField, isSome_asObject_withField]
  cases v <;> rfl

@[simp] theorem isSome_asObject_setDefault (v : CanonValue) (k val : String) :
    (setDefault k val v).asObject.isSome = v.asObject.isSome := by
  unfold setDefault
  split_ifs <;> simp

@[simp] theorem isSome_asObject_setAbsent (v x : CanonValue) (k : String) :
    (setAbsent k x v).asObject.isSome = v.asObject.isSome := by
  unfold setAbsent
  split_ifs <;> simp

@[simp] theorem isSome_asObject_markLineage (v : CanonValue) :
    (markLineage v).asObject.isSome = v.asObject.isSome := by
  unfold markLineage
  split
  · split <;> simp
  · rfl

/-- A member that was set is read back. -/
theorem get_withField_of_object {v x : CanonValue} {k : String}
    (h : v.asObject.isSome = true) : (v.withField k x).get k = some x := by
  cases v with
  | obj members => exact CanonValue.get_withField_self
  | null | bool | int | str | arr => cases h

/-- The parents the server seals: those the handler asked for and the heads of the session. -/
theorem get_causal_sealBody {now freshId freshSpan sessionId : String} {displaySeq : Int64}
    {keyBlock v forced : CanonValue} (hobj : (sealBody now freshId freshSpan displaySeq keyBlock p
      sessionId (v.withField "causal_prev_hashes" forced)).asObject.isSome = true) :
    (sealBody now freshId freshSpan displaySeq keyBlock p sessionId
      (v.withField "causal_prev_hashes" forced)).get "causal_prev_hashes" =
    some (.arr ((sortedUnique ((((forced.asArray).getD []).filterMap CanonValue.asStr ++
        p.heads sessionId).filter (· ≠ ""))).map .str)) := by
  simp only [sealBody, finalizeSemanticRecord, isSome_asObject_withField,
    isSome_asObject_markLineage, isSome_asObject_setDefault, isSome_asObject_setAbsent] at hobj
  rw [sealBody, CanonValue.get_withField_of_ne (by simp), get_withField_of_object]
  · have hget : textList (finalizeSemanticRecord now freshId freshSpan
        (v.withField "causal_prev_hashes" forced)) "causal_prev_hashes" =
          (forced.asArray.getD []).filterMap CanonValue.asStr := by
      have hforced := get_withField_of_object (k := "causal_prev_hashes") (x := forced) hobj
      simp [textList, finalizeSemanticRecord, get_markLineage_of_ne, get_setDefault_of_ne,
        get_setAbsent_of_ne, CanonValue.get_withField_of_ne, hforced]
    rw [hget]
  · simp [finalizeSemanticRecord, hobj]

/-- Parents that are forced are records. -/
theorem mem_forcedParents {row : Option Nat} {k : String}
    (h : k ∈ ((forcedParents p row).asArray.getD []).filterMap CanonValue.asStr) :
    k ∈ p.records.map (·.contentHash) := by
  obtain ⟨v, hv, hk⟩ := List.mem_filterMap.mp h
  obtain ⟨r, hr, rfl⟩ := List.mem_map.mp (show v ∈ List.map _ _ from hv)
  obtain rfl : r.contentHash = k := Option.some.inj hk
  obtain ⟨i, -, hi⟩ := Option.bind_eq_some_iff.mp (Option.mem_toList.mp hr)
  exact List.mem_map_of_mem (List.mem_of_getElem? hi)

theorem mem_heads {sessionId k : String} (h : k ∈ p.heads sessionId) :
    k ∈ p.records.map (·.contentHash) := by
  obtain ⟨r, hr, rfl⟩ := List.mem_map.mp (mem_headsOf.mp h).1
  exact List.mem_map_of_mem (List.mem_of_mem_filter hr)

theorem filterMap_asStr_map_str (texts : List String) :
    (texts.map CanonValue.str).filterMap CanonValue.asStr = texts := by
  rw [List.filterMap_map]
  exact List.filterMap_some

/-- A row is sealed as the server seals, and names rows that are there. -/
theorem sealed_sealedRecord {sessionId : String} {body sealed : CanonValue} {row : Option Nat}
    (disclosures : List DisclosureSecret) (h : S.toRecorder.sealRecord p sessionId
      (body.withField "causal_prev_hashes" (forcedParents p row)) = some sealed) :
    S.Sealed (sealedRecord sealed disclosures) ∧
      ∀ k ∈ (sealedRecord sealed disclosures).parents, k ∈ p.records.map (·.contentHash) := by
  unfold Recorder.sealRecord at h
  set full := sealBody (S.now p) (S.freshId p) (S.freshSpan p) (S.displaySeq p sessionId)
    S.keyBlock p sessionId (body.withField "causal_prev_hashes" (forcedParents p row)) with hfull
  cases hrun : Averin.sealRecord S.N S.sha256 full S.sk with
  | error e =>
    rw [hrun] at h
    cases h
  | ok v =>
    rw [hrun] at h
    obtain rfl := Option.some.inj h
    obtain ⟨contentHash, sig, -, -, hv, hshape⟩ := sealRecord_eq_ok_iff.mp hrun
    obtain ⟨u, hvalid, -⟩ := bind_eq_ok_iff.mp hshape
    obtain ⟨⟨members, hobj, -⟩, -⟩ := validateRecordShape_eq_ok_iff.mp hvalid
    have hobject : full.asObject.isSome = true := by
      rw [← isSome_asObject_putSeal full "content_hash" contentHash sig, ← hv, hobj]
      rfl
    have hparents := get_causal_sealBody hobject
    rw [← hfull] at hparents
    set parents := sortedUnique ((((forcedParents p row).asArray.getD []).filterMap
      CanonValue.asStr ++ p.heads sessionId).filter (· ≠ "")) with hlist
    have hread : textList v "causal_prev_hashes" = parents := by
      rw [textList, hv, CanonValue.get_putSeal_of_ne (by simp) (by simp), hparents]
      exact filterMap_asStr_map_str parents
    refine ⟨⟨full, hrun, ?_, rfl⟩, fun k hk => ?_⟩
    · rw [hparents]
      exact congrArg (fun texts => some (CanonValue.arr (texts.map .str))) hread.symm
    · have hk : k ∈ textList v "causal_prev_hashes" := hk
      rw [hread, hlist, mem_sortedUnique, List.mem_filter, List.mem_append] at hk
      rcases hk.1 with hforced | hhead
      · exact mem_forcedParents hforced
      · exact mem_heads hhead

/-- The sealer of a recorder seals as the recorder does. -/
theorem sealRecord_sealer (R : Recorder ed) : R.sealer.sealRecord = R.sealRecord := by
  simp only [Recorder.sealer]

/-- What storing a row changes. -/
theorem cases_of_sealAndStore {sessionId idem : String} {body stored : CanonValue}
    {row : Option Nat} {disclosures : List DisclosureSecret} {created : Bool}
    (h : sealAndStore S.sealer p sessionId idem
      (body.withField "causal_prev_hashes" (forcedParents p row)) disclosures =
        .ok ((stored, created), p')) :
    p' = p ∨ ∃ r, p' = p.appendRecord idem r ∧ p.Recorded p' r idem ∧ S.Sealed r ∧
      ∀ k ∈ r.parents, k ∈ p.records.map (·.contentHash) := by
  unfold sealAndStore at h
  split at h
  · cases h
  · next sealed hsealed =>
    rw [sealRecord_sealer] at hsealed
    cases hput : p.putRecord idem (sealedRecord sealed disclosures) with
    | error e =>
      rw [hput] at h
      cases h
    | ok found =>
      obtain ⟨⟨r, fresh⟩, q⟩ := found
      rw [hput] at h
      obtain ⟨-, rfl⟩ := Prod.mk.inj (Except.ok.inj h)
      obtain ⟨-, rfl, -⟩ | ⟨rfl, -, hrec⟩ := Project.putRecord_cases hput
      · exact Or.inl rfl
      · exact Or.inr ⟨sealedRecord sealed disclosures, (Project.putRecord_created hput).2, hrec,
          sealed_sealedRecord disclosures hsealed⟩

/-- The other calls leave the rows and the checkpoints. -/
theorem call_other {c : StoreCall} (hc : c.other = true) (p : Project) :
    (p.call c).rowTable = p.rowTable ∧ (p.call c).checks = p.checks := by
  constructor
  · apply Project.rowTable_call
    rintro idemKey rec rfl
    cases hc
  · cases c with
    | op o =>
      change (p.apply o).checks = p.checks
      generalize hq : p.apply o = q
      have hchange := Project.apply_change p o
      rw [hq] at hchange
      cases hchange with
      | recorded q rec idemKey h => cases hc
      | same | allocated | released | voided | fenced | resulted => rfl
    | putRevocationEvent ev =>
      rw [Project.call]
      rcases h : p.putRevocationEvent ev with e | ⟨⟨stored, created⟩, p'⟩
      · rfl
      · obtain ⟨-, hcase⟩ := Project.putRevocationEvent_cases h
        obtain ⟨-, rfl, -⟩ | ⟨-, -, ⟨-, -, -, rfl⟩ | ⟨-, -, -, rfl⟩⟩ := hcase
        all_goals rfl
    | putAuthorizationReceipt r =>
      rw [Project.call]
      rcases h : p.putAuthorizationReceipt r with e | p'
      · rfl
      · obtain ⟨-, -, -, -, -, -, rfl⟩ := Project.putAuthorizationReceipt_cases h
        rfl
    | putPendingGrant idemKey row =>
      rw [Project.call, Project.putPendingGrant]
      split <;> rfl
    | putCheckpoint cp => cases hc
    | allocateAuthorizationOrder | deletePendingGrant idemKey => rfl

theorem WorldInv.store {s : CutWorld} (h : WorldInv S was s) {sessionId idem : String}
    {body stored : CanonValue} {row : Option Nat} {disclosures : List DisclosureSecret}
    {fresh : Bool} (hstore : sealAndStore S.sealer s.project sessionId idem
      (body.withField "causal_prev_hashes" (forcedParents s.project row)) disclosures =
        .ok ((stored, fresh), p')) : WorldInv S was { s with project := p' } := by
  obtain rfl | ⟨r, happend, hrec, hsealed, hnames⟩ := cases_of_sealAndStore hstore
  · exact h
  · obtain ⟨hrows, hlater, hrecords, -⟩ := h.cut.rows.recorded hrec happend
    refine h.rows hrows hlater.records ?_ ?_ ?_
    · obtain ⟨seen, disclosure, rfl⟩ := hrec.eq
      rfl
    · rw [hrecords]
      exact h.cut.names.append_singleton hnames
    · rw [hrecords]
      intro r' hr'
      rcases List.mem_append.mp hr' with hin | hin
      · exact h.sealed r' hin
      · rw [List.mem_singleton.mp hin]
        exact hsealed

theorem WorldInv.call {s : CutWorld} (h : WorldInv S was s) {c : StoreCall}
    (hc : c.other = true) : WorldInv S was { s with project := s.project.call c } := by
  obtain ⟨htable, hchecks⟩ := call_other hc s.project
  have hrecords : (s.project.call c).records = s.project.records := congrArg Prod.fst htable
  obtain ⟨hrows, hlater⟩ := h.cut.rows.of_rowTable htable
  refine h.rows hrows hlater.records hchecks ?_ ?_
  · rw [hrecords]
    exact h.cut.names
  · rw [hrecords]
    exact h.sealed

theorem WorldInv.start {s : CutWorld} (h : WorldInv S was s) (hnow : was s.project)
    {shadow : Bool} (hcut : S.createCheckpointTx s.project created shadow none = .ok p') :
    WorldInv S was { s with project := p' } := by
  obtain ⟨answer, hanswer, hcut⟩ := bind_eq_ok_iff.mp hcut
  cases answer with
  | shadowDue d => cases hcut
  | body b =>
    exact h.stored hnow h.cut.rows List.prefix_rfl rfl (h.cut.full_of_checked hanswer) hcut

theorem WorldInv.compare {s : CutWorld} (h : WorldInv S was s) (hnow : was s.project) (t : Nat)
    {d : ShadowDue} {fullRuns : Bool} {r : ShadowResult}
    (hr : S.shadowOffLock s.project d created fullRuns = .ok r) :
    WorldInv S was { s with jobs := s.jobs.insert t (.compared r) } := by
  obtain ⟨hfull, hbase⟩ := h.cut.full_of_shadow hr
  apply h.jobs
  intro t' r' hr'
  rw [Table.lookup_insert_eq] at hr'
  split_ifs at hr' with ht
  · cases hr'
    exact ⟨s.project, created, hnow, h.cut.rows, List.prefix_rfl, List.prefix_rfl, hbase, hfull⟩
  · exact h.compared t' r' hr'

theorem WorldInv.finish {s : CutWorld} (h : WorldInv S was s) {t : Nat} {r : ShadowResult}
    (hr : s.jobs.lookup t = some (.compared r)) {shadow : Bool}
    (hcut : S.createCheckpointTx s.project created shadow (some r) = .ok p') :
    WorldInv S was { s with project := p' } := by
  obtain ⟨u, hbase, hstored⟩ := bind_eq_ok_iff.mp hcut
  obtain ⟨q, created', hq⟩ := h.compared t r hr
  obtain ⟨l, hl, hlseq⟩ := hq.base
  unfold checkBase at hbase
  split at hbase
  · cases hbase
  · next l' hl' =>
    split_ifs at hbase with hraced
    rw [not_or, not_ne_iff] at hraced
    have hchecks := h.cut.checks_eq hq.checks hl hl' (by rw [hraced.1, hlseq])
    exact h.stored hq.was hq.rows hq.records hchecks hq.full hstored

/-- One step keeps the invariant. -/
theorem WorldInv.step {s : CutWorld} (h : WorldInv S was s) (hnow : was s.project)
    (a : CutAction) : WorldInv S was (S.step s a) := by
  unfold Cutter.step
  cases a with
  | store sessionId idem body row disclosures =>
    dsimp only
    split
    · exact h
    · next hstore => exact h.store hstore
  | call c =>
    dsimp only
    split_ifs with hc
    · exact h.call hc
    · exact h
  | start t created shadow =>
    dsimp only
    split
    · next hcut => exact h.start hnow hcut
    · apply h.jobs
      intro t' r hr
      rw [Table.lookup_insert_eq] at hr
      split_ifs at hr with ht
      · cases hr
      · exact h.compared t' r hr
    · exact h
  | compare t created fullRuns =>
    dsimp only
    split
    · split
      · next hr => exact h.compare hnow t hr
      · exact h.erase t
    · exact h
  | finish t =>
    dsimp only
    split
    · next hr =>
      split
      · next hcut => exact (h.finish hr hcut).erase t
      · exact h.erase t
    · exact h
  | abandon t => exact h.erase t

variable (S)

/-- The projects a run went through. -/
def Visited (acts : List CutAction) (q : Project) : Prop :=
  ∃ before, before <+: acts ∧ (S.run before).project = q

theorem run_concat (acts : List CutAction) (a : CutAction) :
    S.run (acts ++ [a]) = S.step (S.run acts) a := by
  rw [run, run, List.foldl_append, List.foldl_cons, List.foldl_nil]

/-- The invariant holds over every run. -/
theorem worldInv_run (acts : List CutAction) : WorldInv S (S.Visited acts) (S.run acts) := by
  induction acts using List.reverseRecOn with
  | nil =>
    refine ⟨⟨Project.rowInv_empty, namesEarlier_nil, ?_⟩, ?_, ?_⟩
    · rintro i cp hcp
      cases hcp
    · rintro r hr
      cases hr
    · rintro t r hr
      cases hr
  | append_singleton acts a ih =>
    rw [run_concat]
    refine (ih.step ⟨acts, List.prefix_rfl, rfl⟩ a).mono ?_
    rintro q ⟨before, hbefore, hq⟩
    exact ⟨before, hbefore.trans (List.prefix_append _ _), hq⟩

variable {S}

/-- A step that cannot mismatch adds none. -/
theorem ne_mismatch_of_mapError {α β : Type} {x : Except CutError α} {k : α → Except CutRefusal β}
    (hk : ∀ a, x = .ok a → k a ≠ .error .mismatch) :
    (x.mapError CutRefusal.cut >>= k) ≠ .error .mismatch := by
  cases x with
  | error e =>
    intro h
    cases h
  | ok a => exact hk a rfl

/-- A comparison never finds a difference. -/
theorem CutInv.shadow_ne_mismatch (h : CutInv S was p) (d : ShadowDue) (created : String)
    (fullRuns : Bool) : S.shadowOffLock p d created fullRuns ≠ .error .mismatch := by
  unfold shadowOffLock
  split
  · simp
  · split_ifs
    · simp
    · apply ne_mismatch_of_mapError
      intro inc hinc
      cases inc with
      | none => simp
      | some body =>
        dsimp only
        rw [compareShadow_of_full (h.full_of_incremental hinc)]
        simp

variable (S)

/-- In every state of every run the incremental cut, where there is a checkpoint to continue from,
computes what the full one does, and refuses when it does; no comparison finds a difference. -/
theorem cuts_agree (acts : List CutAction) (created : String) :
    let p := (S.run acts).project
    (p.checks = [] ∧ S.cutBodyIncremental p created = .ok none ∨
      S.cutBodyIncremental p created = (S.cutBodyFull p created).map some ∨
      ∃ e e', S.cutBodyIncremental p created = .error e ∧ S.cutBodyFull p created = .error e') ∧
    ∀ d fullRuns, S.shadowOffLock p d created fullRuns ≠ .error .mismatch := by
  have h := (S.worldInv_run acts).cut
  refine ⟨?_, fun d fullRuns => h.shadow_ne_mismatch d created fullRuns⟩
  by_cases hne : (S.run acts).project.checks = []
  · exact Or.inl ⟨hne, cutBodyIncremental_of_nil hne created⟩
  · exact Or.inr (cutBodyIncremental_eq h hne created)

/-- The checkpoints of every run are numbered from zero, and each is the full cut of a project the
run went through that had the checkpoints before it and no other. -/
theorem checkpoints_of_cuts (acts : List CutAction)
    (i : Fin (S.run acts).project.checks.length) :
    let checks := (S.run acts).project.checks
    checks[i].seq = i ∧
      checks[i].json.get "prev_checkpoint_hash" =
        some ((checks.take i).getLast?.elim .null fun prev => .str prev.checkpointHash) ∧
      ∃ before, before <+: acts ∧ (S.run before).project.checks = checks.take i ∧
        (S.run before).project.records <+: (S.run acts).project.records ∧
        ∃ created body, S.cutBodyFull (S.run before).project created = .ok body ∧
          S.sealCheckpoint body = some checks[i] := by
  have h := (S.worldInv_run acts).cut
  have hi : (S.run acts).project.checks[(i : Nat)]? = some (S.run acts).project.checks[i] :=
    List.getElem?_eq_getElem i.isLt
  obtain ⟨q, ⟨before, hbefore, rfl⟩, -, hrecords, hchecks, created, body, hfull, hsealed⟩ :=
    h.cuts i _ hi
  refine ⟨h.seq_eq hi, ?_, before, hbefore, hchecks, hrecords, created, body, hfull, hsealed⟩
  obtain ⟨prior, head, -, -, hstates⟩ := (fullCut_of_ok hfull).states
  rw [get_of_sealCheckpoint hsealed (by simp) (by simp), hstates.prev, ← hchecks,
    Project.latestCheckpointHash, Project.latestCheckpoint]
  cases (S.run before).project.checks.getLast? <;> rfl

end Cutter

end Averin
