import Averin.Dag.Exact
import Averin.Server.CutProtocol
import Averin.Server.UseRetry
import Averin.Verify.BrokerTrust

/-!
# What honest servers write verifies

The records a latest checkpoint covers and all the checkpoints go to the verifier. It builds their
graph, finds the chain unbroken and every head of the grant log in place: what the servers fold as
they go is what the verifier derives from the records alone.
-/

namespace Averin

open Std (TreeMap TreeSet)

/-- Rows that the server sealed. -/
structure HonestRows {ed : Ed25519} (S : Cutter ed) (rows : List Record) : Prop where
  sealed : ∀ r ∈ rows, S.Sealed r
  names : NamesEarlier (·.contentHash) Record.parents rows
  hashes : (rows.map (·.contentHash)).Nodup

/-- A root is a hash text. -/
theorem parseSha256_rootText (v : Vector UInt8 32) : (parseSha256 (rootText v)).isSome = true := by
  have hstrip : (bytes "sha256:").isPrefixOf? (bytes (rootText v)) =
      some (bytes (hexLower v.toList)) := by
    rw [rootText, bytes_append]
    exact isPrefixOf?_append_self _ _
  have hlength : (bytes (hexLower v.toList)).length = 64 := by simp
  rw [parseSha256, hstrip]
  dsimp only
  rw [if_neg (by simp [hlength]), hexPairs_hexLower]
  rfl

/-- Texts are items that are texts. -/
theorem stringItems_map_str (texts : List String) :
    stringItems (texts.map .str) = some texts := by
  induction texts with
  | nil => rfl
  | cons t texts ih => simp [stringItems, CanonValue.asStr, ih]

variable {ed : Ed25519} {S : Cutter ed} {rows old : List Record} {r : Record}

/-- What the verifier reads of a sealed row. -/
theorem Cutter.Sealed.read (h : S.Sealed r) :
    verifySealed S.N S.sha256 ed r.json S.sk.verifyingKey = .ok () ∧
      r.json.asObject.isSome = true ∧ recordHash r.json = some r.contentHash ∧
      (parseSha256 r.contentHash).isSome = true ∧
      r.json.get "causal_prev_hashes" = some (.arr (r.parents.map .str)) := by
  obtain ⟨body, hsealed, hparents, hhash⟩ := h
  refine ⟨verifySealed_of_sealed hsealed, ?_⟩
  obtain ⟨ch, sig, hch, -, hjson, -⟩ := sealRecord_eq_ok_iff.mp hsealed
  obtain ⟨members, rfl, -⟩ := exists_of_hashBody hch
  have hget : r.json.get "content_hash" = some (.str ch) := by
    rw [hjson]
    exact CanonValue.get_putSeal_hash (by decide)
  have heq : r.contentHash = ch := by
    rw [hhash, textField, hget]
    rfl
  refine ⟨?_, ?_, ?_, ?_⟩
  · rw [hjson, Cutter.isSome_asObject_putSeal]
    rfl
  · rw [recordHash, hget, heq]
    rfl
  · unfold computeContentHash hashBody at hch
    split at hch
    · cases hch
    · rw [heq, ← Except.ok.inj hch]
      exact parseSha256_rootText _
  · rw [hjson, CanonValue.get_putSeal_of_ne (by decide) (by decide), hparents]

namespace HonestRows

variable (h : HonestRows S rows)
include h

theorem recordHash_eq (hr : r ∈ rows) : recordHash r.json = some r.contentHash :=
  (h.sealed r hr).read.2.2.1

theorem causalPrevHashes_eq (hr : r ∈ rows) : causalPrevHashes r.json = r.parents := by
  rw [causalPrevHashes, (h.sealed r hr).read.2.2.2.2]
  exact Cutter.filterMap_asStr_map_str r.parents

theorem of_prefix (hpre : old <+: rows) : HonestRows S old where
  sealed r hr := h.sealed r (hpre.subset hr)
  names := h.names.of_prefix hpre
  hashes := h.hashes.sublist (hpre.sublist.map _)

/-- The hashes of the records are those of the rows. -/
theorem exists_recordHash_iff {v : String} :
    (∃ rec ∈ rows.map (·.json), recordHash rec = some v) ↔ v ∈ rows.map (·.contentHash) := by
  simp only [List.mem_map, exists_exists_and_eq_and]
  constructor
  · rintro ⟨r, hr, hv⟩
    rw [h.recordHash_eq hr] at hv
    exact ⟨r, hr, Option.some.inj hv⟩
  · rintro ⟨r, hr, rfl⟩
    exact ⟨r, hr, h.recordHash_eq hr⟩

/-- The parents of the records are those of the rows. -/
theorem parentOf_iff {c p : String} :
    ParentOf (rows.map (·.json)) c p ↔ NamedBy (·.contentHash) Record.parents rows c p := by
  simp only [ParentOf, NamedBy, List.mem_map, exists_exists_and_eq_and]
  refine exists_congr fun r => and_congr_right fun hr => ?_
  rw [h.recordHash_eq hr, h.causalPrevHashes_eq hr, Option.some.injEq]

/-- Rows of one hash have the same parents. -/
theorem parentsAgree : ParentsAgree (rows.map (·.json)) := by
  intro rec hrec rec' hrec' v hv hv'
  obtain ⟨r, hr, rfl⟩ := List.mem_map.mp hrec
  obtain ⟨r', hr', rfl⟩ := List.mem_map.mp hrec'
  rw [h.recordHash_eq hr] at hv
  rw [h.recordHash_eq hr', ← hv] at hv'
  rw [List.inj_on_of_nodup_map h.hashes hr' hr (Option.some.inj hv')]

/-- The verifier builds the graph of the rows. -/
theorem exists_build : ∃ dag, build (rows.map (·.json)) = .ok dag := by
  have hparse : ∀ r ∈ rows, ∀ p ∈ r.parents, ∃ r' ∈ rows, r'.contentHash = p := by
    intro r hr p hp
    exact List.mem_map.mp (h.names.mem_of_mem_parents hr hp)
  refine (build_isOk_iff h.parentsAgree).mpr ⟨?_, ?_, ?_⟩
  · intro rec hrec
    obtain ⟨r, hr, rfl⟩ := List.mem_map.mp hrec
    obtain ⟨-, hobj, hhash, hdigest, hparents⟩ := (h.sealed r hr).read
    refine ⟨hobj, ⟨_, hhash, hdigest⟩, r.parents, ?_, ?_⟩
    · rw [parentsOf, hparents]
      simp [CanonValue.asArray, stringItems_map_str]
    · intro p hp
      obtain ⟨r', hr', rfl⟩ := hparse r hr p hp
      exact (h.sealed r' hr').read.2.2.2.1
  · intro rec hrec p hp
    obtain ⟨r, hr, rfl⟩ := List.mem_map.mp hrec
    rw [h.causalPrevHashes_eq hr] at hp
    exact h.exists_recordHash_iff.mpr (List.mem_map.mpr (hparse r hr p hp))
  · intro v hcycle
    exact h.names.acyclic h.hashes v
      (Relation.TransGen.mono (fun c p hstep => h.parentOf_iff.mp hstep) _ _ hcycle)

variable {dag : Dag} (hbuild : build (rows.map (·.json)) = .ok dag)
include hbuild

theorem mem_byHash_iff {v : String} : v ∈ dag.byHash ↔ v ∈ rows.map (·.contentHash) := by
  rw [(build_eq_ok hbuild).mem_byHash_iff, h.exists_recordHash_iff]

theorem size_byHash : dag.byHash.size = rows.length := by
  have hkeys : dag.byHash.keys.Perm (rows.map (·.contentHash)) := by
    rw [List.perm_ext_iff_of_nodup TreeMap.nodup_keys h.hashes]
    intro v
    rw [TreeMap.mem_keys, h.mem_byHash_iff hbuild]
  rw [← TreeMap.length_keys, hkeys.length_eq, List.length_map]

theorem mem_heads_iff {v : String} : v ∈ dag.heads ↔ v ∈ headsOf rows := by
  rw [build_mem_heads h.parentsAgree hbuild, mem_headsOf, IsHead, h.exists_recordHash_iff]
  refine and_congr_right fun _ => ?_
  rw [List.forall_mem_map]
  refine forall₂_congr fun r hr => ?_
  rw [h.causalPrevHashes_eq hr]

/-- The heads of a beginning of the rows commit just that beginning. -/
theorem mem_committedSet_iff (hpre : old <+: rows) {v : String} :
    v ∈ committedSet (rows.map (·.json)) dag.byHash (headsOf old) ↔
      v ∈ old.map (·.contentHash) := by
  have hstep : (fun c p => p ∈ keptParents (rows.map (·.json)) dag.byHash c) =
      NamedBy (·.contentHash) Record.parents rows := by
    ext c p
    rw [← (build_eq_ok hbuild).indexes.parentOf_iff h.parentsAgree.recordsBind, h.parentOf_iff]
  rw [Averin.mem_committedSet_iff, ReachedFrom, hstep, ← h.names.reached_iff h.hashes hpre]
  simp only [mem_headsOf]

/-- The log these heads commit is the log of that beginning. -/
theorem isGrantLog_committedBrokerLog (hpre : old <+: rows) :
    IsGrantLog old (committedBrokerLog (recordTrustOf (rows.map (·.json))) (rows.map (·.json))
      dag.byHash (headsOf old) none) := by
  have hentry : ∀ r ∈ rows, recordEntry none
      (committedSet (rows.map (·.json)) dag.byHash (headsOf old)) r.json =
        if r.contentHash ∈ old.map (·.contentHash) then
          (grantSeqOf r.json).map (·, r.contentHash) else none := by
    intro r hr
    have htext : hashText r.json = r.contentHash := by
      rw [hashText, h.recordHash_eq hr, Option.getD_some]
    rw [recordEntry, htext, recordSeq_eq]
    simp only [h.mem_committedSet_iff hbuild hpre]
  obtain ⟨rest, rfl⟩ := hpre
  have hentries : ((old ++ rest).map (·.json)).filterMap (recordEntry none
      (committedSet ((old ++ rest).map (·.json)) dag.byHash (headsOf old))) =
        grantEntries old := by
    have hnew : ∀ r ∈ rest, r.contentHash ∉ old.map (·.contentHash) := by
      intro r hr hin
      have hnodup := h.hashes
      rw [List.map_append] at hnodup
      exact List.disjoint_of_nodup_append hnodup hin (List.mem_map_of_mem hr)
    rw [List.filterMap_map, List.filterMap_append, grantEntries]
    have hrest : rest.filterMap ((recordEntry none (committedSet ((old ++ rest).map (·.json))
        dag.byHash (headsOf old))) ∘ (·.json)) = [] := by
      rw [List.filterMap_eq_nil_iff]
      intro r hr
      rw [Function.comp_apply, hentry r (List.mem_append_right _ hr), if_neg (hnew r hr)]
    rw [hrest, List.append_nil]
    apply List.filterMap_congr
    intro r hr
    rw [Function.comp_apply, hentry r (List.mem_append_left _ hr),
      if_pos (List.mem_map_of_mem hr)]
  rw [committedBrokerLog_recordTrustOf, hentries]
  exact ⟨List.perm_insertionSort _ _, List.pairwise_insertionSort _ _⟩

end HonestRows

/-- The head of the grant log a checkpoint carries. -/
def parseGrantHead (cp : CanonValue) : Option GrantHead := do
  let h ← cp.get "broker_grant_head"
  let maxSeq ← (h.get "max_seq").bind CanonValue.asInt
  let priorHeadHash ← (h.get "prior_head_hash").bind CanonValue.asStr
  let cumulativeRoot ← (h.get "cumulative_root").bind CanonValue.asStr
  return ⟨maxSeq, priorHeadHash, cumulativeRoot⟩

/-- The head at its number and frontier. -/
def headEntry (cp : CanonValue) : Option HeadEntry :=
  (parseGrantHead cp).map fun head => ⟨(checkpointSeq cp).getD 0, head, frontierOf cp⟩

/-- The checkpoint at a position: sealed, in its place, over a beginning of the rows. -/
structure HonestCut (S : Cutter ed) (rows : List Record) (checks : List Checkpoint) (i : Nat)
    (cp : Checkpoint) (old : List Record) (log : List (Int × String)) : Prop where
  rows : old <+: rows
  verifies : verifyCheckpointSealed S.N S.sha256 ed cp.json S.sk.verifyingKey = .ok ()
  hash : checkpointHash cp.json = some cp.checkpointHash
  seq : checkpointSeq cp.json = some (i : Int)
  prev : cp.json.get "prev_checkpoint_hash" =
    some ((checks.take i).getLast?.elim .null fun prev => .str prev.checkpointHash)
  frontier : cp.json.get "frontier" = some (.arr ((headsOf old).map .str))
  count : recordCount cp.json = some (old.length : Int)
  isLog : IsGrantLog old log
  gapless : log.map (·.1) = numbersFrom 0 log.length
  head : ∃ prior, priorGrantHeadRoot S.sha256 (checks.take i) = some prior ∧
    parseGrantHead cp.json = some ⟨log.length, prior, Broker.grantHeadRoot S.sha256 log⟩
  root : ∀ checks', checks'.getLast? = some cp →
    priorGrantHeadRoot S.sha256 checks' = some (Broker.grantHeadRoot S.sha256 log)

/-- A number that was written is read back. -/
theorem bind_asInt_jsonInt {o : Option CanonValue} {n : Int}
    (h : ∃ v, jsonInt n = some v ∧ o = some v) : o.bind CanonValue.asInt = some n := by
  obtain ⟨v, hv, rfl⟩ := h
  exact asInt_jsonInt hv

/-- A sealed checkpoint verifies, and is stored under its own hash. -/
theorem Cutter.verifies_of_sealCheckpoint {body : CanonValue} {cp : Checkpoint}
    (h : S.sealCheckpoint body = some cp) :
    verifyCheckpointSealed S.N S.sha256 ed cp.json S.sk.verifyingKey = .ok () ∧
      checkpointHash cp.json = some cp.checkpointHash := by
  unfold Cutter.sealCheckpoint at h
  cases hsealed : Averin.sealCheckpoint S.N S.sha256 body S.sk with
  | error e =>
    rw [hsealed] at h
    cases h
  | ok sealed =>
    rw [hsealed] at h
    obtain rfl := Option.some.inj h
    refine ⟨verifyCheckpointSealed_of_sealed hsealed, ?_⟩
    obtain ⟨ch, sig, hch, -, hjson, -⟩ := sealCheckpoint_eq_ok_iff.mp hsealed
    obtain ⟨members, rfl, -⟩ := exists_of_hashBody hch
    have hget : sealed.get "checkpoint_hash" = some (.str ch) := by
      rw [hjson]
      exact CanonValue.get_putSeal_hash (by decide)
    dsimp only
    rw [checkpointHash, hget]
    rfl

/-- A head is read back by the verifier as it was written. -/
theorem parseGrantHead_of_get {cp head : CanonValue} {log : List (Int × String)} {prior : String}
    (hgapless : log.map (·.1) = numbersFrom 0 log.length)
    (hhead : Broker.brokerGrantHead S.sha256 log prior = some head)
    (hget : cp.get "broker_grant_head" = some head) :
    parseGrantHead cp = some ⟨log.length, prior, Broker.grantHeadRoot S.sha256 log⟩ := by
  obtain ⟨number, hnumber, rfl⟩ := Option.map_eq_some_iff.mp hhead
  have hmax := asInt_jsonInt hnumber
  rw [Broker.maxSeqFrom_numbersFrom hgapless, zero_add] at hmax
  rw [parseGrantHead, hget]
  simp [CanonValue.get, CanonValue.member, CanonValue.asStr, hmax]

/-- A checkpoint of a run is an honest cut. -/
theorem Cutter.CutFrom.honestCut {was : Project → Prop} {p : Project} {i : Nat} {cp : Checkpoint}
    (h : CutFrom S was p i cp) (hcp : p.checks[i]? = some cp) :
    ∃ q log, was q ∧ q.checks = p.checks.take i ∧
      HonestCut S p.records p.checks i cp q.records log := by
  obtain ⟨q, hwas, hrows, hpre, hprior, created, body, hcut, hsealed⟩ := h
  have hfull := fullCut_of_ok hcut
  obtain ⟨prior, head, hpriorRoot, hhead, hstates⟩ := hfull.states
  have hget : ∀ k, k ≠ "checkpoint_hash" → k ≠ "sig" → cp.json.get k = body.get k :=
    fun k => get_of_sealCheckpoint hsealed
  have hlog : IsGrantLog q.records (logOf q) := by
    refine ⟨?_, (isGrantLog_grantLog _).sorted⟩
    rw [← grantEntries_grantRecords]
    exact (isGrantLog_grantLog _).perm
  have hlength : q.checks.length = i := by
    have hlt := (List.getElem?_eq_some_iff.mp hcp).1
    rw [hprior, List.length_take]
    omega
  obtain ⟨hverifies, hhash⟩ := Cutter.verifies_of_sealCheckpoint hsealed
  refine ⟨q, logOf q, hwas, hprior, hpre, hverifies, hhash, ?_, ?_, ?_, ?_, hlog,
    hfull.gapless, ⟨prior, ?_, ?_⟩, fun checks' => priorGrantHeadRoot_of_fullCut hfull hsealed⟩
  · rw [checkpointSeq, hget _ (by simp) (by simp), bind_asInt_jsonInt hstates.seq,
      Project.nextCheckpointSeq, hlength]
  · rw [hget _ (by simp) (by simp), hstates.prev, ← hprior, Project.latestCheckpointHash,
      Project.latestCheckpoint]
    cases q.checks.getLast? <;> rfl
  · rw [hget _ (by simp) (by simp), hstates.frontier, Project.projectHeads]
  · rw [recordCount, hget _ (by simp) (by simp), bind_asInt_jsonInt hstates.count,
      hrows.recordCount_eq]
  · rw [← hprior, hpriorRoot]
  · apply parseGrantHead_of_get hfull.gapless hhead
    rw [hget _ (by simp) (by simp), hstates.grantHead]

/-- The pairs pass when each does. -/
theorem checkWindows_eq_ok_iff {l : List CanonValue} :
    checkWindows l = .ok () ↔ l.IsChain fun a b => checkNeighbours a b = .ok () := by
  induction l with
  | nil => simp [checkWindows]
  | cons a l ih =>
    cases l with
    | nil => simp [checkWindows]
    | cons b l =>
      rw [checkWindows, bind_eq_ok_iff, List.isChain_cons_cons, ih]
      constructor
      · rintro ⟨⟨⟩, hfirst, hrest⟩
        exact ⟨hfirst, hrest⟩
      · rintro ⟨hfirst, hrest⟩
        exact ⟨(), hfirst, hrest⟩

/-- Checkpoints that each name another one before them are no fork. -/
theorem checkSharedPrev_eq_ok {l : List CanonValue} {byPrev : TreeMap String String}
    (hhash : ∀ c ∈ l, (checkpointHash c).isSome = true)
    (hnodup : (l.filterMap prevCheckpointHash).Nodup)
    (hnew : ∀ c ∈ l, ∀ prev, prevCheckpointHash c = some prev → prev ∉ byPrev) :
    checkSharedPrev l byPrev = .ok () := by
  induction l generalizing byPrev with
  | nil => rfl
  | cons c l ih =>
    obtain ⟨hc, hl⟩ := List.forall_mem_cons.mp hhash
    obtain ⟨hcnew, hlnew⟩ := List.forall_mem_cons.mp hnew
    rw [checkSharedPrev, ← prevCheckpointHash]
    cases hprev : prevCheckpointHash c with
    | none =>
      rw [List.filterMap_cons_none hprev] at hnodup
      exact ih hl hnodup hlnew
    | some prev =>
      rw [List.filterMap_cons_some hprev, List.nodup_cons] at hnodup
      obtain ⟨this, hthis⟩ := Option.isSome_iff_exists.mp hc
      refine bind_eq_ok_iff.mpr ⟨this, strField_eq_ok_iff.mpr hthis, ?_⟩
      refine bind_eq_ok_iff.mpr ⟨(), require_eq_ok_iff.mpr ?_, ih hl hnodup.2 ?_⟩
      · intro other hother
        have habsent := hcnew prev hprev
        rw [← TreeMap.isSome_getElem?_iff_mem, Option.mem_def.mp hother] at habsent
        exact absurd rfl habsent
      · intro c' hc' prev' hprev'
        rw [TreeMap.mem_insert, not_or]
        refine ⟨?_, hlnew c' hc' prev' hprev'⟩
        rw [Std.compare_eq_iff_eq]
        rintro rfl
        exact hnodup.1 (List.mem_filterMap.mpr ⟨c', hc', hprev'⟩)

namespace HonestCut

variable {checks : List Checkpoint} {i : Nat} {cp : Checkpoint} {log : List (Int × String)}
  (h : HonestCut S rows checks i cp old log)
include h

/-- The sort key of a cut is its place. -/
theorem seqKey_eq : seqKey cp.json = i := by
  rw [seqKey, ← checkpointSeq, h.seq, Option.getD_some]

theorem frontierOf_eq : frontierOf cp.json = headsOf old := by
  rw [frontierOf, h.frontier]
  exact Cutter.filterMap_asStr_map_str (headsOf old)

/-- The first cut is a first checkpoint. -/
theorem checkFirst_eq_ok (hi : i = 0) : checkFirst cp.json = .ok () := by
  have hprev := h.prev
  subst hi
  rw [List.take_zero, List.getLast?_nil] at hprev
  refine bind_eq_ok_iff.mpr ⟨0, intField_eq_ok_iff.mpr h.seq, ?_⟩
  refine bind_eq_ok_iff.mpr ⟨(), require_eq_ok_iff.mpr rfl, require_eq_ok_iff.mpr ?_⟩
  rw [hprev]
  rfl

/-- The next checkpoint is a successor. -/
theorem checkNeighbours_eq_ok {next : Checkpoint} {old' : List Record}
    {log' : List (Int × String)} (h' : HonestCut S rows checks (i + 1) next old' log')
    (hcp : checks[i]? = some cp) (hle : old.length ≤ old'.length) :
    checkNeighbours cp.json next.json = .ok () := by
  have hprev : prevCheckpointHash next.json = some cp.checkpointHash := by
    rw [prevCheckpointHash, h'.prev, List.take_add_one, hcp]
    simp [CanonValue.asStr]
  refine bind_eq_ok_iff.mpr ⟨_, intField_eq_ok_iff.mpr h.seq, ?_⟩
  refine bind_eq_ok_iff.mpr ⟨_, intField_eq_ok_iff.mpr h'.seq, ?_⟩
  rw [if_neg (by omega)]
  refine bind_eq_ok_iff.mpr ⟨(), require_eq_ok_iff.mpr (by omega), ?_⟩
  refine bind_eq_ok_iff.mpr ⟨_, orFail_eq_ok_iff.mpr hprev, ?_⟩
  refine bind_eq_ok_iff.mpr ⟨_, strField_eq_ok_iff.mpr h.hash, ?_⟩
  refine bind_eq_ok_iff.mpr ⟨(), require_eq_ok_iff.mpr rfl, ?_⟩
  refine bind_eq_ok_iff.mpr ⟨_, intField_eq_ok_iff.mpr h.count, ?_⟩
  refine bind_eq_ok_iff.mpr ⟨_, intField_eq_ok_iff.mpr h'.count, ?_⟩
  exact require_eq_ok_iff.mpr (by exact_mod_cast hle)

/-- Its frontier is found among the rows. -/
theorem checkFrontier_eq_ok {whole : List Record} {dag : Dag} (hrows : HonestRows S whole)
    (hbuild : build (whole.map (·.json)) = .ok dag) (hpre : old <+: whole) :
    checkFrontier dag cp.json = .ok () := by
  refine bind_eq_ok_iff.mpr ⟨_, intField_eq_ok_iff.mpr h.seq, ?_⟩
  refine bind_eq_ok_iff.mpr ⟨_, orFail_eq_ok_iff.mpr h.frontier, ?_⟩
  refine bind_eq_ok_iff.mpr ⟨_, orFail_eq_ok_iff.mpr rfl, forM_eq_ok_iff.mpr ?_⟩
  intro fh hfh
  obtain ⟨v, hv, rfl⟩ := List.mem_map.mp hfh
  obtain ⟨r, hr, rfl⟩ := List.mem_map.mp (mem_headsOf.mp hv).1
  have hr := hpre.subset hr
  refine bind_eq_ok_iff.mpr ⟨_, orFail_eq_ok_iff.mpr rfl, ?_⟩
  refine bind_eq_ok_iff.mpr ⟨(), require_eq_ok_iff.mpr (hrows.sealed r hr).read.2.2.2.1, ?_⟩
  exact require_eq_ok_iff.mpr ((hrows.mem_byHash_iff hbuild).mpr (List.mem_map_of_mem hr))

/-- Over its own rows it is one the verifier takes as the latest. -/
theorem checkLatest_eq_ok {dag : Dag} (hrows : HonestRows S old)
    (hbuild : build (old.map (·.json)) = .ok dag) : checkLatest dag cp.json = .ok () := by
  have hset : (TreeSet.ofList (headsOf old) : TreeSet String).toList =
      (TreeSet.ofList dag.heads : TreeSet String).toList := by
    refine TreeSet.equiv_iff_toList_eq.mp (TreeSet.Equiv.of_forall_mem_iff fun v => ?_)
    simp [TreeSet.mem_ofList, hrows.mem_heads_iff hbuild]
  refine bind_eq_ok_iff.mpr ⟨_, intField_eq_ok_iff.mpr h.seq, ?_⟩
  refine bind_eq_ok_iff.mpr ⟨(headsOf old).map .str, orFail_eq_ok_iff.mpr ?_, ?_⟩
  · rw [h.frontier]
    rfl
  · dsimp only
    rw [Cutter.filterMap_asStr_map_str]
    refine bind_eq_ok_iff.mpr ⟨(), require_eq_ok_iff.mpr hset, ?_⟩
    refine bind_eq_ok_iff.mpr ⟨_, intField_eq_ok_iff.mpr h.count, require_eq_ok_iff.mpr ?_⟩
    rw [hrows.size_byHash hbuild]

/-- The head it carries says what the verifier's log over its frontier is. -/
theorem exists_headEntry {whole : List Record} {dag : Dag} (hrows : HonestRows S whole)
    (hbuild : build (whole.map (·.json)) = .ok dag) (hpre : old <+: whole) :
    ∃ e, headEntry cp.json = some e ∧ e.seq = i ∧
      HeadMatches S.sha256 (committedBrokerLog (recordTrustOf (whole.map (·.json)))
        (whole.map (·.json)) dag.byHash e.frontier none) e.head ∧
      priorGrantHeadRoot S.sha256 (checks.take i) = some e.head.priorHeadHash ∧
      e.head.cumulativeRoot = Broker.grantHeadRoot S.sha256 log := by
  obtain ⟨prior, hprior, hhead⟩ := h.head
  have hnodup : (log.map (·.1)).Nodup := by
    rw [h.gapless]
    exact (pairwise_numbersFrom 0 _).imp ne_of_lt
  have hlog := (h.isLog.unique (hrows.isGrantLog_committedBrokerLog hbuild hpre)).2 hnodup
  refine ⟨⟨i, ⟨log.length, prior, Broker.grantHeadRoot S.sha256 log⟩, headsOf old⟩, ?_, rfl,
    ?_, hprior, rfl⟩
  · rw [headEntry, hhead, h.seq, h.frontierOf_eq]
    rfl
  · dsimp only
    rw [← hlog]
    refine ⟨isGapless_iff.mpr ?_, rfl, Broker.grantHeadRoot_eq S.sha256 log⟩
    rw [h.gapless, numbersFrom]
    simp

/-- A predecessor it names is the checkpoint before it. -/
theorem exists_of_prev (hcp : checks[i]? = some cp) {prev : String}
    (hprev : prevCheckpointHash cp.json = some prev) :
    ∃ j, i = j + 1 ∧ (checks.map (·.checkpointHash))[j]? = some prev := by
  rw [prevCheckpointHash, h.prev] at hprev
  cases i with
  | zero => simp [CanonValue.asStr] at hprev
  | succ j =>
    have hlt := (List.getElem?_eq_some_iff.mp hcp).1
    have hj : checks[j]? = some checks[j] := List.getElem?_eq_getElem (by omega)
    rw [List.take_add_one, hj, Option.toList_some, List.getLast?_concat] at hprev
    refine ⟨j, rfl, ?_⟩
    rw [List.getElem?_map, hj]
    exact hprev

end HonestCut

/-- Every checkpoint is one a server cut over a beginning of the rows. -/
def HonestChecks (S : Cutter ed) (rows : List Record) (checks : List Checkpoint) : Prop :=
  ∀ i cp, checks[i]? = some cp → ∃ old log, HonestCut S rows checks i cp old log

/-- A check of what may be missing. -/
theorem option_forM_eq_ok {ε α : Type} {o : Option α} {f : α → Except ε PUnit}
    (h : ∀ a, o = some a → f a = .ok ()) : o.forM f = .ok () := by
  cases o with
  | none => rfl
  | some a => exact h a rfl

/-- Where every element has a value, none is dropped. -/
theorem map_some_filterMap {α β : Type*} {f : α → Option β} {l : List α}
    (h : ∀ a ∈ l, (f a).isSome = true) : (l.filterMap f).map some = l.map f := by
  induction l with
  | nil => rfl
  | cons a l ih =>
    obtain ⟨ha, hl⟩ := List.forall_mem_cons.mp h
    obtain ⟨b, hb⟩ := Option.isSome_iff_exists.mp ha
    rw [List.filterMap_cons_some hb, List.map_cons, List.map_cons, ih hl, hb]

/-- Heads that match their logs verify when each names the root before it. -/
theorem headsVerify_of_isChain {sha256 : List UInt8 → Vector UInt8 32}
    {logOf : List String → List (Int × String)} {prevRoot : String} {heads : List HeadEntry}
    (hmatches : ∀ e ∈ heads, HeadMatches sha256 (logOf e.frontier) e.head)
    (hchain : heads.IsChain fun a b => b.head.priorHeadHash = a.head.cumulativeRoot)
    (hfirst : ∀ e ∈ heads.head?, e.head.priorHeadHash = prevRoot) :
    HeadsVerify sha256 logOf prevRoot heads := by
  induction heads generalizing prevRoot with
  | nil => trivial
  | cons e rest ih =>
    obtain ⟨he, hrest⟩ := List.forall_mem_cons.mp hmatches
    obtain ⟨hnext, htail⟩ := List.isChain_cons.mp hchain
    exact ⟨he, hfirst e rfl, ih hrest htail hnext⟩

/-- Heads in order, each with a number of its own, are left as they are. -/
theorem orderHeads_eq {heads : List HeadEntry} (h : heads.Pairwise (·.seq < ·.seq)) :
    orderHeads heads = heads := by
  have hsorted : heads.Pairwise (·.seq ≤ ·.seq) := h.imp le_of_lt
  have hdistinct : heads.Pairwise (· ≠ ·) := by
    refine h.imp fun {a b} hlt heq => ?_
    rw [heq] at hlt
    exact lt_irrefl _ hlt
  rw [orderHeads, hsorted.insertionSort_eq]
  exact List.destutter_of_isChain _ _ hdistinct.isChain

namespace HonestChecks

variable {checks : List Checkpoint} (hc : HonestChecks S rows checks)
include hc

/-- Every checkpoint is a cut. -/
theorem exists_of_mem {cp : Checkpoint} (hcp : cp ∈ checks) :
    ∃ i old log, checks[i]? = some cp ∧ HonestCut S rows checks i cp old log := by
  obtain ⟨i, hi⟩ := List.mem_iff_getElem?.mp hcp
  obtain ⟨old, log, hcut⟩ := hc i cp hi
  exact ⟨i, old, log, hi, hcut⟩

theorem pairwise_seqKey :
    (checks.map (·.json)).Pairwise fun a b => seqKey a < seqKey b := by
  rw [List.pairwise_map, List.pairwise_iff_getElem]
  intro i j hi hj hij
  obtain ⟨_, _, hcuti⟩ := hc i _ (List.getElem?_eq_getElem hi)
  obtain ⟨_, _, hcutj⟩ := hc j _ (List.getElem?_eq_getElem hj)
  rw [hcuti.seqKey_eq, hcutj.seqKey_eq]
  exact_mod_cast hij

/-- With hashes of their own no two checkpoints name one predecessor. -/
theorem nodup_prev (hdistinct : (checks.map (·.checkpointHash)).Nodup) :
    ((checks.map (·.json)).filterMap prevCheckpointHash).Nodup := by
  rw [List.Nodup, List.pairwise_filterMap, List.pairwise_map, List.pairwise_iff_getElem]
  intro i j hi hj hij a ha b hb hab
  have hcpi := List.getElem?_eq_getElem hi
  have hcpj := List.getElem?_eq_getElem hj
  obtain ⟨_, _, hcuti⟩ := hc i _ hcpi
  obtain ⟨_, _, hcutj⟩ := hc j _ hcpj
  obtain ⟨i', hi', hai⟩ := hcuti.exists_of_prev hcpi ha
  obtain ⟨j', hj', hbj⟩ := hcutj.exists_of_prev hcpj hb
  have hlt := (List.getElem?_eq_some_iff.mp hbj).1
  refine List.nodup_iff_getElem?_ne_getElem?.mp hdistinct i' j' (by omega) hlt ?_
  rw [hai, hbj, hab]

variable {dag : Dag} (hrows : HonestRows S rows) (hbuild : build (rows.map (·.json)) = .ok dag)
include hrows hbuild

/-- The verifier finds the chain in order and unbroken. -/
theorem validateChain_eq_ok
    (hneighbours : ∀ i a b, checks[i]? = some a → checks[i + 1]? = some b →
      checkNeighbours a.json b.json = .ok ())
    (hdistinct : (checks.map (·.checkpointHash)).Nodup)
    (hlatest : ∀ cp, checks.getLast? = some cp → checkLatest dag cp.json = .ok ()) :
    validateChain (checks.map (·.json)) dag = .ok (checks.map (·.json)) := by
  have hsorted : (checks.map (·.json)).Pairwise fun a b => seqKey a ≤ seqKey b :=
    hc.pairwise_seqKey.imp le_of_lt
  have hfirst : (checks.map (·.json)).head?.forM checkFirst = .ok () := by
    refine option_forM_eq_ok fun cp hcp => ?_
    rw [List.head?_eq_getElem?, List.getElem?_map] at hcp
    obtain ⟨c, hget, rfl⟩ := Option.map_eq_some_iff.mp hcp
    obtain ⟨_, _, hcut⟩ := hc 0 c hget
    exact hcut.checkFirst_eq_ok rfl
  have hwindows : checkWindows (checks.map (·.json)) = .ok () := by
    rw [checkWindows_eq_ok_iff, List.isChain_iff_getElem]
    intro i hi
    rw [List.length_map] at hi
    rw [List.getElem_map, List.getElem_map]
    exact hneighbours i _ _ (List.getElem?_eq_getElem _) (List.getElem?_eq_getElem hi)
  have hfrontiers : (checks.map (·.json)).forM (checkFrontier dag) = .ok () := by
    refine forM_eq_ok_iff.mpr (List.forall_mem_map.mpr fun cp hcp => ?_)
    obtain ⟨_, _, _, _, hcut⟩ := hc.exists_of_mem hcp
    exact hcut.checkFrontier_eq_ok hrows hbuild hcut.rows
  have hshared : checkSharedPrev (checks.map (·.json)) ∅ = .ok () := by
    refine checkSharedPrev_eq_ok (List.forall_mem_map.mpr fun cp hcp => ?_)
      (hc.nodup_prev hdistinct) fun _ _ _ _ => TreeMap.not_mem_emptyc
    obtain ⟨_, _, _, _, hcut⟩ := hc.exists_of_mem hcp
    rw [hcut.hash]
    rfl
  have hlast : (checks.map (·.json)).getLast?.forM (checkLatest dag) = .ok () := by
    refine option_forM_eq_ok fun cp hcp => ?_
    rw [List.getLast?_map] at hcp
    obtain ⟨c, hget, rfl⟩ := Option.map_eq_some_iff.mp hcp
    exact hlatest c hget
  unfold validateChain
  dsimp only
  rw [hsorted.insertionSort_eq]
  refine bind_eq_ok_iff.mpr ⟨(), hfirst, bind_eq_ok_iff.mpr ⟨(), hwindows, ?_⟩⟩
  refine bind_eq_ok_iff.mpr ⟨(), hfrontiers, bind_eq_ok_iff.mpr ⟨(), hshared, ?_⟩⟩
  exact bind_eq_ok_iff.mpr ⟨(), hlast, rfl⟩

/-- What a head says, by its position. -/
theorem exists_cut_of_head {heads : List HeadEntry}
    (hmap : heads.map some = checks.map fun cp => headEntry cp.json) {i : Nat} {e : HeadEntry}
    (he : heads[i]? = some e) :
    ∃ cp old log, checks[i]? = some cp ∧ HonestCut S rows checks i cp old log ∧ e.seq = i ∧
      HeadMatches S.sha256 (committedBrokerLog (recordTrustOf (rows.map (·.json)))
        (rows.map (·.json)) dag.byHash e.frontier none) e.head ∧
      priorGrantHeadRoot S.sha256 (checks.take i) = some e.head.priorHeadHash ∧
      e.head.cumulativeRoot = Broker.grantHeadRoot S.sha256 log := by
  have hget := congrArg (·[i]?) hmap
  rw [List.getElem?_map, List.getElem?_map, he, Option.map_some] at hget
  obtain ⟨cp, hcp, hentry⟩ := Option.map_eq_some_iff.mp hget.symm
  obtain ⟨old, log, hcut⟩ := hc i cp hcp
  obtain ⟨e', he', hfacts⟩ := hcut.exists_headEntry hrows hbuild hcut.rows
  obtain rfl := Option.some.inj (hentry.symm.trans he')
  exact ⟨cp, old, log, hcp, hcut, hfacts⟩

theorem pairwise_seq {heads : List HeadEntry}
    (hmap : heads.map some = checks.map fun cp => headEntry cp.json) :
    heads.Pairwise (·.seq < ·.seq) := by
  rw [List.pairwise_iff_getElem]
  intro i j hi hj hij
  obtain ⟨-, -, -, -, -, hseqi, -⟩ :=
    hc.exists_cut_of_head hrows hbuild hmap (List.getElem?_eq_getElem hi)
  obtain ⟨-, -, -, -, -, hseqj, -⟩ :=
    hc.exists_cut_of_head hrows hbuild hmap (List.getElem?_eq_getElem hj)
  rw [hseqi, hseqj]
  exact_mod_cast hij

/-- A head names the root of the log that the checkpoint before it covers. -/
theorem isChain_heads {heads : List HeadEntry}
    (hmap : heads.map some = checks.map fun cp => headEntry cp.json) :
    heads.IsChain fun a b => b.head.priorHeadHash = a.head.cumulativeRoot := by
  rw [List.isChain_iff_getElem]
  intro i hi
  obtain ⟨cp, _, log, hcp, hcut, -, -, -, hroot⟩ :=
    hc.exists_cut_of_head hrows hbuild hmap (List.getElem?_eq_getElem (Nat.lt_of_succ_lt hi))
  obtain ⟨-, -, -, -, -, -, -, hprior, -⟩ :=
    hc.exists_cut_of_head hrows hbuild hmap (List.getElem?_eq_getElem hi)
  rw [List.take_add_one, hcp, hcut.root _ (by simp)] at hprior
  rw [hroot, Option.some.inj hprior]

/-- The heads are all read, and verify against the verifier's own logs. -/
theorem exists_heads : ∃ heads, checks.map (fun cp => headEntry cp.json) = heads.map some ∧
    HeadsVerify S.sha256 (committedBrokerLog (recordTrustOf (rows.map (·.json)))
      (rows.map (·.json)) dag.byHash · none) (grantHeadRoot S.sha256 []) (orderHeads heads) := by
  have hmap := map_some_filterMap (f := fun cp : Checkpoint => headEntry cp.json) (l := checks)
    fun cp hcp => by
      obtain ⟨_, _, _, _, hcut⟩ := hc.exists_of_mem hcp
      obtain ⟨e, he, -⟩ := hcut.exists_headEntry hrows hbuild hcut.rows
      rw [he]
      rfl
  refine ⟨_, hmap.symm, ?_⟩
  rw [orderHeads_eq (hc.pairwise_seq hrows hbuild hmap)]
  refine headsVerify_of_isChain ?_ (hc.isChain_heads hrows hbuild hmap) ?_
  · intro e he
    obtain ⟨i, hi⟩ := List.mem_iff_getElem?.mp he
    obtain ⟨-, -, -, -, -, -, hmatches, -⟩ := hc.exists_cut_of_head hrows hbuild hmap hi
    exact hmatches
  · intro e he
    rw [List.head?_eq_getElem?] at he
    obtain ⟨-, -, -, -, -, -, -, hprior, -⟩ := hc.exists_cut_of_head hrows hbuild hmap he
    rw [← Option.some.inj hprior]
    exact Broker.grantHeadRoot_eq S.sha256 []

end HonestChecks

namespace Cutter

variable {was : Project → Prop} {p q : Project}

/-- The rows of a run are honest. -/
theorem WorldInv.honestRows {s : CutWorld} (h : WorldInv S was s) :
    HonestRows S s.project.records where
  sealed := h.sealed
  names := h.cut.names
  hashes := h.cut.rows.hashes

/-- A later checkpoint covers no fewer rows: the project it was cut from had the earlier one. -/
theorem CutInv.length_le (hwas : ∀ q, was q → CutInv S was q) {i j : Nat} (hij : i < j)
    (hq : was q) (hchecks : q.checks = p.checks.take j) {a : Checkpoint}
    (ha : p.checks[i]? = some a) {old : List Record} {log : List (Int × String)}
    (hcut : HonestCut S p.records p.checks i a old log) : old.length ≤ q.records.length := by
  have ha' : q.checks[i]? = some a := by rw [hchecks, List.getElem?_take_of_lt hij, ha]
  obtain ⟨q', _, -, -, hcut'⟩ := ((hwas q hq).cuts i a ha').honestCut ha'
  have hlength : old.length = q'.records.length := by
    exact_mod_cast Option.some.inj (hcut.count.symm.trans hcut'.count)
  rw [hlength]
  exact hcut'.rows.length_le

/-- Neighbouring checkpoints pass the check. -/
theorem CutInv.checkNeighbours_eq_ok (h : CutInv S was p) (hwas : ∀ q, was q → CutInv S was q)
    {i : Nat} {a b : Checkpoint} (ha : p.checks[i]? = some a) (hb : p.checks[i + 1]? = some b) :
    checkNeighbours a.json b.json = .ok () := by
  obtain ⟨_, _, _, _, hcuta⟩ := (h.cuts i a ha).honestCut ha
  obtain ⟨q, _, hq, hchecks, hcutb⟩ := (h.cuts (i + 1) b hb).honestCut hb
  exact hcuta.checkNeighbours_eq_ok hcutb ha
    (CutInv.length_le hwas (Nat.lt_succ_self i) hq hchecks ha hcuta)

/-- The checkpoints are honest over the rows of the latest one. -/
theorem CutInv.exists_honestChecks (h : CutInv S was p) (hwas : ∀ q, was q → CutInv S was q)
    {latest : Checkpoint} (hlatest : p.latestCheckpoint = some latest) :
    ∃ rows i log, rows <+: p.records ∧ HonestChecks S rows p.checks ∧
      HonestCut S rows p.checks i latest rows log := by
  rw [Project.latestCheckpoint, List.getLast?_eq_getElem?] at hlatest
  obtain ⟨q, log, hq, hchecks, hcut⟩ := (h.cuts _ _ hlatest).honestCut hlatest
  have hself : HonestCut S q.records p.checks (p.checks.length - 1) latest q.records log :=
    { hcut with rows := List.prefix_rfl }
  refine ⟨q.records, _, log, hcut.rows, fun i cp hcp => ?_, hself⟩
  have hlt := (List.getElem?_eq_some_iff.mp hcp).1
  rcases Nat.lt_or_ge i (p.checks.length - 1) with hi | hi
  · obtain ⟨q', log', -, -, hcut'⟩ := (h.cuts i cp hcp).honestCut hcp
    have hle := CutInv.length_le hwas hi hq hchecks hcp hcut'
    have hpre := List.prefix_of_prefix_length_le hcut'.rows hcut.rows hle
    exact ⟨q'.records, log', { hcut' with rows := hpre }⟩
  · obtain rfl : i = p.checks.length - 1 := by omega
    obtain rfl := Option.some.inj (hcp.symm.trans hlatest)
    exact ⟨q.records, log, hself⟩

/-- Every state of a run keeps the invariant. -/
theorem cutInv_of_visited (acts : List CutAction) :
    ∀ q, S.Visited acts q → CutInv S (S.Visited acts) q := by
  rintro q ⟨before, hbefore, rfl⟩
  refine ((S.worldInv_run before).mono ?_).cut
  rintro q ⟨earlier, hearlier, hq⟩
  exact ⟨earlier, hearlier.trans hbefore, hq⟩

variable (S)

/-- After every run with a checkpoint, in which no two checkpoints have one hash, the verifier
accepts the records the latest checkpoint counts and all the checkpoints: each is sealed under the
server's key, the graph is built, the chain is unbroken and ends in it, and every head is read and
found right, with the index of the records at hand. -/
theorem honest_history_verifies (acts : List CutAction) {latest : Checkpoint}
    (hlatest : (S.run acts).project.latestCheckpoint = some latest)
    (hdistinct : ((S.run acts).project.checks.map (·.checkpointHash)).Nodup) :
    let checks := (S.run acts).project.checks
    ∃ rows dag heads, rows <+: (S.run acts).project.records ∧
      let records := rows.map (·.json)
      let rts := recordTrustOf records
      recordCount latest.json = some (rows.length : Int) ∧
      (∀ r ∈ records, verifySealed S.N S.sha256 ed r S.sk.verifyingKey = .ok ()) ∧
      (∀ cp ∈ checks,
        verifyCheckpointSealed S.N S.sha256 ed cp.json S.sk.verifyingKey = .ok ()) ∧
      build records = .ok dag ∧
      validateChain (checks.map (·.json)) dag = .ok (checks.map (·.json)) ∧
      checks.map (fun cp => headEntry cp.json) = heads.map some ∧
      checkHeads S.sha256 rts records dag.byHash none
        (newCursor S.sha256 (fullLogIndex rts records dag.byHash dag.topoOrder))
        (grantHeadRoot S.sha256 []) (orderHeads heads) = [] := by
  have hworld := S.worldInv_run acts
  have h := hworld.cut
  have hwas := cutInv_of_visited (S := S) acts
  obtain ⟨rows, i, log, hpre, hc, hself⟩ := h.exists_honestChecks hwas hlatest
  have hrows := hworld.honestRows.of_prefix hpre
  obtain ⟨dag, hbuild⟩ := hrows.exists_build
  obtain ⟨heads, hheads, hverify⟩ := hc.exists_heads hrows hbuild
  refine ⟨rows, dag, heads, hpre, hself.count, ?_, ?_, hbuild, ?_, hheads, ?_⟩
  · exact List.forall_mem_map.mpr fun r hr => (hrows.sealed r hr).read.1
  · intro cp hcp
    obtain ⟨_, _, _, _, hcut⟩ := hc.exists_of_mem hcp
    exact hcut.verifies
  · refine hc.validateChain_eq_ok hrows hbuild ?_ hdistinct fun cp hcp => ?_
    · intro i a b ha hb
      exact h.checkNeighbours_eq_ok hwas ha hb
    · obtain rfl := Option.some.inj (hcp.symm.trans hlatest)
      exact hself.checkLatest_eq_ok hrows hbuild
  · exact (checkHeads_eq_nil_iff (build_eq_ok hbuild)
      (cursorRight_newCursor (build_eq_ok hbuild))).mpr hverify

/-- A hash that keeps one byte. -/
def rollingHash (b : List UInt8) : Vector UInt8 32 :=
  .replicate 32 (b.foldl (fun acc c => 31 * acc + c) 1)

/-- A server that signs with nothing. -/
def sampleCutter : Cutter anySig :=
  { sampleRecorder with sha256 := rollingHash, projectId := "p", brokerId := "" }

/-- A record with every member it needs. -/
def sampleBody (text : String) : CanonValue := .obj (requiredTopKeys.map (·, .str text))

/-- A record is stored and a checkpoint is cut, and both once more. -/
def sampleActions : List CutAction :=
  [.store "s" "" (sampleBody "x") none [], .start 0 "2026-01-01T00:00:00.000Z" false,
    .store "s" "" (sampleBody "y") none [], .start 1 "2026-01-02T00:00:00.000Z" false]

/-- A run that stores two records and cuts a checkpoint after each verifies. -/
theorem honest_history_verifies_sample :
    (sampleCutter.run sampleActions).project.records.length = 2 ∧
      (sampleCutter.run sampleActions).project.checks.length = 2 ∧
      ∃ rows dag, rows <+: (sampleCutter.run sampleActions).project.records ∧
        build (rows.map (·.json)) = .ok dag ∧
        validateChain ((sampleCutter.run sampleActions).project.checks.map (·.json)) dag =
          .ok ((sampleCutter.run sampleActions).project.checks.map (·.json)) := by
  have hcut : (sampleCutter.run sampleActions).project.latestCheckpoint.isSome = true := by
    decide +kernel
  obtain ⟨latest, hlatest⟩ := Option.isSome_iff_exists.mp hcut
  have hdistinct :
      ((sampleCutter.run sampleActions).project.checks.map (·.checkpointHash)).Nodup := by
    decide +kernel
  obtain ⟨rows, dag, -, hpre, -, -, -, hbuild, hchain, -⟩ :=
    sampleCutter.honest_history_verifies sampleActions hlatest hdistinct
  exact ⟨by decide +kernel, by decide +kernel, rows, dag, hpre, hbuild, hchain⟩

end Cutter

end Averin
