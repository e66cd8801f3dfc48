import Averin.Checkpoint.Chain
import Mathlib.Data.Set.Card

/-!
# No omission, no injection

An accepted chain over an accepted DAG leaves nothing uncovered. The frontier of the last
checkpoint is the set of heads, every record is an ancestor of a head, and neighbouring
checkpoints are copies of one another or linked successors.
-/

namespace Averin

open Std (TreeMap TreeSet)

/-- The number of a checkpoint. -/
def checkpointSeq (c : CanonValue) : Option Int :=
  (c.get "checkpoint_seq").bind CanonValue.asInt

/-- Its hash. -/
def checkpointHash (c : CanonValue) : Option String :=
  (c.get "checkpoint_hash").bind CanonValue.asStr

/-- The hash of the one before it. -/
def prevCheckpointHash (c : CanonValue) : Option String :=
  (c.get "prev_checkpoint_hash").bind CanonValue.asStr

/-- How many records it states. -/
def recordCount (c : CanonValue) : Option Int := (c.get "record_count").bind CanonValue.asInt

/-- The hashes a checkpoint commits as its frontier. -/
def frontierOf (c : CanonValue) : List String :=
  match (c.get "frontier").bind CanonValue.asArray with
  | some items => items.filterMap CanonValue.asStr
  | none => []

/-- A text is read where there is one. -/
theorem strField_eq_ok_iff {o : CanonValue} {k s : String} :
    strField o k = .ok s ↔ (o.get k).bind CanonValue.asStr = some s := by
  simp [strField, Option.bind_eq_some_iff]

/-- A number is read where there is one. -/
theorem intField_eq_ok_iff {o : CanonValue} {k : String} {n : Int} :
    intField o k = .ok n ↔ (o.get k).bind CanonValue.asInt = some n := by
  simp [intField, Option.bind_eq_some_iff]

/-- The same number, link, count and frontier. -/
def Agree (c c' : CanonValue) : Prop :=
  checkpointSeq c = checkpointSeq c' ∧ prevCheckpointHash c = prevCheckpointHash c' ∧
    recordCount c = recordCount c' ∧ frontierOf c = frontierOf c'

/-- `b` is the successor of `a`: it names the hash of `a` and does not count fewer records. -/
def Follows (a b : CanonValue) : Prop :=
  (∃ h, checkpointHash a = some h ∧ prevCheckpointHash b = some h) ∧
    ∃ m n, recordCount a = some m ∧ recordCount b = some n ∧ m ≤ n

/-- Neighbours that pass: the same number and hash, or the next number and a link. -/
theorem checkNeighbours_eq_ok {a b : CanonValue} {u : Unit} (h : checkNeighbours a b = .ok u) :
    ∃ sa sb, checkpointSeq a = some sa ∧ checkpointSeq b = some sb ∧
      ((sa = sb ∧ ∃ h, checkpointHash a = some h ∧ checkpointHash b = some h) ∨
        (sb = sa + 1 ∧ Follows a b)) := by
  simp only [checkNeighbours, bind_eq_ok_iff, intField_eq_ok_iff] at h
  obtain ⟨sa, hsa, sb, hsb, h⟩ := h
  refine ⟨sa, sb, hsa, hsb, ?_⟩
  split_ifs at h with heq
  · simp only [bind_eq_ok_iff, strField_eq_ok_iff, require_eq_ok_iff] at h
    obtain ⟨ha, hha, hb, hhb, rfl⟩ := h
    exact Or.inl ⟨heq, ha, hha, hhb⟩
  · simp only [bind_eq_ok_iff, strField_eq_ok_iff, intField_eq_ok_iff, orFail_eq_ok_iff,
      require_eq_ok_iff] at h
    obtain ⟨-, hsucc, prevRef, hprev, prevHash, hhash, -, rfl, ca, hca, cb, hcb, hle⟩ := h
    exact Or.inr ⟨hsucc, ⟨prevRef, hhash, hprev⟩, ca, cb, hca, hcb, hle⟩

/-- Copies of one checkpoint hash agree on what the chain check reads. -/
def HashesBind (checkpoints : List CanonValue) : Prop :=
  ∀ c ∈ checkpoints, ∀ c' ∈ checkpoints, ∀ h, checkpointHash c = some h →
    checkpointHash c' = some h → Agree c c'

/-- The number of a checkpoint that has one. -/
def seqNumber (c : CanonValue) : Int := (checkpointSeq c).getD 0

/-- What holds of a list of checkpoints whose neighbours pass, when copies of a hash agree:
the numbers run from that of the first to that of the last without a gap, equal numbers
agree, and successive numbers are linked. -/
structure ChainSpec (first last : CanonValue) (l : List CanonValue) : Prop where
  numbered : ∀ c ∈ l, checkpointSeq c = some (seqNumber c)
  range : ∀ c ∈ l, seqNumber first ≤ seqNumber c ∧ seqNumber c ≤ seqNumber last
  no_gap : ∀ c ∈ l, ∀ k, seqNumber first ≤ k → k ≤ seqNumber c → ∃ c' ∈ l, seqNumber c' = k
  same : ∀ c ∈ l, ∀ c' ∈ l, seqNumber c = seqNumber c' →
    checkpointHash c = checkpointHash c' ∧ Agree c c'
  link : ∀ c ∈ l, ∀ c' ∈ l, seqNumber c' = seqNumber c + 1 → Follows c c'

/-- One checkpoint with a number is a chain. -/
theorem ChainSpec.singleton {a : CanonValue} (h : (checkpointSeq a).isSome = true) :
    ChainSpec a a [a] := by
  obtain ⟨s, hs⟩ := Option.isSome_iff_exists.mp h
  refine ⟨?_, ?_, ?_, ?_, ?_⟩
  · simp [seqNumber, hs]
  · simp
  · intro c hc k hk hk'
    obtain rfl := List.mem_singleton.mp hc
    exact ⟨c, hc, le_antisymm hk hk'⟩
  · intro c hc c' hc' _
    obtain rfl := List.mem_singleton.mp hc
    obtain rfl := List.mem_singleton.mp hc'
    exact ⟨rfl, rfl, rfl, rfl, rfl⟩
  · intro c hc c' hc' hn
    obtain rfl := List.mem_singleton.mp hc
    obtain rfl := List.mem_singleton.mp hc'
    omega

theorem Agree.symm {c c' : CanonValue} (h : Agree c c') : Agree c' c :=
  ⟨h.1.symm, h.2.1.symm, h.2.2.1.symm, h.2.2.2.symm⟩

theorem Agree.trans {c d e : CanonValue} (h : Agree c d) (h' : Agree d e) : Agree c e :=
  ⟨h.1.trans h'.1, h.2.1.trans h'.2.1, h.2.2.1.trans h'.2.2.1, h.2.2.2.trans h'.2.2.2⟩

/-- A copy in front of the chain. -/
theorem ChainSpec.cons_same {a b last : CanonValue} {l : List CanonValue}
    (h : ChainSpec b last (b :: l)) (hseq : checkpointSeq a = some (seqNumber b))
    (hh : checkpointHash a = checkpointHash b) (hab : Agree a b) :
    ChainSpec a last (a :: b :: l) := by
  have ha : seqNumber a = seqNumber b := by simp [seqNumber, hseq]
  have hbmem : b ∈ b :: l := by simp
  refine ⟨?_, ?_, ?_, ?_, ?_⟩
  · exact List.forall_mem_cons.mpr ⟨by rw [ha, hseq], h.numbered⟩
  · rw [ha]
    exact List.forall_mem_cons.mpr ⟨ha ▸ h.range b hbmem, h.range⟩
  · intro c hc k hk hk'
    rw [ha] at hk
    have hex : ∃ c' ∈ b :: l, seqNumber c' = k := by
      rcases List.mem_cons.mp hc with rfl | hc
      · exact h.no_gap b hbmem k hk (ha ▸ hk')
      · exact h.no_gap c hc k hk hk'
    obtain ⟨c', hc', hk⟩ := hex
    exact ⟨c', by simp [hc'], hk⟩
  · have hsame : ∀ c ∈ b :: l, seqNumber c = seqNumber a →
        checkpointHash c = checkpointHash a ∧ Agree c a := by
      intro c hc hn
      obtain ⟨h1, h2⟩ := h.same c hc b hbmem (hn.trans ha)
      exact ⟨h1.trans hh.symm, h2.trans hab.symm⟩
    intro c hc c' hc' hn
    rcases List.mem_cons.mp hc with rfl | hm <;> rcases List.mem_cons.mp hc' with rfl | hm'
    · exact ⟨rfl, rfl, rfl, rfl, rfl⟩
    · obtain ⟨h1, h2⟩ := hsame c' hm' hn.symm
      exact ⟨h1.symm, h2.symm⟩
    · exact hsame c hm hn
    · exact h.same c hm c' hm' hn
  · intro c hc c' hc' hn
    rcases List.mem_cons.mp hc with rfl | hm <;> rcases List.mem_cons.mp hc' with rfl | hm'
    · omega
    · obtain ⟨⟨k, hk, hk'⟩, m, n, hcm, hcn, hle⟩ := h.link b hbmem c' hm' (ha ▸ hn)
      exact ⟨⟨k, hh.trans hk, hk'⟩, m, n, hab.2.2.1.trans hcm, hcn, hle⟩
    · have := (h.range c hm).1
      omega
    · exact h.link c hm c' hm' hn

/-- A predecessor in front of the chain. -/
theorem ChainSpec.cons_succ {a b last : CanonValue} {l : List CanonValue}
    (h : ChainSpec b last (b :: l)) {s : Int} (hseq : checkpointSeq a = some s)
    (hs : seqNumber b = s + 1) (hab : Follows a b) : ChainSpec a last (a :: b :: l) := by
  have ha : seqNumber a = s := by simp [seqNumber, hseq]
  have hbmem : b ∈ b :: l := by simp
  have hlt : ∀ c ∈ b :: l, seqNumber a < seqNumber c := by
    intro c hc
    have := (h.range c hc).1
    omega
  refine ⟨?_, ?_, ?_, ?_, ?_⟩
  · exact List.forall_mem_cons.mpr ⟨by rw [ha, hseq], h.numbered⟩
  · have hlast := (h.range b hbmem).2
    refine List.forall_mem_cons.mpr ⟨⟨le_refl _, by omega⟩, fun c hc => ?_⟩
    exact ⟨(hlt c hc).le, (h.range c hc).2⟩
  · intro c hc k hk hk'
    by_cases hka : k = seqNumber a
    · exact ⟨a, by simp, hka.symm⟩
    rcases List.mem_cons.mp hc with rfl | hc
    · omega
    · obtain ⟨c', hc', hk⟩ := h.no_gap c hc k (by omega) hk'
      exact ⟨c', by simp [hc'], hk⟩
  · intro c hc c' hc' hn
    rcases List.mem_cons.mp hc with rfl | hm <;> rcases List.mem_cons.mp hc' with rfl | hm'
    · exact ⟨rfl, rfl, rfl, rfl, rfl⟩
    · exact absurd hn (hlt c' hm').ne
    · exact absurd hn.symm (hlt c hm).ne
    · exact h.same c hm c' hm' hn
  · intro c hc c' hc' hn
    rcases List.mem_cons.mp hc with rfl | hm <;> rcases List.mem_cons.mp hc' with rfl | hm'
    · omega
    · obtain ⟨⟨k, hk, hk'⟩, m, n, hcm, hcn, hle⟩ := hab
      obtain ⟨-, -, hprev, hcount, -⟩ := h.same b hbmem c' hm' (by omega)
      exact ⟨⟨k, hk, hprev ▸ hk'⟩, m, n, hcm, hcount ▸ hcn, hle⟩
    · have := hlt c hm
      omega
    · exact h.link c hm c' hm' hn

/-- Checkpoints that pass in pairs are a chain. -/
theorem chainSpec_of_checkWindows {a : CanonValue} {l : List CanonValue} {u : Unit}
    (h : checkWindows (a :: l) = .ok u) (hseq : (checkpointSeq a).isSome = true)
    (hb : HashesBind (a :: l)) : ChainSpec a ((a :: l).getLast (by simp)) (a :: l) := by
  induction l generalizing a with
  | nil => exact .singleton hseq
  | cons b l ih =>
    rw [checkWindows, bind_eq_ok_iff] at h
    obtain ⟨_, hnext, hrest⟩ := h
    obtain ⟨sa, sb, hsa, hsb, hcase⟩ := checkNeighbours_eq_ok hnext
    have hb' : HashesBind (b :: l) := fun c hc c' hc' =>
      hb c (by simp [hc]) c' (by simp [hc'])
    have hspec := ih hrest (by simp [hsb]) hb'
    have hsb' : seqNumber b = sb := by simp [seqNumber, hsb]
    rw [List.getLast_cons (by simp)]
    rcases hcase with ⟨rfl, k, hka, hkb⟩ | ⟨rfl, hfollows⟩
    · exact hspec.cons_same (by rw [hsa, hsb']) (hka.trans hkb.symm)
        (hb a (by simp) b (by simp) k hka hkb)
    · exact hspec.cons_succ hsa hsb' hfollows

/-- A frontier that passes names only indexed records. -/
theorem checkFrontier_eq_ok {dag : Dag} {cp : CanonValue} (h : checkFrontier dag cp = .ok ()) :
    ∀ f ∈ frontierOf cp, f ∈ dag.byHash := by
  simp only [checkFrontier, bind_eq_ok_iff, orFail_eq_ok_iff, forM_eq_ok_iff,
    checkFrontierMember, require_eq_ok_iff] at h
  obtain ⟨seq, -, v, hv, items, hitems, hall⟩ := h
  have hf : frontierOf cp = items.filterMap CanonValue.asStr := by
    simp [frontierOf, hv, hitems]
  intro f hmem
  rw [hf, List.mem_filterMap] at hmem
  obtain ⟨fh, hfh, hstr⟩ := hmem
  obtain ⟨f', hf', -, -, hin⟩ := hall fh hfh
  rw [hstr] at hf'
  obtain rfl := Option.some.inj hf'
  exact hin

/-- Lists with one set of members. -/
theorem mem_iff_of_toList_ofList_eq {l l' : List String}
    (h : (TreeSet.ofList l : TreeSet String).toList = (TreeSet.ofList l' : TreeSet String).toList)
    (s : String) : s ∈ l ↔ s ∈ l' := by
  have hmem : ∀ l : List String, s ∈ (TreeSet.ofList l : TreeSet String).toList ↔ s ∈ l := by
    intro l
    rw [TreeSet.mem_toList, TreeSet.mem_ofList]
    simp
  rw [← hmem, h, hmem]

/-- The latest checkpoint names the heads and counts the index. -/
theorem checkLatest_eq_ok {dag : Dag} {latest : CanonValue}
    (h : checkLatest dag latest = .ok ()) :
    (∀ f, f ∈ frontierOf latest ↔ f ∈ dag.heads) ∧
      recordCount latest = some (dag.byHash.size : Int) := by
  simp only [checkLatest, bind_eq_ok_iff, orFail_eq_ok_iff, intField_eq_ok_iff,
    require_eq_ok_iff] at h
  obtain ⟨seq, -, items, hitems, -, hset, stated, hcount, rfl⟩ := h
  refine ⟨fun f => ?_, hcount⟩
  have hf : frontierOf latest = items.filterMap CanonValue.asStr := by
    simp [frontierOf, hitems]
  rw [hf]
  exact mem_iff_of_toList_ofList_eq hset f

/-- An accepted chain is the checkpoints in order, each checked. -/
theorem validateChain_eq_ok {checkpoints ordered : List CanonValue} {dag : Dag}
    (h : validateChain checkpoints dag = .ok ordered) :
    ordered.Perm checkpoints ∧ (∀ c ∈ ordered.head?, checkpointSeq c = some 0) ∧
      checkWindows ordered = .ok () ∧ (∀ c ∈ ordered, ∀ f ∈ frontierOf c, f ∈ dag.byHash) ∧
      ∀ c ∈ ordered.getLast?, (∀ f, f ∈ frontierOf c ↔ f ∈ dag.heads) ∧
        recordCount c = some (dag.byHash.size : Int) := by
  simp only [validateChain, bind_eq_ok_iff] at h
  obtain ⟨_, hfirst, _, hwin, _, hfront, _, -, _, hlast, hret⟩ := h
  obtain rfl := Except.ok.inj hret
  refine ⟨List.perm_insertionSort _ _, ?_, hwin,
    fun c hc => checkFrontier_eq_ok (forM_eq_ok_iff.mp hfront c hc), ?_⟩
  · intro c hc
    rw [hc] at hfirst
    simp only [Option.forM, checkFirst, bind_eq_ok_iff, intField_eq_ok_iff,
      require_eq_ok_iff] at hfirst
    obtain ⟨seq, hseq, -, rfl, -⟩ := hfirst
    exact hseq
  · intro c hc
    rw [hc] at hlast
    exact checkLatest_eq_ok hlast

/-- Some record with hash `c` names `p` as a parent. -/
def ParentOf (records : List CanonValue) (c p : String) : Prop :=
  ∃ rec ∈ records, recordHash rec = some c ∧ p ∈ causalPrevHashes rec

/-- The hashes a frontier commits: its members and everything they descend from. -/
def ancestors (records : List CanonValue) (frontier : List String) : Set String :=
  { h | ∃ f ∈ frontier, Relation.ReflTransGen (ParentOf records) f h }

/-- The content hashes of a record list. -/
def contentHashes (records : List CanonValue) : Set String :=
  { h | ∃ rec ∈ records, recordHash rec = some h }

/-- Records with one content hash name the same parents. -/
def RecordsBind (records : List CanonValue) : Prop :=
  ∀ r ∈ records, ∀ r' ∈ records, ∀ h, recordHash r = some h → recordHash r' = some h →
    causalPrevHashes r = causalPrevHashes r'

variable {records : List CanonValue} {dag : Dag}

/-- The kept parents of an indexed hash are those it has in any set the records are from. -/
theorem Indexes.parentOf_iff_of_mem {byHash : TreeMap String Nat} (hi : Indexes records byHash)
    {R : List CanonValue} (hr : RecordsBind R) (hsub : ∀ rec ∈ records, rec ∈ R) {c p : String}
    (hc : c ∈ byHash) : ParentOf R c p ↔ p ∈ keptParents records byHash c := by
  obtain ⟨i, hget⟩ := Option.isSome_iff_exists.mp (TreeMap.isSome_getElem?_iff_mem.mpr hc)
  obtain ⟨kept, hmem, hrec, hkept⟩ := hi.kept hget
  have hpar : keptParents records byHash c = causalPrevHashes kept := by
    simp [keptParents, hget, List.getD_eq_getElem?_getD, hrec]
  rw [hpar]
  constructor
  · rintro ⟨rec, hrec, hh, hp⟩
    exact hr rec hrec kept (hsub kept hmem) c hh hkept ▸ hp
  · exact fun hp => ⟨kept, hsub kept hmem, hkept, hp⟩

/-- Only an indexed hash has kept parents. -/
theorem mem_of_mem_keptParents {byHash : TreeMap String Nat} {c p : String}
    (hp : p ∈ keptParents records byHash c) : c ∈ byHash := by
  rw [← TreeMap.isSome_getElem?_iff_mem]
  cases hi : byHash[c]? with
  | none => simp [keptParents, hi] at hp
  | some i => rfl

/-- The parents of a hash are those of the record that is kept. -/
theorem Indexes.parentOf_iff {byHash : TreeMap String Nat} (hi : Indexes records byHash)
    (hr : RecordsBind records) {c p : String} :
    ParentOf records c p ↔ p ∈ keptParents records byHash c := by
  constructor
  · rintro ⟨rec, hrec, hh, hp⟩
    exact (hi.parentOf_iff_of_mem hr (fun _ h => h) ((hi.mem_iff c).mpr ⟨rec, hrec, hh⟩)).mp
      ⟨rec, hrec, hh, hp⟩
  · intro hp
    exact (hi.parentOf_iff_of_mem hr (fun _ h => h) (mem_of_mem_keptParents hp)).mpr hp

/-- The ancestors of the heads are all the records. -/
theorem DagSpec.ancestors_heads (hs : DagSpec records dag) (hr : RecordsBind records)
    (frontier : List String) (hf : ∀ f, f ∈ frontier ↔ f ∈ dag.heads) :
    ancestors records frontier = { h | h ∈ dag.byHash } := by
  ext h
  constructor
  · rintro ⟨f, hmem, hreach⟩
    induction hreach with
    | refl => exact ((hs.mem_heads f).mp ((hf f).mp hmem)).1
    | tail _ hstep _ => exact hs.keptParents_mem ((hs.indexes.parentOf_iff hr).mp hstep)
  · intro hh
    obtain ⟨s, hsh, hreach⟩ := hs.exists_head hh
    exact ⟨s, (hf s).mpr hsh,
      Relation.ReflTransGen.mono (fun c p hp => (hs.indexes.parentOf_iff hr).mpr hp) _ _ hreach⟩

/-- A map has as many keys as its size says. -/
theorem ncard_byHash (m : TreeMap String Nat) : { h : String | h ∈ m }.ncard = m.size := by
  have hset : { h : String | h ∈ m } = ↑m.keys.toFinset := by
    ext h
    simp
  rw [hset, Set.ncard_coe_finset, List.toFinset_card_of_nodup TreeMap.nodup_keys,
    TreeMap.length_keys]

/-- No omission, no injection. Over an accepted DAG and an accepted chain, whose copies of a
hash agree, the records are exactly what the frontier of the highest checkpoint commits,
its count is their number, every earlier frontier is covered, and the checkpoints are
numbered from zero without a gap, one hash a number, each linked to its predecessor. -/
theorem chain_covers_records {checkpoints ordered : List CanonValue}
    (hd : build records = .ok dag) (hc : validateChain checkpoints dag = .ok ordered)
    (hr : RecordsBind records) (hb : HashesBind checkpoints) {latest : CanonValue}
    (hl : latest ∈ checkpoints) (hmax : ∀ c ∈ checkpoints, seqNumber c ≤ seqNumber latest) :
    contentHashes records = ancestors records (frontierOf latest) ∧
    recordCount latest = some ((ancestors records (frontierOf latest)).ncard : Int) ∧
    (∀ c ∈ checkpoints, ∀ f ∈ frontierOf c, f ∈ ancestors records (frontierOf latest)) ∧
    (∀ c ∈ checkpoints, ∃ n : Nat, checkpointSeq c = some (n : Int)) ∧
    (∀ n : Nat, n ≤ seqNumber latest → ∃ c ∈ checkpoints, checkpointSeq c = some (n : Int)) ∧
    (∀ c ∈ checkpoints, ∀ c' ∈ checkpoints, checkpointSeq c = checkpointSeq c' →
      checkpointHash c = checkpointHash c') ∧
    (∀ c ∈ checkpoints, ∀ c' ∈ checkpoints, ∀ n, checkpointSeq c = some n →
      checkpointSeq c' = some (n + 1) → Follows c c') := by
  obtain ⟨hperm, hfirst, hwin, hfront, hlast⟩ := validateChain_eq_ok hc
  have hs := build_eq_ok hd
  have hmem : ∀ c, c ∈ ordered ↔ c ∈ checkpoints := fun c => hperm.mem_iff
  obtain ⟨a, l, rfl⟩ := List.exists_cons_of_ne_nil (List.ne_nil_of_mem ((hmem latest).mpr hl))
  have hzero : checkpointSeq a = some 0 := hfirst a rfl
  have hspec := chainSpec_of_checkWindows hwin (by simp [hzero])
    (fun c hc c' hc' => hb c ((hmem c).mp hc) c' ((hmem c').mp hc'))
  have ha : seqNumber a = 0 := by simp [seqNumber, hzero]
  have hlastmem := List.getLast_mem (List.cons_ne_nil a l)
  obtain ⟨hheads, hcount⟩ := hlast _ (List.getLast?_eq_getLast_of_ne_nil (by simp))
  -- The highest checkpoint and the last one listed have one number, so they agree.
  have hsame := hspec.same latest ((hmem latest).mpr hl) _ hlastmem
    (le_antisymm (hspec.range latest ((hmem latest).mpr hl)).2 (hmax _ ((hmem _).mp hlastmem)))
  obtain ⟨-, -, -, hrc, hfr⟩ := hsame
  have hanc := hs.ancestors_heads hr (frontierOf latest) (fun f => hfr ▸ hheads f)
  refine ⟨?_, ?_, ?_, ?_, ?_, ?_, ?_⟩
  · rw [hanc]
    ext h
    exact hs.mem_byHash_iff.symm
  · rw [hanc, ncard_byHash, hrc, hcount]
  · intro c hcm f hf
    rw [hanc]
    exact hfront c ((hmem c).mpr hcm) f hf
  · intro c hcm
    have hrange := (hspec.range c ((hmem c).mpr hcm)).1
    refine ⟨(seqNumber c).toNat, ?_⟩
    rw [hspec.numbered c ((hmem c).mpr hcm), Int.toNat_of_nonneg (by omega)]
  · intro n hn
    obtain ⟨c, hcm, hcn⟩ := hspec.no_gap latest ((hmem latest).mpr hl) n (by omega) hn
    exact ⟨c, (hmem c).mp hcm, by rw [hspec.numbered c hcm, hcn]⟩
  · intro c hcm c' hcm' heq
    exact (hspec.same c ((hmem c).mpr hcm) c' ((hmem c').mpr hcm') (by simp [seqNumber, heq])).1
  · intro c hcm c' hcm' n hn hn'
    exact hspec.link c ((hmem c).mpr hcm) c' ((hmem c').mpr hcm') (by simp [seqNumber, hn, hn'])

/-- A digest text of one repeated hex digit. -/
def digest (c : Char) : String := "sha256:" ++ String.ofList (List.replicate 64 c)

/-- A record with nothing but its hash and its parents. -/
def bareRecord (hash : String) (parents : List String) : CanonValue :=
  .obj [("content_hash", .str hash), ("causal_prev_hashes", .arr (parents.map .str))]

@[simp] theorem recordHash_bareRecord (hash : String) (parents : List String) :
    recordHash (bareRecord hash parents) = some hash := rfl

/-- A checkpoint with nothing but its chain fields. -/
def bareCheckpoint (seq : Int64) (hash : String) (prev : CanonValue) (count : Int64)
    (frontier : List String) : CanonValue :=
  .obj [("checkpoint_seq", .int seq), ("checkpoint_hash", .str hash),
    ("prev_checkpoint_hash", prev), ("record_count", .int count),
    ("frontier", .arr (frontier.map .str))]

/-- Both checks run and pass. -/
def accepted (records checkpoints : List CanonValue) : Bool :=
  match build records with
  | .error _ => false
  | .ok dag => (validateChain checkpoints dag).toOption.isSome

/-- Accepted inputs have their graph and their order. -/
theorem exists_of_accepted (records checkpoints : List CanonValue)
    (h : accepted records checkpoints = true) :
    ∃ dag ordered, build records = .ok dag ∧ validateChain checkpoints dag = .ok ordered := by
  unfold accepted at h
  cases hb : build records with
  | error e => simp [hb] at h
  | ok dag =>
    simp only [hb] at h
    cases hv : validateChain checkpoints dag with
    | error e => simp [hv, Except.toOption] at h
    | ok ordered => exact ⟨dag, ordered, rfl, hv⟩

/-- Without agreement of copies the chain may lose a count and the records an ancestor: two
copies of a checkpoint hash with different counts pass, and so do two copies of a record
hash of which the one not kept names an absent parent. -/
theorem copies_may_disagree :
    (∃ dag ordered, build [bareRecord (digest 'a') []] = .ok dag ∧
      validateChain
        [bareCheckpoint 0 "h0" .null 5 [digest 'a'], bareCheckpoint 0 "h0" .null 1 [digest 'a'],
          bareCheckpoint 1 "h1" (.str "h0") 1 [digest 'a']] dag = .ok ordered ∧
      ¬ Follows (bareCheckpoint 0 "h0" .null 5 [digest 'a'])
        (bareCheckpoint 1 "h1" (.str "h0") 1 [digest 'a'])) ∧
    (∃ dag ordered,
      build [bareRecord (digest 'a') [digest 'b'], bareRecord (digest 'a') []] = .ok dag ∧
      validateChain [bareCheckpoint 0 "h0" .null 1 [digest 'a']] dag = .ok ordered ∧
      contentHashes [bareRecord (digest 'a') [digest 'b'], bareRecord (digest 'a') []] ≠
        ancestors [bareRecord (digest 'a') [digest 'b'], bareRecord (digest 'a') []]
          (frontierOf (bareCheckpoint 0 "h0" .null 1 [digest 'a']))) := by
  constructor
  · obtain ⟨dag, ordered, hb, hv⟩ := exists_of_accepted
      [bareRecord (digest 'a') []]
      [bareCheckpoint 0 "h0" .null 5 [digest 'a'],
        bareCheckpoint 0 "h0" .null 1 [digest 'a'],
        bareCheckpoint 1 "h1" (.str "h0") 1 [digest 'a']] (by decide +kernel)
    refine ⟨dag, ordered, hb, hv, ?_⟩
    rintro ⟨-, m, n, hm, hn, hle⟩
    have hm' : some (5 : Int) = some m := hm
    have hn' : some (1 : Int) = some n := hn
    simp only [Option.some.injEq] at hm' hn'
    omega
  · obtain ⟨dag, ordered, hb, hv⟩ := exists_of_accepted
      [bareRecord (digest 'a') [digest 'b'], bareRecord (digest 'a') []]
      [bareCheckpoint 0 "h0" .null 1 [digest 'a']] (by decide +kernel)
    refine ⟨dag, ordered, hb, hv, fun heq => ?_⟩
    have hmem : digest 'b' ∈ ancestors
        [bareRecord (digest 'a') [digest 'b'], bareRecord (digest 'a') []]
        (frontierOf (bareCheckpoint 0 "h0" .null 1 [digest 'a'])) :=
      ⟨digest 'a', by decide +kernel, Relation.ReflTransGen.single
        ⟨bareRecord (digest 'a') [digest 'b'], by simp, rfl, by decide +kernel⟩⟩
    rw [← heq] at hmem
    obtain ⟨rec, hrec, hh⟩ := hmem
    have hne : digest 'a' ≠ digest 'b' := by decide +kernel
    have hhash : recordHash rec = some (digest 'a') := by
      rcases List.mem_pair.mp hrec with rfl | rfl <;> rfl
    exact hne (Option.some.inj (hhash.symm.trans hh))

/-- Two records with different hashes. -/
theorem recordsBind_pair {h h' : String} (hne : h ≠ h') {ps ps' : List String} :
    RecordsBind [bareRecord h ps, bareRecord h' ps'] := by
  intro r hr r' hr' k hh hh'
  rcases List.mem_pair.mp hr with rfl | rfl <;> rcases List.mem_pair.mp hr' with rfl | rfl
  · rfl
  · exact absurd (Option.some.inj (hh.trans hh'.symm)) hne
  · exact absurd (Option.some.inj (hh'.trans hh.symm)) hne
  · rfl

/-- Two records and two linked checkpoints. -/
theorem chain_covers_two_records :
    contentHashes [bareRecord (digest 'a') [], bareRecord (digest 'b') [digest 'a']] =
      ancestors [bareRecord (digest 'a') [], bareRecord (digest 'b') [digest 'a']]
        [digest 'b'] := by
  obtain ⟨dag, ordered, hb, hv⟩ := exists_of_accepted
    [bareRecord (digest 'a') [], bareRecord (digest 'b') [digest 'a']]
    [bareCheckpoint 0 "h0" .null 1 [digest 'a'],
      bareCheckpoint 1 "h1" (.str "h0") 2 [digest 'b']] (by decide +kernel)
  have hne : digest 'a' ≠ digest 'b' := by decide +kernel
  refine (chain_covers_records hb hv ?_ ?_
    (show bareCheckpoint 1 "h1" (.str "h0") 2 [digest 'b'] ∈ _ by simp) ?_).1
  · exact recordsBind_pair hne
  · intro c hc c' hc' h hh hh'
    rcases List.mem_pair.mp hc with rfl | rfl <;> rcases List.mem_pair.mp hc' with rfl | rfl
    · exact ⟨rfl, rfl, rfl, rfl⟩
    · exact absurd (Option.some.inj (hh.trans hh'.symm)) (by decide)
    · exact absurd (Option.some.inj (hh'.trans hh.symm)) (by decide)
    · exact ⟨rfl, rfl, rfl, rfl⟩
  · intro c hc
    rcases List.mem_pair.mp hc with rfl | rfl <;> decide

end Averin
