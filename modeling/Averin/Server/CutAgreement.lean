import Averin.Server.CheckpointCut

/-!
# The two cuts agree

What the incremental cut takes over from a checkpoint is what the full cut computed for it, so both
compute the same: the heads of a longer history follow from the heads of the shorter one, the log
continues where it stopped, and its root is a fold that can be resumed.
-/

namespace Averin

theorem ok_bind {ε α β : Type} (a : α) (f : α → Except ε β) : (Except.ok a >>= f) = f a := rfl

theorem error_bind {ε α β : Type} (e : ε) (f : α → Except ε β) :
    ((Except.error e : Except ε α) >>= f) = .error e := rfl

theorem orFail_some {ε α : Type} (a : α) (e : ε) : orFail (some a) e = .ok a := rfl

theorem orFail_none {ε α : Type} (e : ε) : orFail (none : Option α) e = .error e := rfl

/-- The `n` numbers after `start`. -/
def numbersFrom (start : Int) (n : Nat) : List Int :=
  (List.range n).map fun i : Nat => start + i + 1

/-- Numbers are counted in two parts. -/
theorem numbersFrom_add (start : Int) (m n : Nat) :
    numbersFrom start (m + n) = numbersFrom start m ++ numbersFrom (start + m) n := by
  have hshift : ∀ i : Nat, start + m + i + 1 = start + ((m + i : Nat) : Int) + 1 := by
    intro i
    omega
  simp [numbersFrom, List.range_add, hshift]

theorem pairwise_numbersFrom (start : Int) (n : Nat) :
    (numbersFrom start n).Pairwise (· < ·) := by
  rw [numbersFrom, List.pairwise_map]
  exact List.pairwise_lt_range.imp fun h => by omega

/-- Every entry has the number of its position. -/
theorem forall_zipIdx_iff {gl : List (Int × String)} {start : Int} :
    (∀ g ∈ gl.zipIdx, g.1.1 = start + g.2 + 1) ↔ gl.map (·.1) = numbersFrom start gl.length := by
  rw [List.ext_getElem_iff]
  simp only [numbersFrom, Prod.forall, List.mem_zipIdx_iff_getElem?, List.length_map,
    List.length_range, List.getElem_map, List.getElem_range, true_and]
  constructor
  · intro h i hi _
    exact h gl[i].1 gl[i].2 i (by simp [hi])
  · intro h s c i hi
    obtain ⟨hlt, he⟩ := List.getElem?_eq_some_iff.mp hi
    have hval := h i hlt hlt
    rw [he] at hval
    exact hval

/-- Neighbours of a log without a gap have different numbers. -/
theorem ne_of_mem_neighbours {gl : List (Int × String)} {start : Int} {n : Nat}
    (h : gl.map (·.1) = numbersFrom start n) : ∀ g ∈ neighbours gl, g.2.1 ≠ g.1.1 := by
  have hpair : gl.Pairwise fun a b => a.1 < b.1 := by
    rw [← List.pairwise_map (f := fun g : Int × String => g.1), h]
    exact pairwise_numbersFrom start n
  intro g hg
  have hlt := (forall_neighbours_iff_isChain (fun a b : Int × String => a.1 < b.1) gl).mpr
    hpair.isChain g hg
  exact hlt.ne'

/-- A log has no gap when it counts from one to the last number. -/
theorem checkGaplessGrantLog_eq_ok_iff {gl : List (Int × String)} {m : Int} :
    checkGaplessGrantLog gl m = .ok () ↔
      gl.map (·.1) = numbersFrom 0 gl.length ∧ m = gl.length := by
  simp only [checkGaplessGrantLog, bind_eq_ok_iff, require_eq_ok_iff]
  constructor
  · rintro ⟨_, -, _, hgap, hm⟩
    refine ⟨forall_zipIdx_iff.mp fun g hg => ?_, hm⟩
    rw [require_eq_ok_iff.mp (forM_eq_ok_iff.mp hgap g hg)]
    omega
  · rintro ⟨hnumbers, hm⟩
    refine ⟨(), forM_eq_ok_iff.mpr fun g hg => require_eq_ok_iff.mpr ?_, (),
      forM_eq_ok_iff.mpr fun g hg => require_eq_ok_iff.mpr ?_, hm⟩
    · exact ne_of_mem_neighbours hnumbers g hg
    · rw [forall_zipIdx_iff.mpr hnumbers g hg]
      omega

/-- A log after a head goes on counting from there. -/
theorem checkGaplessGrantLogAfter_eq_ok_iff {gl : List (Int × String)} {priorMax m : Int} :
    checkGaplessGrantLogAfter gl priorMax m = .ok () ↔
      gl.map (·.1) = numbersFrom priorMax gl.length ∧ m = priorMax + gl.length := by
  simp only [checkGaplessGrantLogAfter, bind_eq_ok_iff, require_eq_ok_iff]
  constructor
  · rintro ⟨_, -, _, hgap, hm⟩
    refine ⟨forall_zipIdx_iff.mp fun g hg => ?_, hm⟩
    obtain ⟨_, -, hnumber⟩ := bind_eq_ok_iff.mp (forM_eq_ok_iff.mp hgap g hg)
    exact require_eq_ok_iff.mp hnumber
  · rintro ⟨hnumbers, hm⟩
    refine ⟨(), forM_eq_ok_iff.mpr fun g hg => require_eq_ok_iff.mpr ?_, (),
      forM_eq_ok_iff.mpr fun g hg => ?_, hm⟩
    · exact ne_of_mem_neighbours hnumbers g hg
    · have hnumber := forall_zipIdx_iff.mpr hnumbers g hg
      rw [bind_eq_ok_iff]
      exact ⟨(), require_eq_ok_iff.mpr (by omega), require_eq_ok_iff.mpr hnumber⟩

/-- A sorted log of old and new entries is without a gap exactly when the new entries continue the
old ones. -/
theorem gapless_append_iff {old new whole : List (Int × String)}
    (hold : old.map (·.1) = numbersFrom 0 old.length) (hperm : whole.Perm (old ++ new))
    (hwhole : whole.Pairwise (·.1 ≤ ·.1)) (hnew : new.Pairwise (·.1 ≤ ·.1)) :
    whole.map (·.1) = numbersFrom 0 whole.length ↔
      new.map (·.1) = numbersFrom old.length new.length := by
  have hsorted : ∀ {log : List (Int × String)}, log.Pairwise (·.1 ≤ ·.1) →
      (log.map (·.1)).Pairwise (· ≤ ·) := fun h => List.pairwise_map.mpr h
  have hunique : ∀ {log : List (Int × String)} {start : Int}, log.Pairwise (·.1 ≤ ·.1) →
      (log.map (·.1) = numbersFrom start log.length ↔
        (log.map (·.1)).Perm (numbersFrom start log.length)) := by
    intro log start hlog
    refine ⟨fun h => h ▸ List.Perm.refl _, fun h => ?_⟩
    exact h.eq_of_pairwise (fun a b _ _ => le_antisymm) (hsorted hlog)
      ((pairwise_numbersFrom start _).imp le_of_lt)
  have hlength : whole.length = old.length + new.length := by
    rw [hperm.length_eq, List.length_append]
  have hmap := hperm.map (·.1)
  rw [List.map_append, hold] at hmap
  rw [hunique hwhole, hunique hnew, hlength, numbersFrom_add, zero_add,
    hmap.congr_left, List.perm_append_left_iff]

/-- A digit that is read strictly is read alike. -/
theorem hexDecodeDigit_of_hexVal {c v : UInt8} (h : hexVal c = some v) :
    hexDecodeDigit c = some v := by
  have hall : ∀ n < 256, hexVal (.ofNat n) = none ∨
      hexDecodeDigit (.ofNat n) = hexVal (.ofNat n) := by decide +kernel
  have hc := hall c.toNat c.toNat_lt
  rw [UInt8.ofNat_toNat, h] at hc
  exact hc.resolve_left (by simp)

/-- What the verifier reads as hex the server reads too. -/
theorem hexDecodeString_of_hexPairs {b out : List UInt8} (h : hexPairs b = some out) :
    hexDecodeString b = some out := by
  induction b using hexDecodeString.induct generalizing out with
  | case1 => exact h
  | case2 hi lo rest ih =>
    unfold hexPairs at h
    split at h
    · next hv lv out' hhi hlo hrest =>
      obtain rfl := Option.some.inj h
      simp [hexDecodeString, hexDecodeDigit_of_hexVal hhi, hexDecodeDigit_of_hexVal hlo,
        ih hrest]
    · cases h
  | case3 => cases h

namespace Broker

variable {sha256 : List UInt8 → Vector UInt8 32}

theorem maxSeqFrom_append (start : Int) (old new : List (Int × String)) :
    maxSeqFrom start (old ++ new) = maxSeqFrom (maxSeqFrom start old) new := List.foldl_append

/-- The largest of numbers that count on is the last. -/
theorem maxSeqFrom_numbersFrom {start : Int} {gl : List (Int × String)}
    (h : gl.map (·.1) = numbersFrom start gl.length) :
    maxSeqFrom start gl = start + gl.length := by
  induction gl using List.reverseRecOn with
  | nil => simp [maxSeqFrom]
  | append_singleton gl g ih =>
    rw [List.length_append, List.length_singleton, numbersFrom_add, List.map_append] at h
    obtain ⟨hgl, hg⟩ := List.append_inj h (by simp [numbersFrom])
    have hg : g.1 = start + gl.length + 1 := by simpa [numbersFrom] using hg
    rw [maxSeqFrom_append, ih hgl]
    simp [maxSeqFrom, hg]
    omega

/-- Resuming from the root of a log gives the root of the longer one. -/
theorem grantHeadRootFrom_grantHeadRoot (old new : List (Int × String)) :
    grantHeadRootFrom sha256 (grantHeadRoot sha256 old) new =
      some (grantHeadRoot sha256 (old ++ new)) := by
  obtain ⟨acc, hacc⟩ : ∃ acc : Vector UInt8 32,
      old.foldl (grantHeadStep sha256) (grantHeadSeed sha256) = acc.toList := by
    induction old using List.reverseRecOn with
    | nil => exact ⟨_, rfl⟩
    | append_singleton old g ih => exact ⟨_, by rw [List.foldl_append]; rfl⟩
  have hroot : grantHeadRoot sha256 old = rootText acc := by
    rw [grantHeadRoot, foldGrantHeadRoot, hacc, rootText]
  have hstrip : (bytes "sha256:").isPrefixOf? (bytes (rootText acc)) =
      some (bytes (hexLower acc.toList)) := by
    rw [rootText, bytes_append]
    exact isPrefixOf?_append_self _ _
  rw [grantHeadRootFrom, hroot, hstrip, Option.bind_eq_bind, Option.bind_some,
    hexDecodeString_of_hexPairs (hexPairs_hexLower acc.toList)]
  rw [grantHeadRoot, foldGrantHeadRoot, List.foldl_append, hacc]
  simp [foldGrantHeadRoot]

/-- A head that goes on from another is the head of all. -/
theorem brokerGrantHeadFrom_eq (old new : List (Int × String)) :
    brokerGrantHeadFrom sha256 (grantHeadRoot sha256 old) (maxSeqFrom 0 old) new =
      orFail (brokerGrantHead sha256 (old ++ new) (grantHeadRoot sha256 old)) .number := by
  rw [brokerGrantHeadFrom, grantHeadRootFrom_grantHeadRoot, brokerGrantHead, maxSeqFrom_append]
  rfl

end Broker

/-- Rows that are numbered in order pass the check. -/
theorem checkOrdinalsFrom_zipIdx (after : Nat) (rows : List Record) (i : Nat) :
    checkOrdinalsFrom after i ((rows.zipIdx i).map fun r => (wrapInt64 (after + r.2 + 1), r.1)) =
      .ok () := by
  induction rows generalizing i with
  | nil => rfl
  | cons r rows ih =>
    rw [List.zipIdx_cons, List.map_cons, checkOrdinalsFrom, if_neg (by simp)]
    exact ih (i + 1)

/-- The store in memory gives out no page with a gap. -/
theorem checkPageOrdinals_ordinalPage (p : Project) (after : Nat) :
    checkPageOrdinals (p.ordinalPage after) after = .ok () :=
  checkOrdinalsFrom_zipIdx after _ 0

/-- A page adds its hashes, its parents and its rows. -/
theorem foldl_add (f : FrontierFold) (rows : List Record) :
    rows.foldl FrontierFold.add f = {
      hashes := f.hashes ++ rows.map (·.contentHash)
      referenced := f.referenced ∪ (rows.flatMap (·.parents)).toFinset } := by
  induction rows generalizing f with
  | nil => simp
  | cons r rows ih =>
    rw [List.foldl_cons, ih, FrontierFold.add]
    simp [Finset.union_assoc]

theorem grantEntries_append (old new : List Record) :
    grantEntries (old ++ new) = grantEntries old ++ grantEntries new := List.filterMap_append

/-- What reading some rows adds. -/
structure CutTail.Reads (t t' : CutTail) (rows : List Record) : Prop where
  after : t'.after = t.after + rows.length
  fold : t'.fold = rows.foldl FrontierFold.add t.fold
  gl : t'.gl.Perm (t.gl ++ grantEntries rows)

/-- A page is read once. -/
theorem CutTail.reads_addPage (t : CutTail) (page : List Record) :
    t.Reads (t.addPage page) page where
  after := rfl
  fold := rfl
  gl := (isGrantLog_grantLog page).perm.append_left t.gl

/-- Two pages are read one after the other. -/
theorem CutTail.Reads.trans {t t' t'' : CutTail} {rows rows' : List Record}
    (h : t.Reads t' rows) (h' : t'.Reads t'' rows') : t.Reads t'' (rows ++ rows') where
  after := by rw [h'.after, h.after, List.length_append, Nat.add_assoc]
  fold := by rw [h'.fold, h.fold, List.foldl_append]
  gl := by
    rw [grantEntries_append, ← List.append_assoc]
    exact h'.gl.trans (h.gl.append_right _)

/-- Page by page every row after the ordinal is read once. -/
theorem cutTail_reads (p : Project) (t : CutTail) :
    ∃ t', p.cutTail t = .ok t' ∧ t.Reads t' (p.records.drop t.after) := by
  induction t using Project.cutTail.induct p with
  | case1 t page why hcheck =>
    have hok : checkPageOrdinals page t.after = .ok () := checkPageOrdinals_ordinalPage p t.after
    rw [hok] at hcheck
    cases hcheck
  | case2 t page hcheck hshort =>
    have hlength : page.length = _ := p.length_ordinalPage t.after
    refine ⟨t.addPage (page.map (·.2)), ?_, ?_⟩
    · rw [Project.cutTail, checkPageOrdinals_ordinalPage]
      exact if_pos hshort
    · have hall : page.map (·.2) = p.records.drop t.after := by
        rw [show page.map (·.2) = _ from p.map_ordinalPage t.after]
        apply List.take_of_length_le
        rw [List.length_drop]
        omega
      rw [← hall]
      exact t.reads_addPage _
  | case3 t page hcheck hlong ih =>
    have hlength : page.length = _ := p.length_ordinalPage t.after
    obtain ⟨t', hrun, hreads⟩ := ih
    refine ⟨t', ?_, ?_⟩
    · rw [Project.cutTail, checkPageOrdinals_ordinalPage]
      exact (if_neg hlong).trans hrun
    · have hsplit : p.records.drop t.after = page.map (·.2) ++
          p.records.drop (t.addPage (page.map (·.2))).after := by
        have hdrop : (t.addPage (page.map (·.2))).after = t.after + headsPageSize := by
          rw [CutTail.addPage, List.length_map]
          change t.after + page.length = _
          omega
        rw [hdrop, show page.map (·.2) = _ from p.map_ordinalPage t.after, ← List.drop_drop,
          List.take_append_drop]
      rw [hsplit]
      exact (t.reads_addPage _).trans hreads

theorem mem_sortedUnique {texts : List String} {x : String} :
    x ∈ sortedUnique texts ↔ x ∈ texts := by
  rw [sortedUnique, List.mem_insertionSort, List.mem_dedup]

theorem sortedUnique_congr {texts texts' : List String} (h : ∀ x, x ∈ texts ↔ x ∈ texts') :
    sortedUnique texts = sortedUnique texts' := by
  have hperm : texts.dedup.Perm texts'.dedup := by
    rw [List.perm_ext_iff_of_nodup (List.nodup_dedup _) (List.nodup_dedup _)]
    intro x
    rw [List.mem_dedup, List.mem_dedup, h]
  exact ((List.perm_insertionSort _ _).trans (hperm.trans (List.perm_insertionSort _ _).symm)
    ).eq_of_pairwise (fun a b _ _ => le_antisymm) (List.pairwise_insertionSort _ _)
      (List.pairwise_insertionSort _ _)

/-- The heads are those that no record names. -/
theorem mem_headsOf {rows : List Record} {x : String} :
    x ∈ headsOf rows ↔ IsHead (·.contentHash) Record.parents rows x := by
  rw [headsOf, mem_sortedUnique, IsHead]
  simp only [List.mem_map, List.mem_filter, List.all_eq_true, decide_eq_true_eq]
  constructor
  · rintro ⟨r, ⟨hr, hnone⟩, rfl⟩
    exact ⟨⟨r, hr, rfl⟩, hnone⟩
  · rintro ⟨⟨r, hr, rfl⟩, hnone⟩
    exact ⟨r, ⟨hr, hnone⟩, rfl⟩

/-- The heads of the whole history, from those of its beginning and what came after. -/
theorem heads_fold_eq {old new : List Record}
    (hnames : NamesEarlier (·.contentHash) Record.parents (old ++ new))
    (hkeys : ((old ++ new).map (·.contentHash)).Nodup) :
    (new.foldl FrontierFold.add {}).heads (headsOf old) = headsOf (old ++ new) := by
  rw [FrontierFold.heads, headsOf, foldl_add]
  apply sortedUnique_congr
  intro x
  have hx : x ∈ headsOf (old ++ new) ↔ _ := mem_headsOf
  rw [headsOf, mem_sortedUnique, isHead_append hnames hkeys, ← mem_headsOf] at hx
  rw [hx, List.mem_append, List.mem_filter, List.mem_filter]
  simp only [List.nil_append, Finset.empty_union, List.mem_toFinset, decide_eq_true_eq,
    List.mem_flatMap, not_exists, not_and]
  exact or_and_right.symm

/-- The records of the broker are all the log looks at. -/
theorem grantEntries_grantRecords (p : Project) :
    grantEntries p.grantRecords = grantEntries p.records := by
  rw [grantEntries, Project.grantRecords, List.filterMap_filter, grantEntries]
  apply List.filterMap_congr
  intro r _
  split_ifs with hkind
  · rfl
  · simp only [Bool.or_eq_true, decide_eq_true_eq, not_or] at hkind
    simp [grantSeqOf, hkind.1, hkind.2]

theorem decodeInt_jsonInt {n : Int} {v : CanonValue} (h : jsonInt n = some v) :
    decodeInt (some v) = some n := by
  unfold jsonInt at h
  split_ifs at h with hn
  obtain rfl := Option.some.inj h
  exact congrArg some (Int64.toInt_ofInt_of_le hn.1 hn.2)

theorem decodeIntPtr_jsonInt {n : Int} {v : CanonValue} (h : jsonInt n = some v) :
    decodeIntPtr (some v) = some (some n) := by
  unfold jsonInt at h
  split_ifs at h with hn
  obtain rfl := Option.some.inj h
  exact congrArg (some ∘ some) (Int64.toInt_ofInt_of_le hn.1 hn.2)

/-- A head as it is read back. -/
theorem decodeHead_headBody {n : Int} {prior root : String} {v : CanonValue}
    (h : Broker.headBody n prior root = some v) : decodeHead (some v) = some ⟨n, root⟩ := by
  obtain ⟨number, hnumber, rfl⟩ := Option.map_eq_some_iff.mp h
  have hread :
      decodeInt (CanonValue.get (.obj [("max_seq", number), ("prior_head_hash", .str prior),
        ("cumulative_root", .str root)]) "max_seq") = some n := decodeInt_jsonInt hnumber
  simp only [decodeHead, decodeObj, Option.bind_eq_bind, Option.bind_some, hread]
  rfl

/-- A root is never empty. -/
theorem Broker.grantHeadRoot_ne (sha256 : List UInt8 → Vector UInt8 32)
    (grants : List (Int × String)) : Broker.grantHeadRoot sha256 grants ≠ "" := by
  intro h
  have hlength := congrArg String.length h
  rw [Broker.grantHeadRoot, Broker.foldGrantHeadRoot, String.length_append] at hlength
  simp at hlength

namespace Cutter

variable {ed : Ed25519} {S : Cutter ed} {p : Project} {created : String} {body : CanonValue}

/-- What a body of the two cuts has under its keys. -/
structure States (S : Cutter ed) (body : CanonValue) (seq : Int) (prev : Option String)
    (heads : List String) (count : Int) (grantHead : CanonValue) (created : String) : Prop where
  domain : body.get "domain" = some (.str checkpointDomain)
  seq : ∃ v, jsonInt seq = some v ∧ body.get "checkpoint_seq" = some v
  prev : body.get "prev_checkpoint_hash" = some (prev.elim .null .str)
  frontier : body.get "frontier" = some (.arr (heads.map .str))
  count : ∃ v, jsonInt count = some v ∧ body.get "record_count" = some v
  grantHead : body.get "broker_grant_head" = some grantHead
  created : body.get "created_ts" = some (.str created)

/-- A body states what it was made from. -/
theorem states_checkpointBody {seq count : Int} {prev : Option String} {heads : List String}
    {grantHead : CanonValue}
    (h : S.checkpointBody seq prev heads count grantHead created = some body) :
    States S body seq prev heads count grantHead created ∧
      body.get "broker_grant_heads" = none ∧ ∃ members, body = .obj members := by
  obtain ⟨seqNumber, hseq, h⟩ := Option.bind_eq_some_iff.mp h
  obtain ⟨countNumber, hcount, h⟩ := Option.bind_eq_some_iff.mp h
  obtain rfl := Option.some.inj h
  exact ⟨⟨rfl, ⟨_, hseq, rfl⟩, rfl, rfl, ⟨_, hcount, rfl⟩, rfl, rfl⟩, rfl, _, rfl⟩

/-- The other members do not depend on the heads of the federation. -/
theorem States.withField {seq count : Int} {prev : Option String} {heads : List String}
    {grantHead x : CanonValue} (h : States S body seq prev heads count grantHead created) :
    States S (body.withField "broker_grant_heads" x) seq prev heads count grantHead created where
  domain := by rw [CanonValue.get_withField_of_ne (by simp), h.domain]
  seq := by rw [CanonValue.get_withField_of_ne (by simp)]; exact h.seq
  prev := by rw [CanonValue.get_withField_of_ne (by simp), h.prev]
  frontier := by rw [CanonValue.get_withField_of_ne (by simp), h.frontier]
  count := by rw [CanonValue.get_withField_of_ne (by simp)]; exact h.count
  grantHead := by rw [CanonValue.get_withField_of_ne (by simp), h.grantHead]
  created := by rw [CanonValue.get_withField_of_ne (by simp), h.created]

/-- The grant log of a project, as the cut takes it. -/
abbrev logOf (p : Project) : List (Int × String) := grantLog p.grantRecords

/-- A body that the full cut makes. -/
structure FullCut (S : Cutter ed) (p : Project) (created : String) (body : CanonValue) : Prop where
  gapless : (logOf p).map (·.1) = numbersFrom 0 (logOf p).length
  allocated : p.maxBrokerSeq = (logOf p).length
  states : ∃ prior head, priorGrantHeadRoot S.sha256 p.checks = some prior ∧
    Broker.brokerGrantHead S.sha256 (logOf p) prior = some head ∧
    States S body p.nextCheckpointSeq p.latestCheckpointHash p.projectHeads p.recordCount head
      created
  heads : if S.brokerId = "" then body.get "broker_grant_heads" = none
    else ∃ prior entry, Broker.brokerGrantHead S.sha256 (logOf p) prior = some entry ∧
      body.get "broker_grant_heads" = some (.obj [(S.brokerId, entry)])

/-- A cut that succeeds is a full cut. -/
theorem fullCut_of_ok (h : S.cutBodyFull p created = .ok body) : FullCut S p created body := by
  unfold cutBodyFull at h
  obtain ⟨_, hgapless, h⟩ := bind_eq_ok_iff.mp h
  obtain ⟨prior, hprior, h⟩ := bind_eq_ok_iff.mp h
  obtain ⟨head, hhead, h⟩ := bind_eq_ok_iff.mp h
  obtain ⟨plain, hplain, h⟩ := bind_eq_ok_iff.mp h
  obtain ⟨hgapless, hallocated⟩ := checkGaplessGrantLog_eq_ok_iff.mp hgapless
  rw [orFail_eq_ok_iff] at hprior hhead hplain
  obtain ⟨hstates, hnone, members, rfl⟩ := states_checkpointBody hplain
  split_ifs at h with hbroker
  · obtain rfl := Except.ok.inj h
    exact ⟨hgapless, hallocated, ⟨prior, head, hprior, hhead, hstates⟩,
      by rw [if_pos hbroker]; exact hnone⟩
  · obtain ⟨priorFed, -, h⟩ := bind_eq_ok_iff.mp h
    obtain ⟨entry, hentry, h⟩ := bind_eq_ok_iff.mp h
    obtain rfl := Except.ok.inj h
    rw [orFail_eq_ok_iff] at hentry
    refine ⟨hgapless, hallocated, ⟨prior, head, hprior, hhead, hstates.withField⟩, ?_⟩
    rw [if_neg hbroker]
    exact ⟨priorFed, entry, hentry, CanonValue.get_withField_self⟩

/-- A sealed checkpoint has the members of its body. -/
theorem get_of_sealCheckpoint {cp : Checkpoint} (h : S.sealCheckpoint body = some cp) {k : String}
    (hhash : k ≠ "checkpoint_hash") (hsig : k ≠ "sig") : cp.json.get k = body.get k := by
  unfold sealCheckpoint at h
  cases hsealed : Averin.sealCheckpoint S.N S.sha256 body S.sk with
  | error e =>
    rw [hsealed] at h
    cases h
  | ok sealed =>
    rw [hsealed] at h
    obtain rfl := Option.some.inj h
    obtain ⟨ch, sig, -, -, rfl, -⟩ := sealCheckpoint_eq_ok_iff.mp hsealed
    exact CanonValue.get_putSeal_of_ne hhash hsig

/-- A sealed checkpoint has its number. -/
theorem seq_of_sealCheckpoint {cp : Checkpoint} (h : S.sealCheckpoint body = some cp) :
    cp.seq = (decodeInt (body.get "checkpoint_seq")).getD 0 := by
  rw [← get_of_sealCheckpoint h (by simp) (by simp)]
  unfold sealCheckpoint at h
  obtain ⟨sealed, -, rfl⟩ := Option.map_eq_some_iff.mp h
  rfl

/-- What the next cut continues from. -/
def baseOf (S : Cutter ed) (q : Project) (hash : String) : CutBase where
  seq := q.nextCheckpointSeq
  hash := hash
  count := q.recordCount
  frontier := q.projectHeads
  maxSeq := Broker.maxSeqFrom 0 (logOf q)
  root := Broker.grantHeadRoot S.sha256 (logOf q)
  federated := if S.brokerId = "" then none
    else some ⟨Broker.maxSeqFrom 0 (logOf q), Broker.grantHeadRoot S.sha256 (logOf q)⟩

/-- A checkpoint that was cut in full is one to continue from. -/
theorem parseCutBase_of_fullCut {q : Project} {cp : Checkpoint} (h : FullCut S q created body)
    (hsealed : S.sealCheckpoint body = some cp) :
    parseCutBase cp S.brokerId = some (baseOf S q cp.checkpointHash) := by
  obtain ⟨prior, head, -, hhead, hstates⟩ := h.states
  obtain ⟨seqNumber, hseqNumber, hseq⟩ := hstates.seq
  obtain ⟨countNumber, hcountNumber, hcount⟩ := hstates.count
  have hget : ∀ k, k ≠ "checkpoint_hash" → k ≠ "sig" → cp.json.get k = body.get k :=
    fun k => get_of_sealCheckpoint hsealed
  have hcpSeq : cp.seq = q.nextCheckpointSeq := by
    rw [seq_of_sealCheckpoint hsealed, hseq, decodeInt_jsonInt hseqNumber, Option.getD_some]
  have hread := decodeHead_headBody hhead
  have hroot := Broker.grantHeadRoot_ne S.sha256 (logOf q)
  have hnonneg : ¬ (q.recordCount : Int) < 0 := by omega
  unfold parseCutBase
  rw [hget _ (by simp) (by simp), hget _ (by simp) (by simp), hget _ (by simp) (by simp),
    hget _ (by simp) (by simp), hcount, decodeIntPtr_jsonInt hcountNumber, hstates.frontier,
    decodeStrs_map_str, hstates.grantHead, hread]
  have hheads := h.heads
  by_cases hbroker : S.brokerId = ""
  · rw [if_pos hbroker] at hheads
    simp [hheads, hbroker, decodeHeads, decodeObj, baseOf, hroot, hnonneg, hcpSeq]
  · rw [if_neg hbroker] at hheads
    obtain ⟨priorFed, entry, hentry, hheads⟩ := hheads
    have hfed := decodeHead_headBody hentry
    simp [hheads, hbroker, decodeHeads, decodeObj, baseOf, hroot, hnonneg, hcpSeq, hfed]

/-- The root before a cut is that of the checkpoint before it. -/
theorem priorGrantHeadRoot_of_fullCut {q : Project} {cp : Checkpoint} {checks : List Checkpoint}
    (h : FullCut S q created body) (hsealed : S.sealCheckpoint body = some cp)
    (hlast : checks.getLast? = some cp) :
    priorGrantHeadRoot S.sha256 checks = some (Broker.grantHeadRoot S.sha256 (logOf q)) := by
  obtain ⟨prior, head, -, hhead, hstates⟩ := h.states
  obtain ⟨number, -, rfl⟩ := Option.map_eq_some_iff.mp hhead
  have hroot := Broker.grantHeadRoot_ne S.sha256 (logOf q)
  rw [priorGrantHeadRoot, hlast]
  dsimp only
  rw [get_of_sealCheckpoint hsealed (by simp) (by simp), hstates.grantHead]
  simp [decodeObj, CanonValue.get, CanonValue.member, decodeStr, hroot]

theorem priorFedHeadRoot_of_fullCut {q : Project} {cp : Checkpoint} {checks : List Checkpoint}
    (h : FullCut S q created body) (hsealed : S.sealCheckpoint body = some cp)
    (hlast : checks.getLast? = some cp) (hbroker : S.brokerId ≠ "") :
    priorFedHeadRoot S.sha256 checks S.brokerId =
      some (Broker.grantHeadRoot S.sha256 (logOf q)) := by
  have hheads := h.heads
  rw [if_neg hbroker] at hheads
  obtain ⟨prior, entry, hentry, hheads⟩ := hheads
  obtain ⟨number, -, rfl⟩ := Option.map_eq_some_iff.mp hentry
  have hroot := Broker.grantHeadRoot_ne S.sha256 (logOf q)
  rw [priorFedHeadRoot, hlast]
  dsimp only
  rw [get_of_sealCheckpoint hsealed (by simp) (by simp), hheads]
  simp [decodeObj, CanonValue.get, CanonValue.member, decodeStr, hroot]

/-- The checkpoint at a position is the full cut of a project that was there, with the checkpoints
before it and a beginning of the records. -/
def CutFrom (S : Cutter ed) (was : Project → Prop) (p : Project) (i : Nat) (cp : Checkpoint) :
    Prop :=
  ∃ q, was q ∧ q.RowInv ∧ q.records <+: p.records ∧ q.checks = p.checks.take i ∧
    ∃ created body, S.cutBodyFull q created = .ok body ∧ S.sealCheckpoint body = some cp

/-- Rows name earlier rows, and every checkpoint is a full cut. -/
structure CutInv (S : Cutter ed) (was : Project → Prop) (p : Project) : Prop where
  rows : p.RowInv
  names : NamesEarlier (·.contentHash) Record.parents p.records
  cuts : ∀ i cp, p.checks[i]? = some cp → CutFrom S was p i cp

/-- A cut stays one as more is stored. -/
theorem CutFrom.mono {was was' : Project → Prop} {p' : Project} {i : Nat} {cp : Checkpoint}
    (h : CutFrom S was p i cp) (hwas : ∀ q, was q → was' q) (hrecords : p.records <+: p'.records)
    (hchecks : p'.checks.take i = p.checks.take i) : CutFrom S was' p' i cp := by
  obtain ⟨q, hq, hrows, hpre, hprior, hcut⟩ := h
  exact ⟨q, hwas q hq, hrows, hpre.trans hrecords, hprior.trans hchecks.symm, hcut⟩

/-- The latest checkpoint, the project it was cut from and what was read after it. -/
structure Continued (S : Cutter ed) (p q : Project) (cp : Checkpoint) (tail : CutTail) : Prop where
  last : p.latestCheckpoint = some cp
  base : parseCutBase cp S.brokerId = some (baseOf S q cp.checkpointHash)
  next : p.nextCheckpointSeq = q.nextCheckpointSeq + 1
  read : p.cutTail { after := q.recordCount } = .ok tail
  total : (p.recordCount : Int) = tail.after
  heads : tail.fold.heads q.projectHeads = p.projectHeads
  gapless : (logOf q).map (·.1) = numbersFrom 0 (logOf q).length
  log : (logOf p).Perm (logOf q ++ tail.gl.insertionSort (·.1 ≤ ·.1))
  prior : priorGrantHeadRoot S.sha256 p.checks = some (Broker.grantHeadRoot S.sha256 (logOf q))
  priorFed : S.brokerId ≠ "" → priorFedHeadRoot S.sha256 p.checks S.brokerId =
    some (Broker.grantHeadRoot S.sha256 (logOf q))

/-- A project with checkpoints goes on from the last one. -/
theorem CutInv.continued {was : Project → Prop} (h : CutInv S was p) (hne : p.checks ≠ []) :
    ∃ q cp tail, Continued S p q cp tail := by
  obtain ⟨cp, hlast⟩ : ∃ cp, p.checks.getLast? = some cp :=
    ⟨p.checks.getLast hne, List.getLast?_eq_some_getLast hne⟩
  have hlength := List.length_pos_of_ne_nil hne
  obtain ⟨q, -, hq, ⟨new, hnew⟩, hchecks, created', body', hcut, hsealed⟩ :=
    h.cuts (p.checks.length - 1) cp (by rw [← List.getLast?_eq_getElem?, hlast])
  have hfull := fullCut_of_ok hcut
  obtain ⟨tail, hrun, hreads⟩ := cutTail_reads p { after := q.recordCount }
  have hcount : q.recordCount = q.records.length := hq.recordCount_eq
  have hdrop : p.records.drop q.recordCount = new := by
    rw [← hnew, hcount, List.drop_left]
  dsimp only at hreads
  rw [hdrop] at hreads
  refine ⟨q, cp, tail, hlast, parseCutBase_of_fullCut hfull hsealed, ?_, hrun, ?_, ?_,
    hfull.gapless, ?_, priorGrantHeadRoot_of_fullCut hfull hsealed hlast,
    priorFedHeadRoot_of_fullCut hfull hsealed hlast⟩
  · have hlen := congrArg List.length hchecks
    rw [List.length_take] at hlen
    unfold Project.nextCheckpointSeq
    omega
  · rw [hreads.after, h.rows.recordCount_eq, ← hnew, List.length_append, hcount]
  · have hnodup := h.rows.hashes
    have hnames := h.names
    rw [← hnew] at hnodup hnames
    rw [hreads.fold, Project.projectHeads, Project.projectHeads, ← hnew]
    exact heads_fold_eq hnames hnodup
  · -- The entries of the whole history are the old ones and the new ones.
    refine (isGrantLog_grantLog _).perm.trans ?_
    rw [grantEntries_grantRecords, ← hnew, grantEntries_append]
    refine List.Perm.append ?_ ?_
    · rw [← grantEntries_grantRecords]
      exact (isGrantLog_grantLog _).perm.symm
    · exact hreads.gl.symm.trans (List.perm_insertionSort _ _).symm

section Continued

variable {q : Project} {cp : Checkpoint} {tail : CutTail}

/-- The last part of both cuts. -/
def finishCut (S : Cutter ed) (p : Project) (log : List (Int × String)) (prior created : String) :
    Except CutError CanonValue := do
  let grantHead ← orFail (Broker.brokerGrantHead S.sha256 log prior) .number
  let body ← orFail (S.checkpointBody p.nextCheckpointSeq p.latestCheckpointHash p.projectHeads
    p.recordCount grantHead created) .number
  if S.brokerId = "" then return body
  else return body.withField "broker_grant_heads" (.obj [(S.brokerId, grantHead)])

/-- A full cut, from the whole log. -/
theorem Continued.full_eq (h : Continued S p q cp tail) (created : String) :
    S.cutBodyFull p created = (do
      checkGaplessGrantLog (logOf p) p.maxBrokerSeq
      S.finishCut p (logOf p) (Broker.grantHeadRoot S.sha256 (logOf q)) created) := by
  unfold cutBodyFull finishCut
  rw [h.prior]
  dsimp only
  generalize checkGaplessGrantLog (logOf p) p.maxBrokerSeq = check
  cases check with
  | error e => rw [error_bind, error_bind]
  | ok u =>
    rw [ok_bind, ok_bind, orFail_some, ok_bind]
    cases hhead : Broker.brokerGrantHead S.sha256 (logOf p)
        (Broker.grantHeadRoot S.sha256 (logOf q)) with
    | none => rw [orFail_none, error_bind, error_bind]
    | some head =>
      rw [orFail_some, ok_bind, ok_bind]
      cases S.checkpointBody p.nextCheckpointSeq p.latestCheckpointHash p.projectHeads
          p.recordCount head created with
      | none => rw [orFail_none, error_bind, error_bind]
      | some body =>
        rw [orFail_some, ok_bind, ok_bind]
        by_cases hbroker : S.brokerId = ""
        · rw [if_pos hbroker, if_pos hbroker]
        · rw [if_neg hbroker, if_neg hbroker, h.priorFed hbroker, orFail_some, ok_bind, hhead,
            orFail_some, ok_bind]

/-- An incremental cut, from what is new. -/
theorem Continued.incremental_eq (h : Continued S p q cp tail) (created : String) :
    S.cutBodyIncremental p created = (do
      checkGaplessGrantLogAfter (tail.gl.insertionSort (·.1 ≤ ·.1)) (logOf q).length
        p.maxBrokerSeq
      let body ← S.finishCut p (logOf q ++ tail.gl.insertionSort (·.1 ≤ ·.1))
        (Broker.grantHeadRoot S.sha256 (logOf q)) created
      return some body) := by
  have hmax : Broker.maxSeqFrom 0 (logOf q) = (logOf q).length := by
    rw [Broker.maxSeqFrom_numbersFrom h.gapless, zero_add]
  have hhash : some cp.checkpointHash = p.latestCheckpointHash := by
    rw [Project.latestCheckpointHash, h.last]
    rfl
  have hhead := @Broker.brokerGrantHeadFrom_eq S.sha256 (logOf q)
    (tail.gl.insertionSort (·.1 ≤ ·.1))
  rw [hmax] at hhead
  unfold cutBodyIncremental finishCut
  rw [h.last, Option.bind_some, h.base]
  dsimp only [baseOf]
  rw [if_neg (not_not.mpr h.next), h.read, ok_bind, require, if_pos h.total, ok_bind, ← h.next,
    hhash, h.heads, ← h.total, hmax, hhead]
  generalize checkGaplessGrantLogAfter (tail.gl.insertionSort (·.1 ≤ ·.1)) (logOf q).length
    p.maxBrokerSeq = check
  cases check with
  | error e => rw [error_bind, error_bind]
  | ok u =>
    rw [ok_bind, ok_bind]
    cases hentry : Broker.brokerGrantHead S.sha256 (logOf q ++ tail.gl.insertionSort (·.1 ≤ ·.1))
        (Broker.grantHeadRoot S.sha256 (logOf q)) with
    | none => rw [orFail_none, error_bind, error_bind, error_bind]
    | some head =>
      rw [orFail_some, ok_bind, ok_bind]
      cases S.checkpointBody p.nextCheckpointSeq p.latestCheckpointHash p.projectHeads p.recordCount
          head created with
      | none => rw [orFail_none, error_bind, error_bind, error_bind]
      | some body =>
        rw [orFail_some, ok_bind, ok_bind]
        by_cases hbroker : S.brokerId = ""
        · rw [if_pos hbroker, if_pos hbroker]
          rfl
        · rw [if_neg hbroker, if_neg hbroker]
          dsimp only
          rw [hhead, hentry, orFail_some, ok_bind]
          rfl

end Continued

/-- With a checkpoint to continue from, the incremental cut computes what the full one does, and
refuses when it does. -/
theorem cutBodyIncremental_eq {was : Project → Prop} (h : CutInv S was p)
    (hne : p.checks ≠ []) (created : String) :
    S.cutBodyIncremental p created = (S.cutBodyFull p created).map some ∨
      ∃ e e', S.cutBodyIncremental p created = .error e ∧ S.cutBodyFull p created = .error e' := by
  obtain ⟨q, cp, tail, hcont⟩ := h.continued hne
  set new := tail.gl.insertionSort (·.1 ≤ ·.1) with hnew
  have hlog := hcont.log
  have hsorted : new.Pairwise (·.1 ≤ ·.1) := List.pairwise_insertionSort _ _
  have hcheck : checkGaplessGrantLogAfter new (logOf q).length p.maxBrokerSeq = .ok () ↔
      checkGaplessGrantLog (logOf p) p.maxBrokerSeq = .ok () := by
    rw [checkGaplessGrantLogAfter_eq_ok_iff, checkGaplessGrantLog_eq_ok_iff,
      gapless_append_iff hcont.gapless hlog (isGrantLog_grantLog _).sorted hsorted,
      hlog.length_eq, List.length_append, Nat.cast_add]
  rw [hcont.full_eq, hcont.incremental_eq]
  cases hafter : checkGaplessGrantLogAfter new (logOf q).length p.maxBrokerSeq with
  | error e =>
    cases hwhole : checkGaplessGrantLog (logOf p) p.maxBrokerSeq with
    | error e' => exact Or.inr ⟨e, e', rfl, rfl⟩
    | ok u =>
      rw [hcheck.mpr hwhole] at hafter
      cases hafter
  | ok u =>
    have hwhole := hcheck.mp hafter
    -- Without a gap there is one way to order the entries.
    have heq : logOf p = logOf q ++ new := by
      have hnumbers := (checkGaplessGrantLog_eq_ok_iff.mp hwhole).1
      have hnodup : ((logOf p).map (·.1)).Nodup := by
        rw [hnumbers]
        exact (pairwise_numbersFrom 0 _).imp ne_of_lt
      have happend : ((logOf q ++ new).map (·.1)).Pairwise (· ≤ ·) := by
        rw [List.map_append, hcont.gapless,
          (checkGaplessGrantLogAfter_eq_ok_iff.mp hafter).1, ← zero_add ((logOf q).length : Int),
          ← numbersFrom_add]
        exact (pairwise_numbersFrom 0 _).imp le_of_lt
      have hunique := (isGrantLog_grantLog p.grantRecords).unique
        ⟨hlog.symm.trans (isGrantLog_grantLog _).perm, List.pairwise_map.mp happend⟩
      exact hunique.2 hnodup
    left
    rw [hwhole, ok_bind, ok_bind, ← heq]
    cases S.finishCut p (logOf p) (Broker.grantHeadRoot S.sha256 (logOf q)) created with
    | error e => rfl
    | ok body => rfl

end Cutter

end Averin
