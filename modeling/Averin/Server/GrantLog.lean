import Averin.Server.Recovery
import Averin.Verify.Reexport

/-!
# The grant log of the server

The server and the verifier each pick the log of the broker out of the records. The server walks
the decoded text of every stored record and sorts what it finds; the verifier takes the records a
frontier commits by their roles. Over the frontier of all heads the two come to one log, and both
fold it into one root.
-/

namespace Averin

namespace Broker

variable (sha256 : List UInt8 → Vector UInt8 32)

/-- A field with its length, after what was written. -/
def grantHeadLP4 (buf b : List UInt8) : List UInt8 :=
  buf ++ beBytes 4 (b.length % 2 ^ 32) ++ b

/-- Where the log begins. -/
def grantHeadSeed : List UInt8 := (sha256 (grantHeadLP4 [] (bytes grantHeadTag))).toList

/-- One step: the tag, the accumulator, the number as an unsigned one and the hash. -/
def grantHeadStep (acc : List UInt8) (g : Int × String) : List UInt8 :=
  let buf := grantHeadLP4 [] (bytes grantHeadTag) ++ acc
  let buf := buf ++ beBytes 8 (g.1 % 2 ^ 64).toNat
  (sha256 (grantHeadLP4 buf (bytes g.2))).toList

/-- The root after some grants. -/
def foldGrantHeadRoot (acc : List UInt8) (grants : List (Int × String)) : String :=
  "sha256:" ++ hexLower (grants.foldl (grantHeadStep sha256) acc)

/-- The root of a log. -/
def grantHeadRoot (grants : List (Int × String)) : String :=
  foldGrantHeadRoot sha256 (grantHeadSeed sha256) grants

/-- Only the low bytes of a number are written. -/
theorem beBytes_mod (width n : Nat) : beBytes width (n % 256 ^ width) = beBytes width n := by
  induction width generalizing n with
  | zero => rfl
  | succ width ih =>
    rw [beBytes, beBytes, pow_succ, Nat.mod_mul_left_div_self, ih,
      Nat.mod_mul_left_mod]

/-- The field is framed as everywhere. -/
theorem grantHeadLP4_eq (buf b : List UInt8) : grantHeadLP4 buf b = buf ++ lp4 b := by
  have hmod := beBytes_mod 4 b.length
  rw [show (256 : Nat) ^ 4 = 2 ^ 32 by norm_num] at hmod
  rw [grantHeadLP4, hmod, lp4, framed, List.append_assoc]

theorem grantHeadStep_eq (acc : Vector UInt8 32) (g : Int × String) :
    grantHeadStep sha256 acc.toList g = (Averin.grantHeadStep sha256 acc g).toList := by
  rw [grantHeadStep, Averin.grantHeadStep, grantHeadStepPreimage, grantHeadSeedPreimage,
    grantHeadLP4_eq, grantHeadLP4_eq, List.nil_append, be8]

/-- Both sides fold a log into the same root. -/
theorem grantHeadRoot_eq (grants : List (Int × String)) :
    grantHeadRoot sha256 grants = Averin.grantHeadRoot sha256 grants := by
  have hfold : ∀ acc : Vector UInt8 32, grants.foldl (grantHeadStep sha256) acc.toList =
      (grants.foldl (Averin.grantHeadStep sha256) acc).toList := by
    induction grants with
    | nil => exact fun acc => rfl
    | cons g grants ih =>
      intro acc
      rw [List.foldl_cons, List.foldl_cons, grantHeadStep_eq, ih]
  have hseed : grantHeadSeed sha256 = (Averin.grantHeadSeed sha256).toList := by
    rw [grantHeadSeed, grantHeadLP4_eq, List.nil_append, Averin.grantHeadSeed,
      grantHeadSeedPreimage]
  rw [grantHeadRoot, foldGrantHeadRoot, hseed, hfold, Averin.grantHeadRoot, rootText]

end Broker

/-- A text other than the empty one is read where there is one. -/
theorem jsonText_eq_iff {json : CanonValue} {keys : List String} {s : String} (hs : s ≠ "") :
    jsonText json keys = s ↔ (jsonPath json keys).bind CanonValue.asStr = some s := by
  rw [jsonText]
  cases (jsonPath json keys).bind CanonValue.asStr with
  | none => simp [hs.symm]
  | some t => simp

/-- The number under a payload, positive or none. -/
theorem jsonSeq_eq (json : CanonValue) (payloadKey : String) :
    brokerSeq json payloadKey =
      if 1 ≤ jsonSeq json ["extensions", "broker", payloadKey, "broker_seq"] then
        some (jsonSeq json ["extensions", "broker", payloadKey, "broker_seq"])
      else none := by
  have hpath : (jsonPath json ["extensions", "broker", payloadKey, "broker_seq"]).bind
      CanonValue.asInt = evInt json payloadKey "broker_seq" := by
    simp only [jsonPath, evInt, evValue, Option.bind_assoc, Option.bind_some]
  rw [jsonSeq, hpath, brokerSeq]
  cases evInt json payloadKey "broker_seq" with
  | none => rfl
  | some n =>
    by_cases h : n < 1
    · simp [Option.filter, h]
    · simp [Option.filter, h, Int.not_lt.mp h]

/-- The kind and the enforcement point of a record as the role is told from them. -/
def roleTexts (json : CanonValue) : Option String × Option String :=
  ((jsonPath json ["extensions", "broker", "kind"]).bind CanonValue.asStr,
    (jsonPath json ["authority", "enforcement_point"]).bind CanonValue.asStr)

/-- The role is that of the two texts. -/
theorem classifyRole_eq (json : CanonValue) : classifyRole json =
    match (roleTexts json).1, (roleTexts json).2 with
    | some "grant", some "credential_broker" => .broker
    | some "grant_void", some "credential_broker" => .void
    | some "use", some "tool_gateway" => .resource
    | some "use_intent", some "tool_gateway" => .resource
    | some "use_outcome", some "tool_gateway" => .resource
    | some "introspection_transcript", some "tool_gateway" => .resource
    | _, _ => .none := by
  have hkind : (((json.get "extensions").bind (·.get "broker")).bind (·.get "kind")).bind
      CanonValue.asStr = (roleTexts json).1 := by
    simp only [roleTexts, jsonPath, Option.bind_assoc, Option.bind_some]
  have hep : ((json.get "authority").bind (·.get "enforcement_point")).bind CanonValue.asStr =
      (roleTexts json).2 := by
    simp only [roleTexts, jsonPath, Option.bind_assoc, Option.bind_some]
  rw [← hkind, ← hep]
  rfl

/-- The payload of a role in the log. -/
theorem logPayloadKey_classifyRole (json : CanonValue) : logPayloadKey (classifyRole json) =
    if roleTexts json = (some "grant_void", some "credential_broker") then some "void_evidence"
    else if roleTexts json = (some "grant", some "credential_broker") then some "grant_evidence"
    else none := by
  rw [classifyRole_eq]
  generalize roleTexts json = texts
  obtain ⟨kind, ep⟩ := texts
  dsimp only
  split
  case h_7 _ _ hgrant hvoid _ _ _ _ =>
    rw [if_neg, if_neg]
    · rfl
    · intro h
      exact hgrant (Prod.mk.inj h).1 (Prod.mk.inj h).2
    · intro h
      exact hvoid (Prod.mk.inj h).1 (Prod.mk.inj h).2
  all_goals simp [logPayloadKey]

/-- Both sides read the same number out of a record, whatever its members are. -/
theorem recordSeq_eq (json : CanonValue) : recordSeq none json = grantSeqOf json := by
  have htexts : ∀ kind, kind ≠ "" → (roleTexts json = (some kind, some "credential_broker") ↔
      jsonText json ["extensions", "broker", "kind"] = kind ∧
        jsonText json ["authority", "enforcement_point"] = "credential_broker") := by
    intro kind hkind
    rw [jsonText_eq_iff hkind, jsonText_eq_iff (by decide), roleTexts, Prod.mk.injEq]
  rw [recordSeq, logPayloadKey_classifyRole]
  simp only [inPartition, if_true]
  dsimp only [grantSeqOf]
  by_cases hvoid : roleTexts json = (some "grant_void", some "credential_broker")
  · rw [if_pos hvoid, if_pos ((htexts _ (by decide)).mp hvoid), Option.bind_some, jsonSeq_eq]
  · rw [if_neg hvoid, if_neg ((htexts _ (by decide)).not.mp hvoid)]
    by_cases hgrant : roleTexts json = (some "grant", some "credential_broker")
    · obtain ⟨hkind, hep⟩ := (htexts _ (by decide)).mp hgrant
      rw [if_pos hgrant, if_neg (by rw [hkind, hep]; simp), Option.bind_some, jsonSeq_eq]
      split_ifs <;> first | rfl | omega
    · rw [if_neg hgrant, if_pos (not_and_or.mp ((htexts _ (by decide)).not.mp hgrant)),
        Option.bind_none]

/-- The entries of the records in the order of the records. -/
def grantEntries (records : List Record) : List (Int × String) :=
  records.filterMap fun r => (grantSeqOf r.json).map (·, r.contentHash)

/-- What the server may hand out as its log: it sorts by the number, and where two entries have
one number it sorts them in either way. -/
structure IsGrantLog (records : List Record) (log : List (Int × String)) : Prop where
  perm : log.Perm (grantEntries records)
  sorted : log.Pairwise (·.1 ≤ ·.1)

theorem isGrantLog_grantLog (records : List Record) : IsGrantLog records (grantLog records) where
  perm := List.perm_insertionSort _ _
  sorted := List.pairwise_insertionSort _ _

/-- The verifier's log over the heads is one the server may hand out. -/
theorem isGrantLog_committedBrokerLog {records : List Record} {dag : Dag}
    (hbuild : build (records.map (·.json)) = .ok dag)
    (hhash : ∀ r ∈ records, recordHash r.json = some r.contentHash) :
    IsGrantLog records (committedBrokerLog (recordTrustOf (records.map (·.json)))
      (records.map (·.json)) dag.byHash dag.heads none) := by
  have hs := build_eq_ok hbuild
  have hentries : (records.map (·.json)).filterMap (recordEntry none
      (committedSet (records.map (·.json)) dag.byHash dag.heads)) = grantEntries records := by
    rw [List.filterMap_map, grantEntries]
    refine List.filterMap_congr fun r hr => ?_
    have htext : hashText r.json = r.contentHash := by rw [hashText, hhash r hr, Option.getD_some]
    have hcommitted : r.contentHash ∈
        committedSet (records.map (·.json)) dag.byHash dag.heads :=
      hs.mem_committedSet_heads (hs.mem_byHash_iff.mpr
        ⟨r.json, List.mem_map_of_mem hr, hhash r hr⟩)
    rw [Function.comp_apply, recordEntry, htext, if_pos hcommitted, recordSeq_eq]
  rw [committedBrokerLog_recordTrustOf, hentries]
  exact ⟨List.perm_insertionSort _ _, List.pairwise_insertionSort _ _⟩

/-- Two logs of the same records hold the same entries, in the same order when no number comes
twice. -/
theorem IsGrantLog.unique {records : List Record} {log log' : List (Int × String)}
    (h : IsGrantLog records log) (h' : IsGrantLog records log') :
    log.Perm log' ∧ ((log.map (·.1)).Nodup → log = log') := by
  have hperm := h.perm.trans h'.perm.symm
  refine ⟨hperm, fun hnodup => ?_⟩
  refine hperm.eq_of_pairwise ?_ h.sorted h'.sorted
  intro a b ha hb hab hba
  exact List.inj_on_of_nodup_map hnodup ha (hperm.mem_iff.mpr hb) (le_antisymm hab hba)

/-- The server and the verifier log the same grants over the frontier of all heads, and make one
root of them. -/
theorem same_grants_logged (sha256 : List UInt8 → Vector UInt8 32) (records : List Record)
    (dag : Dag) (hbuild : build (records.map (·.json)) = .ok dag)
    (hhash : ∀ r ∈ records, recordHash r.json = some r.contentHash)
    (log : List (Int × String)) (hlog : IsGrantLog records log) :
    let committed := committedBrokerLog (recordTrustOf (records.map (·.json)))
      (records.map (·.json)) dag.byHash dag.heads none
    log.Perm committed ∧ ((log.map (·.1)).Nodup → log = committed) ∧
      Broker.grantHeadRoot sha256 log = grantHeadRoot sha256 log := by
  obtain ⟨hperm, heq⟩ := hlog.unique (isGrantLog_committedBrokerLog hbuild hhash)
  exact ⟨hperm, heq, Broker.grantHeadRoot_eq sha256 log⟩

/-- A stored row of a sample grant. -/
def grantRow (json : CanonValue) : Record where
  json := json
  contentHash := hashText json
  sessionId := "s"
  parents := []
  disclosures := []

/-- The rows of two grants, the later number first. -/
def twoGrantRows : List Record := twoGrants.reverse.map grantRow

/-- Both sides log the same two grants. -/
theorem same_grants_logged_two_grants :
    ∃ dag, build (twoGrantRows.map (·.json)) = .ok dag ∧
      grantLog twoGrantRows = committedBrokerLog (recordTrustOf (twoGrantRows.map (·.json)))
        (twoGrantRows.map (·.json)) dag.byHash dag.heads none ∧
      grantLog twoGrantRows = [(1, digest 'a'), (2, digest 'b')] := by
  obtain ⟨dag, hb, -⟩ := exists_of_buildsWith (twoGrantRows.map (·.json)) (fun _ => true)
    (by decide +kernel)
  have hlog : grantLog twoGrantRows = [(1, digest 'a'), (2, digest 'b')] := by decide +kernel
  obtain ⟨-, hsame, -⟩ := same_grants_logged Sha256.digest twoGrantRows dag hb
    (by decide +kernel) _ (isGrantLog_grantLog twoGrantRows)
  exact ⟨dag, hb, hsame (by rw [hlog]; decide), hlog⟩

end Averin
