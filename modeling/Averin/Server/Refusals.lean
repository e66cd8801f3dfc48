import Averin.Server.Sealing
import Averin.Verify.Refusal

/-!
# Sealing refusals

The server builds the record of a refusal itself, from a closed request: it normalizes the names
and the times, checks the counts, and seals what comes out. Every such record has the shape the
verifier counts, with the counts of the request, up to the times: a time with an offset can lie in
a year before zero or after 9999 in UTC, and the text of such a year is not the canonical one.
-/

namespace Averin

/-- The body of a refusal request. -/
structure RefusalRequest where
  projectId : String
  sessionId : String
  idempotencyKey : String
  agentId : String
  action : String
  entryPoint : String
  reasonClass : String
  credential : String
  attempts : Int64
  firstAt : String
  lastAt : String
  summary : Bool
  byClass : Option (Table String Int64)

/-- A character of a plain name. -/
def isNameChar (c : Char) : Bool := c.isAlphanum || c = '.' || c = '_' || c = ':' || c = '-'

/-- A short plain identifier. -/
def refusalName (s : String) : Bool :=
  1 ≤ s.toList.length && s.toList.length ≤ 128 && s.toList.all isNameChar

/-- What stands for a name that is none. -/
def invalidNameLiteral : String := "invalid_name"

/-- A name that may go into a record. -/
def plainName (s : String) : String := if refusalName s then s else invalidNameLiteral

/-- How far ahead a refusal may be. -/
def refusalClockSkew : Int := 5 * 60 * Time.nanosPerSecond

/-- Read a time. -/
def parseRefusalTime (field v : String) : Except String Int :=
  orFail (Time.parse v) (field ++ " must be an RFC3339 timestamp")

/-- Add the count of one class. -/
def addRefusals (sum : Int64) (entry : Sigma fun _ : String => Int64) : Except String Int64 := do
  require (entry.1 ∈ refusalReasonClasses)
    ("by_class names a class outside the closed set: " ++ String.quote entry.1)
  require (1 ≤ entry.2.toInt ∧ entry.2.toInt ≤ maxRefusalAttempts)
    "by_class counts must be integers in 1..1000000000"
  return sum + entry.2

/-- The checks of a summary, which counts by class. -/
def validateSummary (rr : RefusalRequest) : Except String RefusalRequest := do
  require (rr.reasonClass = "") "a summary refusal carries by_class, not reason_class"
  let classes := rr.byClass.getD ∅
  require (classes.entries.length ≠ 0) "a summary refusal requires by_class"
  let sum ← classes.entries.foldlM addRefusals 0
  require (sum = rr.attempts) "attempts must equal the sum of by_class"
  return { rr with action := if rr.action = "*" then rr.action else plainName rr.action }

/-- The checks of a refusal of one class. -/
def validateSingle (rr : RefusalRequest) : Except String RefusalRequest := do
  require (rr.byClass.isNone) "by_class is only valid on a summary refusal"
  require (rr.entryPoint ≠ "") "entry_point is required"
  require (rr.reasonClass ∈ refusalReasonClasses) "reason_class is outside the closed set"
  require (rr.action ≠ "") "action is required"
  return { rr with action := plainName rr.action }

/-- Check a request and normalize it. -/
def validateRefusal (rr : RefusalRequest) (now : Int) : Except String RefusalRequest := do
  require (refusalName rr.agentId) "agent_id must match [A-Za-z0-9._:-]\x7b1,128\x7d"
  require (rr.entryPoint = "" ∨ rr.entryPoint ∈ refusalEntryPoints)
    "entry_point is outside the closed set"
  require (1 ≤ rr.attempts.toInt ∧ rr.attempts.toInt ≤ maxRefusalAttempts)
    "attempts must be an integer in 1..1000000000"
  let first ← parseRefusalTime "first_at" rr.firstAt
  let last ← parseRefusalTime "last_at" rr.lastAt
  require (first ≤ last) "first_at must not be after last_at"
  require (last ≤ now + refusalClockSkew) "last_at is in the future beyond the allowed clock skew"
  let credential := if rr.credential = "" then rr.credential else plainName rr.credential
  let rr := { rr with firstAt := Time.format first, lastAt := Time.format last, credential }
  if rr.summary then validateSummary rr else validateSingle rr

/-- The counts of a summary, by the names of the classes in order. -/
def classMembers (byClass : Table String Int64) : List (String × CanonValue) :=
  (byClass.keys.insertionSort (· ≤ ·)).map fun c => (c, .int ((byClass.lookup c).getD 0))

/-- A text member, if the text is not empty. -/
def optionalText (k s : String) : List (String × CanonValue) :=
  if s = "" then [] else [(k, .str s)]

/-- The members of a refusal that say what was refused. -/
def refusalMembers (rr : RefusalRequest) : List (String × CanonValue) :=
  [("v", .int 1), ("attempts", .int rr.attempts), ("first_at", .str rr.firstAt),
    ("last_at", .str rr.lastAt)] ++ optionalText "entry_point" rr.entryPoint ++
    optionalText "credential" rr.credential ++
    if rr.summary then
      [("summary", .bool true), ("by_class", .obj (classMembers (rr.byClass.getD ∅)))]
    else [("reason_class", .str rr.reasonClass)]

/-- The record of a refusal. -/
def refusalRecord (recordId : String) (rr : RefusalRequest) : CanonValue :=
  .obj [("record_id", .str recordId), ("project_id", .str rr.projectId),
    ("session_id", .str rr.sessionId), ("agent_id", .str rr.agentId),
    ("agent_version", .str "vultrino-gateway"), ("event_type", .str "gateway_refusal"),
    ("record_kind", .str "gateway-refusal"), ("observed_via", .str "gateway"),
    ("status", .str "refused"), ("action", .str rr.action),
    ("extensions", .obj [("gateway_refusal", .obj (refusalMembers rr))])]

/-- The count a request states for a class. -/
def RefusalRequest.counted (rr : RefusalRequest) (c : String) : Option Int :=
  if rr.summary then ((rr.byClass.getD ∅).lookup c).map Int64.toInt
  else if c = rr.reasonClass then some rr.attempts.toInt else none

namespace Refusal

/-- A character of a plain name is one byte, which is one of a plain name too. -/
theorem utf8EncodeChar_nameChar {c : Char} (h : isNameChar c = true) :
    ∃ b, String.utf8EncodeChar c = [b] ∧ isNameByte b = true := by
  have hletter : c.isAlphanum = (c.isUpper || c.isLower || c.isDigit) := rfl
  simp only [isNameChar, Bool.or_eq_true, decide_eq_true_eq, hletter] at h
  rcases h with (((((hupper | hlower) | hdigit) | rfl) | rfl) | rfl) | rfl
  · rw [show c.isUpper = decide (c.val ≥ 'A'.val ∧ c.val ≤ 'Z'.val) from rfl] at hupper
    simp only [decide_eq_true_eq, ge_iff_le, UInt32.le_iff_toNat_le] at hupper
    obtain ⟨b, hb, hrange⟩ := utf8EncodeChar_range 'A' 'Z' hupper.1 hupper.2 (by decide)
    exact ⟨b, hb, by simp [isNameByte, hrange]⟩
  · rw [show c.isLower = (c.val ≥ 'a'.val && c.val ≤ 'z'.val) from rfl] at hlower
    simp only [Bool.and_eq_true, decide_eq_true_eq, ge_iff_le, UInt32.le_iff_toNat_le] at hlower
    obtain ⟨b, hb, hrange⟩ := utf8EncodeChar_range 'a' 'z' hlower.1 hlower.2 (by decide)
    exact ⟨b, hb, by simp [isNameByte, hrange]⟩
  · obtain ⟨b, hb, hrange⟩ := utf8EncodeChar_digit hdigit
    exact ⟨b, hb, by simp [isNameByte, hrange]⟩
  · exact ⟨_, utf8EncodeChar_of_lt (by decide), by decide⟩
  · exact ⟨_, utf8EncodeChar_of_lt (by decide), by decide⟩
  · exact ⟨_, utf8EncodeChar_of_lt (by decide), by decide⟩
  · exact ⟨_, utf8EncodeChar_of_lt (by decide), by decide⟩

/-- The bytes of a plain name, as many as its characters. -/
theorem utf8_nameChars {cs : List Char} (h : cs.all isNameChar = true) :
    (utf8 cs).length = cs.length ∧ (utf8 cs).all isNameByte = true := by
  induction cs with
  | nil => exact ⟨rfl, rfl⟩
  | cons c cs ih =>
    rw [List.all_cons, Bool.and_eq_true] at h
    obtain ⟨b, hb, hname⟩ := utf8EncodeChar_nameChar h.1
    obtain ⟨hlength, hall⟩ := ih h.2
    rw [utf8_cons, hb, List.singleton_append]
    exact ⟨by rw [List.length_cons, List.length_cons, hlength],
      by rw [List.all_cons, hname, hall]; rfl⟩

/-- The server's names are the verifier's. -/
theorem isName_of_refusalName {s : String} (h : refusalName s = true) : isName s = true := by
  simp only [refusalName, Bool.and_eq_true, decide_eq_true_eq] at h
  obtain ⟨⟨hlow, hhigh⟩, hall⟩ := h
  obtain ⟨hlength, hbytes⟩ := utf8_nameChars hall
  rw [isName, bytes_eq_utf8, hlength, hbytes]
  simp [hlow, hhigh]

/-- A plain name is a name. -/
theorem isName_plainName (s : String) : isName (plainName s) = true := by
  unfold plainName
  split_ifs with h
  · exact isName_of_refusalName h
  · exact isName_of_refusalName (by decide)

/-- The counts a request was accepted with are in their bounds. -/
def CountOk (entry : Sigma fun _ : String => Int64) : Prop :=
  entry.1 ∈ refusalReasonClasses ∧ 1 ≤ entry.2.toInt ∧ entry.2.toInt ≤ maxRefusalAttempts

theorem addRefusals_eq_ok_iff {sum total : Int64} {entry : Sigma fun _ : String => Int64} :
    addRefusals sum entry = .ok total ↔ CountOk entry ∧ sum + entry.2 = total := by
  simp only [addRefusals, bind_eq_ok_iff, require_eq_ok_iff, pure, Except.pure, Except.ok.injEq,
    exists_const, CountOk, and_assoc]

/-- All counts of a sum are counts. -/
theorem countOk_of_foldlM {entries : List (Sigma fun _ : String => Int64)} {sum total : Int64}
    (h : entries.foldlM addRefusals sum = .ok total) : ∀ e ∈ entries, CountOk e := by
  induction entries generalizing sum with
  | nil => simp
  | cons e entries ih =>
    rw [List.foldlM_cons, bind_eq_ok_iff] at h
    obtain ⟨sum', hadd, hrest⟩ := h
    exact List.forall_mem_cons.mpr ⟨(addRefusals_eq_ok_iff.mp hadd).1, ih hrest⟩

/-- The sum does not overflow where so many counts cannot. -/
theorem sum_of_foldlM {entries : List (Sigma fun _ : String => Int64)} {sum total : Int64}
    (h : entries.foldlM addRefusals sum = .ok total) (h0 : 0 ≤ sum.toInt)
    (hbound : sum.toInt + entries.length * maxRefusalAttempts < 2 ^ 63) :
    total.toInt = sum.toInt + (entries.map fun e => e.2.toInt).sum := by
  induction entries generalizing sum with
  | nil =>
    obtain rfl : sum = total := by simpa [pure, Except.pure] using h
    simp
  | cons e entries ih =>
    rw [List.foldlM_cons, bind_eq_ok_iff] at h
    obtain ⟨sum', hadd, hrest⟩ := h
    obtain ⟨⟨-, hlow, hhigh⟩, rfl⟩ := addRefusals_eq_ok_iff.mp hadd
    rw [List.length_cons, Nat.cast_add, Nat.cast_one, add_mul, one_mul] at hbound
    have hrest0 : 0 ≤ (entries.length : Int) * maxRefusalAttempts := by
      unfold maxRefusalAttempts
      positivity
    have hsum : (sum + e.2).toInt = sum.toInt + e.2.toInt := by
      rw [Int64.toInt_add]
      apply Int.bmod_eq_of_le <;> omega
    rw [ih hrest (by omega) (by omega), hsum, List.map_cons, List.sum_cons, add_assoc]

/-- The verifier's count of one class. -/
theorem addClass_count {sum : Int} {byClass : Table String Nat} {c : String} {n : Int64}
    (hc : c ∈ refusalReasonClasses) (hn : 1 ≤ n.toInt ∧ n.toInt ≤ maxRefusalAttempts)
    (hsum : sum + n.toInt < 2 ^ 63) :
    addClass (sum, byClass) (c, .int n) = .ok (sum + n.toInt, byClass.insert c n.toInt.toNat) := by
  have hcount : count (.int n) = some n.toInt := by
    simp only [count, CanonValue.asInt, Option.filter_some, hn, decide_true, and_self, if_true]
  simp only [addClass, bind_eq_ok_iff, require_eq_ok_iff, orFail_eq_ok_iff, hcount]
  exact ⟨(), hc, n.toInt, rfl, (), hsum, rfl⟩

/-- The verifier's count of all classes. -/
theorem foldlM_addClass {cs : List String} {f : String → Int64} {sum : Int}
    {byClass : Table String Nat}
    (hcs : ∀ c ∈ cs, c ∈ refusalReasonClasses ∧ 1 ≤ (f c).toInt ∧ (f c).toInt ≤ maxRefusalAttempts)
    (hbound : sum + cs.length * maxRefusalAttempts < 2 ^ 63) :
    (cs.map fun c => (c, CanonValue.int (f c))).foldlM addClass (sum, byClass) =
      .ok (sum + (cs.map fun c => (f c).toInt).sum,
        cs.foldl (fun t c => t.insert c (f c).toInt.toNat) byClass) := by
  induction cs generalizing sum byClass with
  | nil => simp [pure, Except.pure]
  | cons c cs ih =>
    rw [List.forall_mem_cons] at hcs
    rw [List.length_cons, Nat.cast_add, Nat.cast_one, add_mul, one_mul] at hbound
    have hrest : 0 ≤ (cs.length : Int) * maxRefusalAttempts := by
      unfold maxRefusalAttempts
      positivity
    rw [List.map_cons, List.foldlM_cons, addClass_count hcs.1.1 hcs.1.2 (by omega)]
    change List.foldlM addClass _ _ = _
    rw [ih hcs.2 (by omega), List.map_cons, List.sum_cons, List.foldl_cons, add_assoc]

/-- A key that was put has its value. -/
theorem lookup_foldl_insert {cs : List String} {g : String → Nat} {t : Table String Nat}
    {k : String} : (cs.foldl (fun t c => t.insert c (g c)) t).lookup k =
      if k ∈ cs then some (g k) else t.lookup k := by
  induction cs generalizing t with
  | nil => rfl
  | cons c cs ih =>
    rw [List.foldl_cons, ih, Table.lookup_insert_eq]
    by_cases hk : k = c
    · subst hk
      simp
    · simp [hk]

/-- Each class is counted at most once, and there are only so many. -/
theorem length_entries_le {t : Table String Int64} (h : ∀ e ∈ t.entries, CountOk e) :
    t.entries.length ≤ refusalReasonClasses.length := by
  have hsub : t.keys ⊆ refusalReasonClasses := by
    intro c hc
    obtain ⟨e, he, rfl⟩ := List.mem_map.mp hc
    exact (h e he).1
  have hle := (List.subperm_of_subset t.keys_nodup hsub).length_le
  rwa [AList.keys, List.keys, List.length_map] at hle

/-- What a normalized request keeps of the one it came from, up to its times. -/
structure Normalized (rr : RefusalRequest) : Prop where
  action : rr.action = "*" ∨ isName rr.action = true
  credential : rr.credential = "" ∨ isName rr.credential = true
  entryPoint : rr.entryPoint = "" ∨ rr.entryPoint ∈ refusalEntryPoints
  attempts : 1 ≤ rr.attempts.toInt ∧ rr.attempts.toInt ≤ maxRefusalAttempts
  single : rr.summary = false → rr.entryPoint ≠ "" ∧ rr.reasonClass ∈ refusalReasonClasses
  counts : rr.summary = true → ∀ e ∈ (rr.byClass.getD ∅).entries, CountOk e
  sum : rr.summary = true →
    ((rr.byClass.getD ∅).entries.map fun e => e.2.toInt).sum = rr.attempts.toInt

/-- A summary that passes adds up. -/
theorem validateSummary_sum {rr rr' : RefusalRequest} (h : validateSummary rr = .ok rr') :
    (∀ e ∈ (rr.byClass.getD ∅).entries, CountOk e) ∧
      ((rr.byClass.getD ∅).entries.map fun e => e.2.toInt).sum = rr.attempts.toInt := by
  simp only [validateSummary, bind_eq_ok_iff, require_eq_ok_iff] at h
  obtain ⟨-, -, -, -, sum, hfold, -, hsum, -⟩ := h
  have hcounts := countOk_of_foldlM hfold
  refine ⟨hcounts, ?_⟩
  have hlength : (rr.byClass.getD ∅).entries.length ≤ 14 := length_entries_le hcounts
  have hzero : (0 : Int64).toInt = 0 := rfl
  have htotal := sum_of_foldlM hfold hzero.ge (by unfold maxRefusalAttempts; omega)
  rw [← hsum, htotal, hzero, zero_add]

/-- A request that is accepted comes out normalized, with the times of its instants and all the
rest that is counted as it was. -/
theorem normalized_of_validateRefusal {rr rr' : RefusalRequest} {now : Int}
    (h : validateRefusal rr now = .ok rr') :
    Normalized rr' ∧ rr'.attempts = rr.attempts ∧ rr'.counted = rr.counted ∧
      ∃ first last, Time.parse rr.firstAt = some first ∧ Time.parse rr.lastAt = some last ∧
        rr'.firstAt = Time.format first ∧ rr'.lastAt = Time.format last := by
  simp only [validateRefusal, parseRefusalTime, bind_eq_ok_iff, require_eq_ok_iff,
    orFail_eq_ok_iff] at h
  obtain ⟨-, -, -, hentry, -, hattempts, first, hfirst, last, hlast, -, -, -, -, h⟩ := h
  have hcredential : ∀ s : String, (if s = "" then s else plainName s) = "" ∨
      isName (if s = "" then s else plainName s) = true := by
    intro s
    split_ifs with hs
    · exact .inl hs
    · exact .inr (isName_plainName s)
  cases hsummary : rr.summary with
  | true =>
    rw [hsummary, if_pos rfl] at h
    obtain ⟨hcounts, hsum⟩ := validateSummary_sum h
    simp only [validateSummary, bind_eq_ok_iff, require_eq_ok_iff] at h
    obtain ⟨-, -, -, -, -, -, -, -, h⟩ := h
    obtain rfl := Except.ok.inj h
    refine ⟨⟨?_, hcredential _, hentry, hattempts, ?_, fun _ => hcounts, fun _ => hsum⟩, rfl,
      funext fun c => by simp only [RefusalRequest.counted, hsummary], first, last, hfirst, hlast,
      rfl, rfl⟩
    · dsimp only
      split_ifs with hstar
      · exact .inl hstar
      · exact .inr (isName_plainName _)
    · exact fun hfalse => by cases hfalse
  | false =>
    rw [hsummary, if_neg (by decide)] at h
    simp only [validateSingle, bind_eq_ok_iff, require_eq_ok_iff] at h
    obtain ⟨-, -, -, hpoint, -, hreason, -, -, h⟩ := h
    obtain rfl := Except.ok.inj h
    refine ⟨⟨.inr (isName_plainName _), hcredential _, hentry, hattempts,
      fun _ => ⟨hpoint, hreason⟩, ?_, ?_⟩, rfl,
      funext fun c => by simp only [RefusalRequest.counted, hsummary], first, last, hfirst, hlast,
      rfl, rfl⟩
    · exact fun hfalse => by cases hfalse
    · exact fun hfalse => by cases hfalse

section Members

variable {rr : RefusalRequest}

theorem get_refusalMembers_entryPoint : (CanonValue.obj (refusalMembers rr)).get "entry_point" =
    if rr.entryPoint = "" then none else some (.str rr.entryPoint) := by
  unfold refusalMembers optionalText
  split_ifs <;> simp [CanonValue.get, CanonValue.member]

theorem get_refusalMembers_credential : (CanonValue.obj (refusalMembers rr)).get "credential" =
    if rr.credential = "" then none else some (.str rr.credential) := by
  unfold refusalMembers optionalText
  split_ifs <;> simp [CanonValue.get, CanonValue.member]

theorem get_refusalMembers_summary : (CanonValue.obj (refusalMembers rr)).get "summary" =
    if rr.summary then some (.bool true) else none := by
  unfold refusalMembers optionalText
  split_ifs <;> simp [CanonValue.get, CanonValue.member]

theorem get_refusalMembers_byClass : (CanonValue.obj (refusalMembers rr)).get "by_class" =
    if rr.summary then some (.obj (classMembers (rr.byClass.getD ∅))) else none := by
  unfold refusalMembers optionalText
  split_ifs <;> simp [CanonValue.get, CanonValue.member]

theorem get_refusalMembers_reasonClass : (CanonValue.obj (refusalMembers rr)).get "reason_class" =
    if rr.summary then none else some (.str rr.reasonClass) := by
  unfold refusalMembers optionalText
  split_ifs <;> simp [CanonValue.get, CanonValue.member]

theorem allowed_refusalMembers : ∀ m ∈ refusalMembers rr, m.1 ∈ allowedKeys := by
  unfold refusalMembers optionalText
  split_ifs <;> simp [allowedKeys]

end Members

/-- What the verifier counts by class for a request. -/
def refusedByClass (rr : RefusalRequest) : Table String Nat :=
  if rr.summary then
    ((rr.byClass.getD ∅).keys.insertionSort (· ≤ ·)).foldl
      (fun t c => t.insert c (((rr.byClass.getD ∅).lookup c).getD 0).toInt.toNat) ∅
  else (∅ : Table String Nat).insert rr.reasonClass rr.attempts.toInt.toNat

theorem lookup_getD_of_mem {t : Table String Int64} {e : Sigma fun _ : String => Int64}
    (he : e ∈ t.entries) : (t.lookup e.1).getD 0 = e.2 := by
  rw [AList.mem_lookup_iff.mpr he]
  rfl

/-- A summary is counted as requested. -/
theorem countSummary_refusalMembers {rr : RefusalRequest} (h : Normalized rr)
    (hsummary : rr.summary = true) {byClass : Table String Nat} :
    countSummary (.obj (refusalMembers rr)) rr.attempts.toInt = .ok byClass ↔
      byClass = refusedByClass rr := by
  set t := rr.byClass.getD ∅ with ht
  have hperm : (t.keys.insertionSort (· ≤ ·)).Perm t.keys := List.perm_insertionSort _ _
  have hmem : ∀ c ∈ t.keys.insertionSort (· ≤ ·), c ∈ refusalReasonClasses ∧
      1 ≤ ((t.lookup c).getD 0).toInt ∧ ((t.lookup c).getD 0).toInt ≤ maxRefusalAttempts := by
    intro c hc
    obtain ⟨e, he, rfl⟩ := List.mem_map.mp (hperm.mem_iff.mp hc)
    rw [lookup_getD_of_mem he]
    exact h.counts hsummary e he
  have hlength : (t.keys.insertionSort (· ≤ ·)).length ≤ 14 := by
    rw [hperm.length_eq, AList.keys, List.keys, List.length_map]
    exact length_entries_le (h.counts hsummary)
  have hsum : ((t.keys.insertionSort (· ≤ ·)).map fun c => ((t.lookup c).getD 0).toInt).sum =
      rr.attempts.toInt := by
    rw [(hperm.map _).sum_eq, ← h.sum hsummary, AList.keys, List.keys, List.map_map]
    exact congrArg List.sum (List.map_congr_left fun e he => by
      rw [Function.comp_apply, lookup_getD_of_mem he])
  have hbound : (0 : Int) + (t.keys.insertionSort (· ≤ ·)).length * maxRefusalAttempts <
      2 ^ 63 := by
    unfold maxRefusalAttempts
    omega
  have hfold := @foldlM_addClass _ (fun c => (t.lookup c).getD 0) 0 ∅ hmem hbound
  rw [hsum, zero_add] at hfold
  simp only [countSummary, bind_eq_ok_iff, require_eq_ok_iff, orFail_eq_ok_iff,
    get_refusalMembers_reasonClass, get_refusalMembers_byClass, hsummary, if_true]
  rw [refusedByClass, if_pos hsummary]
  constructor
  · rintro ⟨-, -, classes, hclasses, ⟨total, counted⟩, hcounted, -, -, hres⟩
    obtain rfl := Option.some.inj hclasses
    rw [classMembers, hfold] at hcounted
    obtain ⟨-, rfl⟩ := Prod.mk.inj (Except.ok.inj hcounted)
    exact (Except.ok.inj hres).symm
  · rintro rfl
    exact ⟨(), trivial, _, rfl, _, hfold, (), rfl, rfl⟩

/-- A refusal of one class is counted as requested. -/
theorem countSingle_refusalMembers {rr : RefusalRequest} (h : Normalized rr)
    (hsummary : rr.summary = false) {byClass : Table String Nat} :
    countSingle (.obj (refusalMembers rr)) rr.attempts.toInt = .ok byClass ↔
      byClass = refusedByClass rr := by
  obtain ⟨hpoint, hreason⟩ := h.single hsummary
  simp only [countSingle, bind_eq_ok_iff, require_eq_ok_iff, orFail_eq_ok_iff, strOf,
    get_refusalMembers_reasonClass, get_refusalMembers_byClass, get_refusalMembers_entryPoint,
    hsummary, if_neg hpoint, Bool.false_eq_true, if_false, Option.bind_some, CanonValue.asStr,
    Option.filter_some, decide_eq_true hreason, if_true]
  rw [refusedByClass, hsummary, if_neg (by decide)]
  constructor
  · rintro ⟨-, -, -, -, _, hclass, hres⟩
    obtain rfl := Option.some.inj hclass
    exact (Except.ok.inj hres).symm
  · rintro rfl
    exact ⟨(), by simp, (), trivial, _, rfl, rfl⟩

/-- The record of a normalized request is counted as requested if its times are canonical, and
otherwise refused. -/
theorem checkShape_refusalRecord {rr : RefusalRequest} (h : Normalized rr) (recordId : String)
    {counted : Counted} : checkShape (refusalRecord recordId rr) = .ok counted ↔
      (isCanonicalTime rr.firstAt = true ∧ isCanonicalTime rr.lastAt = true) ∧
        counted = ⟨rr.attempts.toInt.toNat, refusedByClass rr⟩ := by
  set g := CanonValue.obj (refusalMembers rr) with hg
  have htop : checkTop (refusalRecord recordId rr) = .ok () := by
    simp only [checkTop, bind_eq_ok_iff, require_eq_ok_iff]
    refine ⟨(), rfl, (), rfl, (), rfl, (), ?_, rfl⟩
    change (decide (rr.action = "*") || isName rr.action) = true
    rw [Bool.or_eq_true, decide_eq_true_eq]
    exact h.action
  have hmember : refusalMember (refusalRecord recordId rr) = .ok g := by
    simp only [refusalMember, bind_eq_ok_iff, require_eq_ok_iff, orFail_eq_ok_iff]
    exact ⟨_, rfl, (), ⟨rfl, rfl⟩, rfl⟩
  have hattempts : (g.get "attempts").bind count = some rr.attempts.toInt := by
    change count (.int rr.attempts) = _
    simp only [count, CanonValue.asInt, Option.filter_some, h.attempts, decide_true, and_self,
      if_true]
  have hcredential : checkOptional g "credential" (fun c => c.asStr.any isName)
      "extensions.gateway_refusal.credential must be a plain identifier" = .ok () := by
    rw [checkOptional, require_eq_ok_iff, hg, get_refusalMembers_credential]
    split_ifs with hempty
    · rfl
    · exact h.credential.resolve_left hempty
  have hpoint : checkOptional g "entry_point" (fun e => e.asStr.any (· ∈ refusalEntryPoints))
      "extensions.gateway_refusal.entry_point is outside the closed set" = .ok () := by
    rw [checkOptional, require_eq_ok_iff, hg, get_refusalMembers_entryPoint]
    split_ifs with hempty
    · rfl
    · exact decide_eq_true (h.entryPoint.resolve_left hempty)
  have htime : ∀ k s, g.get k = some (.str s) →
      (checkTime g k = .ok () ↔ isCanonicalTime s = true) := by
    intro k s hk
    rw [checkTime, require_eq_ok_iff, strOf, hk]
    rfl
  have hkeys : (refusalMembers rr).forM (fun m => require (m.1 ∈ allowedKeys)
      ("extensions.gateway_refusal has an unknown key " ++ String.quote m.1)) = .ok () :=
    forM_eq_ok_iff.mpr fun m hm => require_eq_ok_iff.mpr (allowed_refusalMembers m hm)
  have hsummary : summaryOf g = .ok rr.summary := by
    rw [summaryOf, hg, get_refusalMembers_summary]
    cases rr.summary <;> rfl
  have hclasses : ∀ byClass, countClasses g rr.attempts.toInt rr.summary = .ok byClass ↔
      byClass = refusedByClass rr := by
    intro byClass
    cases hsummary : rr.summary with
    | true => exact countSummary_refusalMembers h hsummary
    | false => exact countSingle_refusalMembers h hsummary
  have hfirst := htime "first_at" rr.firstAt rfl
  have hlast := htime "last_at" rr.lastAt rfl
  simp only [checkShape, bind_eq_ok_iff, orFail_eq_ok_iff]
  constructor
  · rintro ⟨-, -, _, hmember', -, -, -, -, -, -, attempts, hn, ⟨⟩, h₁, ⟨⟩, h₂, -, -, summary, hs,
      -, -, byClass, hbyClass, hres⟩
    obtain rfl := Except.ok.inj (hmember.symm.trans hmember')
    obtain rfl := Option.some.inj (hattempts.symm.trans hn)
    obtain rfl := Except.ok.inj (hsummary.symm.trans hs)
    obtain rfl := (hclasses byClass).mp hbyClass
    exact ⟨⟨hfirst.mp h₁, hlast.mp h₂⟩, (Except.ok.inj hres).symm⟩
  · rintro ⟨⟨h₁, h₂⟩, rfl⟩
    exact ⟨(), htop, g, hmember, _, rfl, (), hkeys, (), rfl, _, hattempts, (), hfirst.mpr h₁, (),
      hlast.mpr h₂, (), hcredential, _, hsummary, (), hpoint, _, (hclasses _).mpr rfl, rfl⟩

/-- The members a refusal is checked by. -/
def shapeKeys : List String :=
  ["event_type", "status", "observed_via", "action", "authority", "extensions"]

/-- The check reads the shape's keys only. -/
theorem checkShape_congr {rec rec' : CanonValue} (h : ∀ k ∈ shapeKeys, rec.get k = rec'.get k) :
    checkShape rec = checkShape rec' := by
  simp only [shapeKeys, List.forall_mem_cons] at h
  obtain ⟨hevent, hstatus, hobserved, haction, hauthority, hext, -⟩ := h
  have htop : checkTop rec = checkTop rec' := by
    unfold checkTop strOf
    rw [hevent, hstatus, hobserved, haction, hauthority]
  have hmember : refusalMember rec = refusalMember rec' := by
    rw [refusalMember, refusalMember, hext]
  rw [checkShape, checkShape, htop, hmember]

/-- Sealing keeps what a refusal is checked by. -/
theorem checkShape_sealRecord {ed : Ed25519} {R : Recorder ed} {p : Project} {sessionId : String}
    {rr : RefusalRequest} {recordId : String} {sealed : CanonValue} (haction : rr.action ≠ "")
    (h : R.sealRecord p sessionId (refusalRecord recordId rr) = some sealed) :
    checkShape sealed = checkShape (refusalRecord recordId rr) := by
  have hevidence : ((refusalRecord recordId rr).get "extensions").bind (·.get "feir_evidence") =
    none := rfl
  have htext : ∀ k s, (refusalRecord recordId rr).get k = some (.str s) → s ≠ "" →
      k ∉ completedKeys ++ envelopeKeys ++ ["content_hash", "sig"] →
        sealed.get k = (refusalRecord recordId rr).get k := by
    intro k s hk hs hkeys
    apply Recorder.get_sealRecord_of_text h hkeys
    rw [textField, hk]
    exact hs
  apply checkShape_congr
  simp only [shapeKeys, List.forall_mem_cons]
  exact ⟨htext _ _ rfl (by decide) (by decide), htext _ _ rfl (by decide) (by decide),
    htext _ _ rfl (by decide) (by decide), htext _ _ rfl haction (by decide),
    Recorder.get_sealRecord h hevidence (by decide),
    Recorder.get_sealRecord h hevidence (by decide), by simp⟩

/-- The counts the verifier finds are those of the request. -/
theorem lookup_refusedByClass {rr : RefusalRequest} (h : Normalized rr) (c : String) :
    ((refusedByClass rr).lookup c).map (fun n : Nat => (n : Int)) = rr.counted c := by
  cases hsummary : rr.summary with
  | true =>
    rw [refusedByClass, if_pos hsummary, lookup_foldl_insert, RefusalRequest.counted,
      if_pos hsummary]
    simp only [List.mem_insertionSort]
    split_ifs with hc
    · obtain ⟨n, hn⟩ := Option.isSome_iff_exists.mp (AList.lookup_isSome.mpr hc)
      have hcount : 1 ≤ n.toInt := (h.counts hsummary ⟨c, n⟩ (AList.mem_lookup_iff.mp hn)).2.1
      rw [hn, Option.getD_some, Option.map_some, Option.map_some,
        Int.toNat_of_nonneg (by omega)]
    · rw [AList.lookup_eq_none.mpr hc]
      rfl
  | false =>
    rw [refusedByClass, RefusalRequest.counted, hsummary, if_neg (by decide), if_neg (by decide),
      Table.lookup_insert_eq]
    split_ifs with hc
    · have hcount := h.attempts.1
      rw [Option.map_some, Int.toNat_of_nonneg (by omega)]
    · rfl

end Refusal

/-- The verifier counts a record as its request says. -/
def RefusalRequest.CountedIn (rr : RefusalRequest) (rec : CanonValue) : Prop :=
  ∃ counted, Refusal.checkShape rec = .ok counted ∧ (counted.attempts : Int) = rr.attempts.toInt ∧
    ∀ c, (counted.byClass.lookup c).map (fun n : Nat => (n : Int)) = rr.counted c

/-- The time of a text lies in a year of four digits, in UTC. -/
def FourDigitYear (v : String) : Prop :=
  ∃ t, Time.parse v = some t ∧ 0 ≤ (Time.civil t).year ∧ (Time.civil t).year < 10 ^ 4

/-- The record of an accepted refusal, sealed or not, is counted as requested if and only if
its two times lie in years of four digits. -/
theorem refusal_counted_iff {rr rr' : RefusalRequest} {now : Int} {recordId : String}
    {rec : CanonValue} (haccepted : validateRefusal rr now = .ok rr')
    (hrec : rec = refusalRecord recordId rr' ∨ ∃ (ed : Ed25519) (R : Recorder ed) (p : Project),
      R.sealRecord p rr.sessionId (refusalRecord recordId rr') = some rec) :
    rr.CountedIn rec ↔ FourDigitYear rr.firstAt ∧ FourDigitYear rr.lastAt := by
  obtain ⟨hnormalized, hattempts, hcounted, first, last, hfirst, hlast, hfirstAt, hlastAt⟩ :=
    Refusal.normalized_of_validateRefusal haccepted
  have haction : rr'.action ≠ "" := by
    rintro hempty
    rcases hnormalized.action with hstar | hname
    · rw [hempty] at hstar
      exact absurd hstar (by decide)
    · rw [hempty] at hname
      exact absurd hname (by decide)
  have hshape : Refusal.checkShape rec = Refusal.checkShape (refusalRecord recordId rr') := by
    rcases hrec with rfl | ⟨ed, R, p, hsealed⟩
    · rfl
    · exact Refusal.checkShape_sealRecord haction hsealed
  have hyear : ∀ {v t}, Time.parse v = some t →
      (FourDigitYear v ↔ Refusal.isCanonicalTime (Time.format t) = true) := by
    intro v t ht
    rw [Refusal.isCanonicalTime_format, FourDigitYear, ht]
    exact ⟨fun ⟨_, heq, hbounds⟩ => Option.some.inj heq ▸ hbounds, fun hbounds => ⟨t, rfl, hbounds⟩⟩
  rw [RefusalRequest.CountedIn, hshape, hyear hfirst, hyear hlast, ← hfirstAt, ← hlastAt]
  simp only [Refusal.checkShape_refusalRecord hnormalized recordId]
  constructor
  · rintro ⟨_, ⟨htimes, -⟩, -⟩
    exact htimes
  · intro htimes
    refine ⟨_, ⟨htimes, rfl⟩, ?_, ?_⟩
    · have hcount := hnormalized.attempts.1
      rw [hattempts] at hcount ⊢
      exact Int.toNat_of_nonneg (by omega)
    · intro c
      rw [Refusal.lookup_refusedByClass hnormalized, hcounted]

/-- A refusal of one attempt, last seen at the given time. -/
def sampleRefusal (firstAt : String) : RefusalRequest where
  projectId := "p"
  sessionId := "s"
  idempotencyKey := "k"
  agentId := "agent"
  action := "tool"
  entryPoint := "mcp"
  reasonClass := "not_granted"
  credential := ""
  attempts := 1
  firstAt := firstAt
  lastAt := "2026-01-01T00:00:00Z"
  summary := false
  byClass := none

/-- The same once it is normalized. -/
def normalizedSample (first : Int) : RefusalRequest :=
  { sampleRefusal (Time.format first) with lastAt := Time.format 1767225600000000000 }

/-- The sample passes. -/
theorem validateRefusal_sampleRefusal {v : String} {first : Int} (h : Time.parse v = some first)
    (hle : first ≤ 1767225600000000000) :
    validateRefusal (sampleRefusal v) 1767225600000000000 = .ok (normalizedSample first) := by
  have hlast : Time.parse (sampleRefusal v).lastAt = some 1767225600000000000 := by
    simp only [Time.parse, sampleRefusal, bytes_eq_utf8]
    decide
  simp only [validateRefusal, parseRefusalTime, bind_eq_ok_iff, require_eq_ok_iff,
    orFail_eq_ok_iff, hlast]
  refine ⟨(), ?_, (), .inr ?_, (), ?_, first, h, _, rfl, (), hle, (), by decide, ?_⟩
  · change refusalName "agent" = true
    decide
  · change "mcp" ∈ refusalEntryPoints
    decide
  · change 1 ≤ (1 : Int64).toInt ∧ (1 : Int64).toInt ≤ maxRefusalAttempts
    decide
  · rw [if_neg (by exact Bool.false_ne_true)]
    simp only [validateSingle, bind_eq_ok_iff, require_eq_ok_iff]
    refine ⟨(), rfl, (), ?_, (), ?_, (), ?_, ?_⟩
    · change "mcp" ≠ ""
      decide
    · change "not_granted" ∈ refusalReasonClasses
      decide
    · change "tool" ≠ ""
      decide
    · have haction : plainName "tool" = "tool" := by decide
      change Except.ok { normalizedSample first with action := plainName "tool" } = _
      rw [haction]
      rfl

/-- The sample is counted as its year is of four digits. -/
theorem refusal_counted_iff_sample :
    (sampleRefusal "2026-01-01T00:00:00Z").CountedIn
      (refusalRecord "refusal-1" (normalizedSample 1767225600000000000)) ↔
    FourDigitYear "2026-01-01T00:00:00Z" ∧ FourDigitYear "2026-01-01T00:00:00Z" := by
  have htime : Time.parse "2026-01-01T00:00:00Z" = some 1767225600000000000 := by
    simp only [Time.parse, bytes_eq_utf8]
    decide
  exact refusal_counted_iff (validateRefusal_sampleRefusal htime le_rfl) (.inl rfl)

/-- A refusal is accepted whose first time lies in the last year before zero, and its record does
not pass. -/
theorem refusal_before_year_zero_not_counted :
    ∃ rr', validateRefusal (sampleRefusal "0000-01-01T00:00:00+01:00") 1767225600000000000 =
        .ok rr' ∧
      ∀ counted, Refusal.checkShape (refusalRecord "refusal-1" rr') ≠ .ok counted := by
  have htime : Time.parse "0000-01-01T00:00:00+01:00" = some (-62167222800000000000) := by
    simp only [Time.parse, bytes_eq_utf8]
    decide
  have haccepted := validateRefusal_sampleRefusal htime (by decide)
  obtain ⟨hnormalized, -⟩ := Refusal.normalized_of_validateRefusal haccepted
  refine ⟨_, haccepted, fun counted hcounted => ?_⟩
  obtain ⟨⟨hfirst, -⟩, -⟩ := (Refusal.checkShape_refusalRecord hnormalized _).mp hcounted
  have hyear := (Refusal.isCanonicalTime_format _).mp hfirst
  exact absurd hyear.1 (by decide)

end Averin
