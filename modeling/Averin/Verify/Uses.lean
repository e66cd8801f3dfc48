import Averin.Sign.Signature
import Averin.Verify.GrantLog

/-!
# Checking a use against its grant

A committed use or intent is checked against the grant it names: the fields must agree, a
single-use grant is spent at most once, a reusable one at most once a number and within its
limit, and an intent needs an outcome that nobody consumed before. The check runs on one of
two ledgers of the grant, the one for accepted uses and the one for uses that a revocation
blocks.
-/

namespace Averin

open Std (TreeSet)

section Possession

variable (sha256 : List UInt8 → Vector UInt8 32) (ed : Ed25519)

/-- What the holder of a grant signs for a use. -/
def usePopPreimage (grantId resourceId action paramsCommitment credentialBinding nonce : String) :
    List UInt8 :=
  ["averin.broker.use.pop.v1", grantId, resourceId, action, paramsCommitment, credentialBinding,
    nonce].flatMap fun part => lp4 (bytes part)

/-- Its hash. -/
def usePopChallenge (grantId resourceId action paramsCommitment credentialBinding nonce : String) :
    Vector UInt8 32 :=
  sha256 (usePopPreimage grantId resourceId action paramsCommitment credentialBinding nonce)

/-- The name of a key: a prefix of its hash. -/
def cnfKid (cnfPub : Vector UInt8 32) : String :=
  "ed25519-" ++ B64.encode ((sha256 cnfPub.toList).toList.take 8)

/-- Repeat the signature check of a use that carries its key. A use that does not is not
checked again, which is no error. -/
def popReverify (rec : CanonValue) (credentialBinding : String) : Except String Bool :=
  let ev := evStr rec "use_evidence"
  match ev "cnf_pub", ev "use_sig" with
  | some cnfB64, some sigB64 => do
    let some cnfPub := B64.decodeFixed 32 cnfB64
      | throw "use_evidence.cnf_pub is not a base64url ed25519 public key"
    if !ed.validKey cnfPub then
      throw "use_evidence.cnf_pub is not a valid ed25519 public key"
    if ev "cnf_kid" ≠ some (cnfKid sha256 cnfPub) then
      throw "carried cnf_pub does not match use_evidence.cnf_kid"
    let commitment := ((rec.get "input_commit").bind (·.get "commitment")).bind CanonValue.asStr
    let challenge := usePopChallenge sha256 ((ev "grant_id").getD "") ((ev "resource_id").getD "")
      ((ev "action").getD "") (commitment.getD "") credentialBinding ((ev "nonce").getD "")
    if ev "pop_challenge_hash" ≠ some (rootText challenge) then
      throw "reconstructed PoP challenge != use_evidence.pop_challenge_hash"
    let some sig := B64.decodeFixed 64 sigB64
      | throw "use_evidence.use_sig is not a base64url 64-byte signature"
    if !ed.verifyStrict cnfPub challenge.toList sig then
      throw "use_sig does not verify under cnf_pub (offline PoP re-check failed)"
    return true
  | _, _ => return false

end Possession

/-- A grant as its uses see it, with the ledger of accepted uses (`used`, `usedSeqs`) and
the ledger of blocked ones (`histUsed`, `histUsedSeqs`). -/
structure GrantInfo where
  action : String
  resourceId : String
  scopeClass : String
  credentialBinding : String
  issuedAt : Int
  used : Nat
  useLimit : Int
  usedSeqs : TreeSet Int
  effectiveCnfKid : String
  effectiveExp : Int
  closed : Bool
  histUsed : Nat
  histUsedSeqs : TreeSet Int

namespace GrantInfo

variable (g : GrantInfo)

/-- The grant is for one use. -/
def single : Bool := g.scopeClass == "single_operation"

/-- The grant is for a number of uses. -/
def bounded : Bool := g.scopeClass == "bounded_reuse"

/-- The count of the ledger a call works on. -/
def usedOn (shadow : Bool) : Nat := if shadow then g.histUsed else g.used

/-- The sequence numbers of the ledger a call works on. -/
def seqsOn (shadow : Bool) : TreeSet Int := if shadow then g.histUsedSeqs else g.usedSeqs

/-- Enter an accepted use, with its sequence number if it has one. -/
def spend (shadow : Bool) (useSeq : Option Int) : GrantInfo :=
  let seqs := useSeq.elim (g.seqsOn shadow) (g.seqsOn shadow).insert
  if shadow then { g with histUsed := g.histUsed + 1, histUsedSeqs := seqs }
  else { g with used := g.used + 1, usedSeqs := seqs }

end GrantInfo

/-- A validated outcome, read from its signed payload. -/
structure OutcomeRef where
  intentRef : String
  grantId : String
  recordId : String
  index : Nat
  intentHash : String
  closed : Bool
  deriving DecidableEq, Inhabited, Repr

/-- Which actions a taxonomy maps, and when. -/
structure TaxonomyInfo where
  actions : List (String × String)
  effectiveFrom : Int
  effectiveUntil : Int

/-- What every use is checked against. -/
structure UseCtx where
  records : List CanonValue
  outcomes : List OutcomeRef
  taxonomy : Option TaxonomyInfo

/-- The fields of one committed use or intent, read from its evidence. -/
structure UseInput where
  record : CanonValue
  recordId : String
  contentHash : String
  bkind : String
  gid : String
  action : String
  resourceId : String
  cnfKid : String
  jti : String
  usedAt : Int
  useClosed : Bool

/-- What is said of one use. -/
inductive UseCheck where
  | violation (msg : String) (overspent seqReplay : Bool)
  | intentWithoutOutcome
  | pending
  | matched (popReverified actionVerified taxonomyWindowFailed : Bool) (outcome : Option Nat)
  deriving DecidableEq, Repr

/-- The use breaks a rule. -/
def UseCheck.isViolation : UseCheck → Bool
  | .violation _ _ _ => true
  | _ => false

/-- The sequence number a reusable grant is spent with. -/
def useSequenceNumber (u : UseInput) : Int :=
  (evInt u.record "use_evidence" "use_sequence_number").getD 0

/-- The checks before the outcome is looked for: the fields of the use against the grant,
and what the ledger still allows. The answer is the sequence number to spend, if the grant
counts with one. -/
def admitUse (u : UseInput) (g : GrantInfo) (shadow : Bool) : Except UseCheck (Option Int) :=
  let violation msg := UseCheck.violation msg false false
  let usn := useSequenceNumber u
  if u.action ≠ g.action ∨ u.resourceId ≠ g.resourceId ∨ u.cnfKid ≠ g.effectiveCnfKid ∨
      u.usedAt < g.issuedAt ∨ u.usedAt ≥ g.effectiveExp then
    .error (violation
      ("action/resource/cnf/window does not match grant '" ++ u.gid ++ "' — violation"))
  else if (g.single || g.bounded) ∧ u.jti ≠ u.gid then
    .error (violation (g.scopeClass ++ " grant '" ++ u.gid ++
      "' requires use_evidence.jti == grant_id (R5) — violation"))
  else if g.single ∧ g.usedOn shadow ≥ 1 then
    .error (violation
      ("single-use grant '" ++ u.gid ++ "' exercised more than once — double-spend (R5)"))
  else if g.bounded then
    if usn < 1 ∨ usn > g.useLimit then
      .error (.violation ("bounded_reuse grant '" ++ u.gid ++ "' use_sequence_number " ++
        toString usn ++ " outside [1, " ++ toString g.useLimit ++ "] — overspend (M1)") true false)
    else if usn ∈ g.seqsOn shadow then
      .error (.violation ("bounded_reuse grant '" ++ u.gid ++ "' use_sequence_number " ++
        toString usn ++ " replayed across receipts — seq-replay (M1)") false true)
    else if (g.usedOn shadow : Int) ≥ g.useLimit then
      .error (.violation ("bounded_reuse grant '" ++ u.gid ++ "' exercised more than use_limit " ++
        toString g.useLimit ++ " times — overspend (M1)") true false)
    else .ok (some usn)
  else .ok none

/-- The outcome at a position. -/
def UseCtx.outcome (ctx : UseCtx) (i : Nat) : OutcomeRef := ctx.outcomes.getD i default

/-- The positions of the outcomes of an intent under a grant, in list order. -/
def outcomesBy (ctx : UseCtx) (intentRef grantId : String) : List Nat :=
  (List.range ctx.outcomes.length).filter fun i =>
    (ctx.outcome i).intentRef == intentRef && (ctx.outcome i).grantId == grantId

/-- The outcome signs the hash of the intent and its record names the intent as a parent. -/
def completes (ctx : UseCtx) (u : UseInput) (o : OutcomeRef) : Bool :=
  let parents := ((ctx.records.getD o.index .null).get "causal_prev_hashes").bind CanonValue.asArray
  o.intentHash == u.contentHash &&
    parents.any fun p => p.any fun h => h.asStr == some u.contentHash

/-- The first outcome of the intent that is not consumed yet. -/
def pickOutcome (ctx : UseCtx) (u : UseInput) (consumed : TreeSet String) : Option Nat :=
  if u.bkind = "use_intent" then
    (outcomesBy ctx u.recordId u.gid).find? fun i =>
      !consumed.contains (ctx.outcome i).recordId && completes ctx u (ctx.outcome i)
  else none

/-- Whether the taxonomy lists the action for the resource, and whether the grant and the
use both lie in its window. -/
def taxonomyListed (ctx : UseCtx) (u : UseInput) : Bool :=
  ctx.taxonomy.any fun ti => ti.actions.contains (u.resourceId, u.action)

/-- The use lies in the window of the taxonomy. -/
def taxonomyInWindow (ctx : UseCtx) (u : UseInput) (g : GrantInfo) : Bool :=
  ctx.taxonomy.any fun ti =>
    g.issuedAt ≥ ti.effectiveFrom && g.issuedAt ≤ ti.effectiveUntil &&
      u.usedAt ≥ ti.effectiveFrom && u.usedAt ≤ ti.effectiveUntil

/-- The part of the check after its last refusal: the picked outcome is consumed, the use is
entered, and only a closed use of a closed grant is matched. -/
def settleUse (ctx : UseCtx) (u : UseInput) (g : GrantInfo) (shadow : Bool)
    (consumed : TreeSet String) (useSeq : Option Int) (popReverified : Bool) :
    UseCheck × GrantInfo × TreeSet String :=
  let pendingConsume := pickOutcome ctx u consumed
  let taken := pendingConsume.elim consumed fun i => consumed.insert (ctx.outcome i).recordId
  if u.bkind = "use_intent" ∧ pendingConsume = none then
    (if u.useClosed then .intentWithoutOutcome else .pending, g, consumed)
  else if pendingConsume.any fun i => u.useClosed && !(ctx.outcome i).closed then
    -- The outcome is there but not closed: it is no orphan, and the grant is not spent.
    (.intentWithoutOutcome, g, taken)
  else if !u.useClosed || !g.closed then (.pending, g.spend shadow useSeq, taken)
  else
    let listed := (g.single || g.bounded) && taxonomyListed ctx u
    let inWindow := taxonomyInWindow ctx u g
    (.matched popReverified (listed && inWindow) (listed && !inWindow) pendingConsume,
      g.spend shadow useSeq, taken)

/-- Check one use on one of the two ledgers. -/
def checkUse (sha256 : List UInt8 → Vector UInt8 32) (ed : Ed25519) (ctx : UseCtx) (u : UseInput)
    (g : GrantInfo) (shadow : Bool) (consumed : TreeSet String) :
    UseCheck × GrantInfo × TreeSet String :=
  match admitUse u g shadow with
  | .error v => (v, g, consumed)
  | .ok useSeq =>
    match popReverify sha256 ed u.record g.credentialBinding with
    | .error msg =>
      (.violation ("offline PoP re-verification: " ++ msg) false false, g, consumed)
    | .ok popReverified => settleUse ctx u g shadow consumed useSeq popReverified

end Averin
