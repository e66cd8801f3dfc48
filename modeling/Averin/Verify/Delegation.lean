import Averin.Verify.Cosignatures

/-!
# Passing a grant on

A chain of hops that is verified starts at the key of the grant. Every hop is signed by the key
the hop before it passed the grant on to, for its own position, and keeps what the grant allows.
-/

namespace Averin

/-- A hop as the verifier reads it. -/
structure Hop where
  delegator : Vector UInt8 32
  delegate : Vector UInt8 32
  scope : String
  action : String
  resourceId : String
  exp : Int
  sig : Vector UInt8 64

/-- The hops that a grant carries. -/
def delegationAssertions (rec : CanonValue) : Option (List CanonValue) :=
  ((grantEvidenceOf rec).bind (·.get "delegation_assertions")).bind CanonValue.asArray

/-- A hop whose members are all there and well formed. -/
def readHop (ed : Ed25519) (hop : CanonValue) : Option Hop := do
  let text k := (hop.get k).bind CanonValue.asStr
  let delegatorB64 ← text "delegator_cnf"
  let delegateB64 ← text "delegate_cnf"
  let scope ← text "scope"
  let action ← text "action"
  let resourceId ← text "resource_id"
  let sigB64 ← text "sig"
  let exp ← (hop.get "exp").bind CanonValue.asInt
  let delegator ← hopKey ed delegatorB64
  let delegate ← hopKey ed delegateB64
  let sig ← B64.decodeFixed 64 sigB64
  return ⟨delegator, delegate, scope, action, resourceId, exp, sig⟩

section Chain

variable (sha256 : List UInt8 → Vector UInt8 32) (ed : Ed25519) (grantId : String)

/-- The bytes that the hop at a position signs. -/
def Hop.preimage (h : Hop) (i : Nat) : List UInt8 :=
  delegationHopPreimage grantId i (cnfKid sha256 h.delegator) (cnfKid sha256 h.delegate) h.scope
    h.action h.resourceId h.exp

/-- The delegator signed the hop for this grant and position. -/
def Hop.Signed (h : Hop) (i : Nat) : Prop :=
  ed.verifyStrict h.delegator (sha256 (h.preimage sha256 grantId i)).toList h.sig = true

/-- A hop that allows what the grant allows. -/
def Hop.Keeps (h : Hop) (scope action resourceId : String) : Prop :=
  h.scope = scope ∧ h.action = action ∧ h.resourceId = resourceId

/-- A chain that starts at the key named `rootKid`. -/
structure NarrowingChain (rootKid scope action resourceId : String) (hops : List Hop) : Prop where
  nonempty : hops ≠ []
  root : ∀ h ∈ hops.head?, cnfKid sha256 h.delegator = rootKid
  linked : hops.IsChain fun h next => cnfKid sha256 next.delegator = cnfKid sha256 h.delegate
  signed : ∀ (i : Nat) (h : Hop), hops[i]? = some h → h.Signed sha256 ed grantId i
  keeps : ∀ h ∈ hops, h.Keeps scope action resourceId

/-- The same, hop by hop, from a position and a key name on. -/
def ChainFrom (scope action resourceId : String) :
    (i : Nat) → (kid : String) → List Hop → Prop
  | _, _, [] => True
  | i, kid, h :: hops =>
    cnfKid sha256 h.delegator = kid ∧ h.Signed sha256 ed grantId i ∧
      h.Keeps scope action resourceId ∧
      ChainFrom scope action resourceId (i + 1) (cnfKid sha256 h.delegate) hops

/-- The name of the key that the last hop passes the grant on to. -/
def hopsLeaf (kid : String) (hops : List Hop) : String :=
  hops.getLast?.elim kid fun h => cnfKid sha256 h.delegate

end Chain

/-- The earliest end of a grant and its hops. -/
def hopsExp (exp : Int) (hops : List Hop) : Int := hops.foldl (fun e h => min e h.exp) exp

/-- The keys of the hops. -/
def hopKeys (hops : List Hop) : List (Vector UInt8 32) :=
  hops.flatMap fun h => [h.delegator, h.delegate]

section Walk

variable {sha256 : List UInt8 → Vector UInt8 32} {ed : Ed25519}
  {grantId rootKid scope action resourceId : String}

/-- One step of the walk, in terms of the hop that is read. -/
theorem walkHops_cons {hop : CanonValue} {hops : List CanonValue} {i : Nat} {kid : String}
    {exp : Int} {monotone : Bool} :
    walkHops sha256 ed grantId scope action resourceId (hop :: hops) i kid exp monotone =
      (readHop ed hop).elim .invalid fun h =>
        if cnfKid sha256 h.delegator ≠ kid then .invalid
        else if
          ed.verifyStrict h.delegator (sha256 (h.preimage sha256 grantId i)).toList h.sig = false
        then .invalid
        else walkHops sha256 ed grantId scope action resourceId hops (i + 1)
          (cnfKid sha256 h.delegate) (min exp h.exp)
          (monotone && (h.scope = scope && h.action = action && h.resourceId = resourceId)) := by
  rw [walkHops]
  unfold readHop
  dsimp only
  cases (hop.get "delegator_cnf").bind CanonValue.asStr with
  | none => rfl
  | some delegatorB64 =>
  cases (hop.get "delegate_cnf").bind CanonValue.asStr with
  | none => rfl
  | some delegateB64 =>
  cases (hop.get "scope").bind CanonValue.asStr with
  | none => rfl
  | some hopScope =>
  cases (hop.get "action").bind CanonValue.asStr with
  | none => rfl
  | some hopAction =>
  cases (hop.get "resource_id").bind CanonValue.asStr with
  | none => rfl
  | some hopResourceId =>
  cases (hop.get "sig").bind CanonValue.asStr with
  | none => rfl
  | some sigB64 =>
  cases (hop.get "exp").bind CanonValue.asInt with
  | none => rfl
  | some hopExp =>
  dsimp only [Option.bind_eq_bind, Option.bind_some]
  cases hopKey ed delegatorB64 with
  | none => rfl
  | some delegatorVk =>
  cases hopKey ed delegateB64 with
  | none => rfl
  | some delegateVk =>
  cases B64.decodeFixed 64 sigB64 with
  | none => simp
  | some sig => rfl

/-- The leaf of a longer chain. -/
theorem hopsLeaf_cons (kid : String) (h : Hop) (hops : List Hop) :
    hopsLeaf sha256 kid (h :: hops) = hopsLeaf sha256 (cnfKid sha256 h.delegate) hops := by
  rw [hopsLeaf, hopsLeaf, List.getLast?_cons]
  cases hops.getLast? with
  | none => rfl
  | some last => rfl

/-- What a walk that verifies has read. -/
theorem walkHops_eq_verified_iff {hops : List CanonValue} {i : Nat} {kid : String} {exp : Int}
    {monotone : Bool} {effKid : String} {effExp : Int} :
    walkHops sha256 ed grantId scope action resourceId hops i kid exp monotone =
        .verified effKid effExp ↔
      monotone = true ∧ ∃ hs, List.Forall₂ (fun hop h => readHop ed hop = some h) hops hs ∧
        ChainFrom sha256 ed grantId scope action resourceId i kid hs ∧
        effKid = hopsLeaf sha256 kid hs ∧ effExp = hopsExp exp hs := by
  induction hops generalizing i kid exp monotone with
  | nil =>
    rw [walkHops]
    cases monotone with
    | false => simp
    | true =>
      simp only [if_true, ChainResult.verified.injEq, List.forall₂_nil_left_iff, true_and,
        exists_eq_left, ChainFrom]
      exact and_congr eq_comm eq_comm
  | cons hop hops ih =>
    rw [walkHops_cons]
    cases hread : readHop ed hop with
    | none =>
      simp only [Option.elim_none, reduceCtorEq, false_iff, List.forall₂_cons_left_iff, hread,
        not_and, not_exists]
      rintro - hs ⟨_, _, hnone, -⟩
      cases hnone
    | some h =>
      simp only [Option.elim_some, List.forall₂_cons_left_iff, hread, Option.some.injEq]
      split_ifs with hkid hsig
      · simp only [false_iff, not_and, not_exists]
        rintro - hs ⟨_, rest, rfl, -, rfl⟩ ⟨hlink, -⟩
        exact absurd hlink hkid
      · simp only [false_iff, not_and, not_exists]
        rintro - hs ⟨_, rest, rfl, -, rfl⟩ ⟨-, hsigned, -⟩
        rw [Hop.Signed, hsig] at hsigned
        cases hsigned
      · rw [ih]
        simp only [Bool.and_eq_true, decide_eq_true_eq]
        constructor
        · rintro ⟨⟨hmono, ⟨hscope, haction⟩, hresource⟩, rest, hall, hchain, rfl, rfl⟩
          refine ⟨hmono, h :: rest, ⟨h, rest, rfl, hall, rfl⟩, ⟨not_not.mp hkid, ?_,
            ⟨hscope, haction, hresource⟩, hchain⟩, (hopsLeaf_cons _ _ _).symm, rfl⟩
          exact Bool.eq_true_of_not_eq_false hsig
        · rintro ⟨hmono, _, ⟨_, rest, rfl, hall, rfl⟩, ⟨-, -, ⟨hscope, haction, hresource⟩, hchain⟩,
            rfl, rfl⟩
          exact ⟨⟨hmono, ⟨hscope, haction⟩, hresource⟩, rest, hall, hchain, hopsLeaf_cons _ _ _,
            rfl⟩

/-- Hop by hop or as a whole, a chain is the same. -/
theorem chainFrom_iff {hops : List Hop} {i : Nat} {kid : String} :
    ChainFrom sha256 ed grantId scope action resourceId i kid hops ↔
      (∀ h ∈ hops.head?, cnfKid sha256 h.delegator = kid) ∧
        (hops.IsChain fun h next => cnfKid sha256 next.delegator = cnfKid sha256 h.delegate) ∧
        (∀ (j : Nat) (h : Hop), hops[j]? = some h → h.Signed sha256 ed grantId (i + j)) ∧
        ∀ h ∈ hops, h.Keeps scope action resourceId := by
  induction hops generalizing i kid with
  | nil => simp [ChainFrom]
  | cons h hops ih =>
    rw [ChainFrom, ih, List.isChain_cons, List.forall_mem_cons]
    constructor
    · rintro ⟨hroot, hsigned, hkeeps, hhead, hlinked, hrest, hkept⟩
      refine ⟨by simpa using hroot, ⟨hhead, hlinked⟩, fun j g hg => ?_, hkeeps, hkept⟩
      cases j with
      | zero =>
        obtain rfl := Option.some.inj hg
        exact hsigned
      | succ j =>
        have := hrest j g hg
        rwa [show i + (j + 1) = i + 1 + j by omega]
    · rintro ⟨hroot, ⟨hhead, hlinked⟩, hsigned, hkeeps, hkept⟩
      refine ⟨hroot h rfl, hsigned 0 h rfl, hkeeps, hhead, hlinked, fun j g hg => ?_, hkept⟩
      have := hsigned (j + 1) g hg
      rwa [show i + 1 + j = i + (j + 1) by omega]

/-- The running minimum is the least end. -/
theorem hopsExp_eq_iff {exp effExp : Int} {hops : List Hop} :
    effExp = hopsExp exp hops ↔ (exp :: hops.map Hop.exp).min? = some effExp := by
  rw [List.min?_cons', hopsExp, List.foldl_map, Option.some.injEq, eq_comm]

/-- A chain verifies exactly if it is read whole and narrows from the root key, with the leaf and
the end that are returned. -/
theorem verifyDelegationChain_eq_verified_iff {rec : CanonValue} {grantExp effExp : Int}
    {effKid : String} :
    verifyDelegationChain sha256 ed rec grantId rootKid scope action resourceId grantExp =
        .verified effKid effExp ↔
      ∃ assertions hops, delegationAssertions rec = some assertions ∧
        List.Forall₂ (fun hop h => readHop ed hop = some h) assertions hops ∧
        NarrowingChain sha256 ed grantId rootKid scope action resourceId hops ∧
        (∃ last, hops.getLast? = some last ∧ effKid = cnfKid sha256 last.delegate) ∧
        (grantExp :: hops.map Hop.exp).min? = some effExp := by
  rw [verifyDelegationChain, ← delegationAssertions]
  cases delegationAssertions rec with
  | none => simp
  | some assertions =>
    cases assertions with
    | nil =>
      simp only [reduceCtorEq, false_iff, not_exists]
      rintro _ hops ⟨hsome, hall, hchain, -⟩
      obtain rfl := Option.some.inj hsome
      exact hchain.nonempty (List.forall₂_nil_left_iff.mp hall)
    | cons first rest =>
      dsimp only
      rw [walkHops_eq_verified_iff]
      constructor
      · rintro ⟨-, hops, hall, hchain, rfl, hexp⟩
        obtain ⟨hroot, hlinked, hsigned, hkeeps⟩ := chainFrom_iff.mp hchain
        have hne : hops ≠ [] := by
          rintro rfl
          cases hall
        refine ⟨_, hops, rfl, hall, ⟨hne, hroot, hlinked, fun j h hj => ?_, hkeeps⟩,
          ⟨hops.getLast hne, List.getLast?_eq_getLast_of_ne_nil hne, ?_⟩, hopsExp_eq_iff.mp hexp⟩
        · have := hsigned j h hj
          rwa [Nat.zero_add] at this
        · rw [hopsLeaf, List.getLast?_eq_getLast_of_ne_nil hne]
          rfl
      · rintro ⟨_, hops, hsome, hall, hchain, ⟨last, hlast, rfl⟩, hexp⟩
        obtain rfl := Option.some.inj hsome
        refine ⟨rfl, hops, hall, chainFrom_iff.mpr ⟨hchain.root, hchain.linked, fun j h hj => ?_,
          hchain.keeps⟩, ?_, hopsExp_eq_iff.mpr hexp⟩
        · have := hchain.signed j h hj
          rwa [Nat.zero_add]
        · rw [hopsLeaf, hlast]
          rfl

/-- Signed bytes are for one grant and one position. -/
theorem Hop.preimage_inj {h g : Hop} {grantId' : String} {i j : Nat}
    (hlen : (bytes grantId).length < 2 ^ 32) (hlen' : (bytes grantId').length < 2 ^ 32)
    (hi : i < 2 ^ 63) (hj : j < 2 ^ 63)
    (heq : g.preimage sha256 grantId' j = h.preimage sha256 grantId i) :
    grantId' = grantId ∧ j = i := by
  simp only [Hop.preimage, delegationHopPreimage, List.append_assoc, List.append_cancel_left_eq]
    at heq
  have hwidth : (2 : Nat) ^ 32 = 256 ^ 4 := by norm_num
  rw [hwidth] at hlen hlen'
  obtain ⟨hid, hrest⟩ := framed_append_inj hlen' hlen heq
  obtain ⟨hpos, -⟩ := List.append_inj hrest (by simp [be8Int, be8])
  refine ⟨bytes_injective hid, ?_⟩
  have := eq_of_be8_eq (by omega) (by omega) hpos
  omega

/-- A link by name is a link by key if no two keys of the chain have one name. -/
theorem NarrowingChain.linked_keys {hops : List Hop}
    (h : NarrowingChain sha256 ed grantId rootKid scope action resourceId hops)
    (hkids : KidsDistinct sha256 (hopKeys hops)) :
    hops.IsChain fun h next => next.delegator = h.delegate := by
  refine h.linked.imp_of_mem_imp fun hop next hhop hnext heq => hkids _ ?_ _ ?_ heq
  · exact List.mem_flatMap.mpr ⟨next, hnext, by simp⟩
  · exact List.mem_flatMap.mpr ⟨hop, hhop, by simp⟩

end Walk

/-- A verified chain narrows. It is read whole and not empty, starts at the key named by the
grant, and goes on with the key that each hop passed the grant on to. Every hop is signed for its
own position and the grant, and keeps what the grant allows. The leaf and the earliest end are
returned. -/
theorem delegation_narrows (sha256 : List UInt8 → Vector UInt8 32) (ed : Ed25519)
    (rec : CanonValue) (grantId rootKid scope action resourceId effKid : String)
    (grantExp effExp : Int)
    (h : verifyDelegationChain sha256 ed rec grantId rootKid scope action resourceId grantExp =
      .verified effKid effExp) :
    ∃ assertions hops, delegationAssertions rec = some assertions ∧
      List.Forall₂ (fun hop h => readHop ed hop = some h) assertions hops ∧
      NarrowingChain sha256 ed grantId rootKid scope action resourceId hops ∧
      (KidsDistinct sha256 (hopKeys hops) →
        hops.IsChain fun h next => next.delegator = h.delegate) ∧
      (∀ (i : Nat) (h : Hop), hops[i]? = some h → ∀ (g : Hop) (grantId' : String) (j : Nat),
        (bytes grantId).length < 2 ^ 32 → (bytes grantId').length < 2 ^ 32 → i < 2 ^ 63 →
        j < 2 ^ 63 → g.preimage sha256 grantId' j = h.preimage sha256 grantId i →
        grantId' = grantId ∧ j = i) ∧
      (∃ last, hops.getLast? = some last ∧ effKid = cnfKid sha256 last.delegate) ∧
      (grantExp :: hops.map Hop.exp).min? = some effExp := by
  obtain ⟨assertions, hops, hsome, hall, hchain, hlast, hexp⟩ :=
    verifyDelegationChain_eq_verified_iff.mp h
  refine ⟨assertions, hops, hsome, hall, hchain, hchain.linked_keys, ?_, hlast, hexp⟩
  intro i h _ g grantId' j hlen hlen' hi hj heq
  exact Hop.preimage_inj hlen hlen' hi hj heq

/-- A hop that passes a grant on until a time. -/
def passedOnHop (exp : Int64) : CanonValue :=
  .obj [("delegator_cnf", .str blankKeyText), ("delegate_cnf", .str blankKeyText),
    ("scope", .str "r:read"), ("action", .str "read"), ("resource_id", .str "r"),
    ("exp", .int exp), ("sig", .str blankSigText)]

/-- A grant passed on twice. -/
def passedOnRecord : CanonValue :=
  .obj [("extensions", .obj [("broker", .obj [("grant_evidence", .obj [("delegation_assertions",
    .arr [passedOnHop 60, passedOnHop 50])])])])]

/-- Two hops narrow twice. -/
theorem delegation_narrows_twice : ∃ assertions hops,
    delegationAssertions passedOnRecord = some assertions ∧
      NarrowingChain blankHash anySig "g" (cnfKid blankHash blankKey) "r:read" "read" "r" hops ∧
      (70 :: hops.map Hop.exp).min? = some 50 := by
  obtain ⟨assertions, hops, hsome, -, hchain, -, -, -, hexp⟩ := delegation_narrows blankHash anySig
    passedOnRecord "g" (cnfKid blankHash blankKey) "r:read" "read" "r"
    (cnfKid blankHash blankKey) 70 50 (by decide +kernel)
  exact ⟨assertions, hops, hsome, hchain, hexp⟩

end Averin
