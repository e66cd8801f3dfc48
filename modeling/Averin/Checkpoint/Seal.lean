import Averin.Checkpoint.Chain
import Averin.Record.Seal

/-!
# Sealing and verifying checkpoints

A checkpoint is sealed like a record, with one difference: an anchor that is attached later is
left out of the hash as well, and sealing keeps one that is already there.
-/

namespace Averin

/-- Why a checkpoint does not verify on its own. -/
inductive CheckpointSealError where
  | field (e : CheckpointError)
  | domainMismatch (found : String)
  | hash (e : RecordError)
  | signatureInvalid (e : SigError)
  deriving DecidableEq, Repr

/-- Attach an anchor to a sealed checkpoint. -/
def attachAnchor (cp anchor : CanonValue) : CanonValue := cp.withField "anchor" anchor

section Sealing

variable (N : Normalizer) (sha256 : List UInt8 → Vector UInt8 32) {ed : Ed25519}

/-- The hash of a checkpoint's body. -/
def computeCheckpointHash (cp : CanonValue) : Except RecordError String :=
  hashBody N sha256 cp checkpointStrip

/-- A sealed checkpoint still has its pins. -/
def checkSealedCheckpointPins (sealed : CanonValue) : Except RecordError Unit :=
  checkPins checkpointDomain sealed

/-- Put the hash and the signature. -/
def sealCheckpointUnchecked (cpBody : CanonValue) (sk : SigningKey ed) :
    Except RecordError CanonValue := do
  let ch ← computeCheckpointHash N sha256 cpBody
  let sig := (signText checkpointSigTag ch sk).get (isSome_signText (by decide) _ sk)
  return cpBody.putSeal "checkpoint_hash" ch sig

/-- Seal a checkpoint; the mode says whether one that would not verify is refused. -/
def sealCheckpointWithMode (cpBody : CanonValue) (sk : SigningKey ed) (mode : SealShapeMode) :
    Except RecordError CanonValue := do
  let sealed ← sealCheckpointUnchecked N sha256 cpBody sk
  match checkSealedCheckpointPins sealed, mode with
  | .error e, .enforce => .error e
  | _, _ => return sealed

/-- Seal a checkpoint and check what was sealed. -/
def sealCheckpoint (cpBody : CanonValue) (sk : SigningKey ed) : Except RecordError CanonValue :=
  sealCheckpointWithMode N sha256 cpBody sk .enforce

variable (ed)

/-- Domain and version, hash and signature of a sealed checkpoint. -/
def verifyCheckpointSealed (cp : CanonValue) (vk : Vector UInt8 32) :
    Except CheckpointSealError Unit := do
  let domain ← (strField cp "domain").mapError .field
  require (domain = checkpointDomain) (.domainMismatch domain)
  let cv ← (strField cp "canon_version").mapError .field
  require (cv = canonVersion) (.hash (.canonVersionMismatch canonVersion cv))
  let stored ← (strField cp "checkpoint_hash").mapError .field
  let computed ← (computeCheckpointHash N sha256 cp).mapError .hash
  require (stored = computed) (.hash (.contentHashMismatch stored computed))
  let sig ← (strField cp "sig").mapError .field
  (verifyText ed checkpointSigTag computed sig vk).mapError .signatureInvalid

end Sealing

section Accepted

variable {N : Normalizer} {sha256 : List UInt8 → Vector UInt8 32} {ed : Ed25519}

/-- A checkpoint verifies if it has the pins, and its own hash, signed. -/
theorem verifyCheckpointSealed_eq_ok_iff {cp : CanonValue} {vk : Vector UInt8 32} {u : Unit} :
    verifyCheckpointSealed N sha256 ed cp vk = .ok u ↔
      checkSealedCheckpointPins cp = .ok () ∧
        ∃ ch sig, cp.get "checkpoint_hash" = some (.str ch) ∧ cp.get "sig" = some (.str sig) ∧
          computeCheckpointHash N sha256 cp = .ok ch ∧
          verifyText ed checkpointSigTag ch sig vk = .ok () := by
  simp only [verifyCheckpointSealed, checkSealedCheckpointPins, checkPins_eq_ok_iff,
    bind_eq_ok_iff, mapError_eq_ok_iff, strField_eq_ok_iff, bind_asStr_eq_some_iff,
    require_eq_ok_iff]
  constructor
  · rintro ⟨_, hd, _, rfl, _, hc, _, rfl, ch, hch, _, hcomputed, _, rfl, sig, hsig, hverify⟩
    exact ⟨⟨hd, hc⟩, ch, sig, hch, hsig, hcomputed, hverify⟩
  · rintro ⟨⟨hd, hc⟩, ch, sig, hch, hsig, hcomputed, hverify⟩
    exact ⟨_, hd, (), rfl, _, hc, (), rfl, ch, hch, ch, hcomputed, (), rfl, sig, hsig, hverify⟩

/-- The result of a verification depends on the members it reads and on what is hashed. -/
theorem verifyCheckpointSealed_congr {cp cp' : CanonValue} {vk : Vector UInt8 32}
    (hget : ∀ k ∈ ["domain", "canon_version", "checkpoint_hash", "sig"], cp'.get k = cp.get k)
    (hkept : cp'.withoutKeys checkpointStrip = cp.withoutKeys checkpointStrip) :
    verifyCheckpointSealed N sha256 ed cp' vk = verifyCheckpointSealed N sha256 ed cp vk := by
  simp only [List.forall_mem_cons, List.not_mem_nil, false_implies, implies_true, and_true] at hget
  obtain ⟨hd, hc, hch, hsig⟩ := hget
  simp only [verifyCheckpointSealed, strField, hd, hc, hch, hsig, computeCheckpointHash,
    hashBody_congr hd hc hkept]

/-- A sealed checkpoint is the body with its hash and its signature put in, and has the pins
verification asks for. -/
theorem sealCheckpoint_eq_ok_iff {body sealed : CanonValue} {sk : SigningKey ed} :
    sealCheckpoint N sha256 body sk = .ok sealed ↔
      ∃ ch sig, computeCheckpointHash N sha256 body = .ok ch ∧
        signText checkpointSigTag ch sk = some sig ∧
        sealed = body.putSeal "checkpoint_hash" ch sig ∧
        checkSealedCheckpointPins sealed = .ok () := by
  simp only [sealCheckpoint, sealCheckpointWithMode, sealCheckpointUnchecked, bind_eq_ok_iff]
  constructor
  · rintro ⟨sealed', ⟨ch, hch, hsealed⟩, hmode⟩
    split at hmode
    · cases hmode
    · next hnot =>
      obtain rfl := Except.ok.inj hmode
      refine ⟨ch, _, hch, (Option.some_get _).symm, (Except.ok.inj hsealed).symm, ?_⟩
      cases hshape : checkSealedCheckpointPins sealed' with
      | error e => exact absurd rfl (hnot e hshape)
      | ok u => rfl
  · rintro ⟨ch, sig, hch, hsig, rfl, hshape⟩
    refine ⟨_, ⟨ch, hch, rfl⟩, ?_⟩
    simp only [hsig, Option.get_some, hshape]
    rfl

/-- The pins survive another seal. -/
theorem checkSealedCheckpointPins_putSeal {v : CanonValue} {ch sig : String}
    (h : checkSealedCheckpointPins v = .ok ()) :
    checkSealedCheckpointPins (v.putSeal "checkpoint_hash" ch sig) = .ok () := by
  rw [checkSealedCheckpointPins, checkPins_eq_ok_iff] at h ⊢
  rw [CanonValue.get_putSeal_of_ne (by decide) (by decide),
    CanonValue.get_putSeal_of_ne (by decide) (by decide)]
  exact h

end Accepted

end Averin
