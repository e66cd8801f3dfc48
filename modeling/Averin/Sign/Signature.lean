import Averin.Core.B64
import Averin.Core.Outcome
import Averin.Record.Preimage

/-!
# Signatures under a tag

A signature covers a digest text behind the length-prefixed tag of its purpose. The
signature scheme itself comes from outside the program: which bytes are a key, strict
verification, and for a signing key the promise that what it signs verifies.
-/

namespace Averin

/-- The signature scheme: which bytes are a key, and strict verification. -/
structure Ed25519 where
  validKey : Vector UInt8 32 → Bool
  verifyStrict : Vector UInt8 32 → List UInt8 → Vector UInt8 64 → Bool

/-- A signing key with its public half. -/
structure SigningKey (ed : Ed25519) where
  sign : List UInt8 → Vector UInt8 64
  verifyingKey : Vector UInt8 32
  /-- What the key signs verifies under its public half. -/
  correct : ∀ msg, ed.verifyStrict verifyingKey msg (sign msg) = true

/-- The tag of a record's signature. -/
def recordSigTag : String := "averin.record.sig.v1"

/-- The tag of a checkpoint's signature. -/
def checkpointSigTag : String := "averin.checkpoint.sig.v1"

/-- What every signature text starts with. -/
def sigPrefix : String := "ed25519:"

/-- Why a signature does not verify. -/
inductive SigError where
  | badPrefix | badEncoding | badKey | invalid
  deriving DecidableEq, Repr

/-- `str::strip_prefix`. -/
def stripPrefix (pre s : String) : Option String :=
  (pre.toList.isPrefixOf? s.toList).map .ofList

/-- The bytes a signature under `tag` covers. -/
def signPreimage (tag contentHash : String) : Option (List UInt8) :=
  (lpStrInto tag).map (· ++ bytes contentHash)

/-- Sign a digest text; a tag too long to frame is signed with nothing. -/
def signText {ed : Ed25519} (tag contentHash : String) (sk : SigningKey ed) : Option String :=
  (signPreimage tag contentHash).map fun msg => sigPrefix ++ B64.encode (sk.sign msg).toList

/-- Verify a signature text over a digest text. -/
def verifyText (ed : Ed25519) (tag contentHash sig : String) (vk : Vector UInt8 32) :
    Except SigError Unit := do
  let raw ← orFail (stripPrefix sigPrefix sig) .badPrefix
  let signature ← orFail (B64.decodeFixed 64 raw) .badEncoding
  let msg ← orFail (signPreimage tag contentHash) .invalid
  require (ed.verifyStrict vk msg signature = true) .invalid

/-- A list is a prefix of what continues it. -/
theorem isPrefixOf?_append_self {α : Type*} [BEq α] [ReflBEq α] (l t : List α) :
    l.isPrefixOf? (l ++ t) = some t := by
  induction l with
  | nil => rfl
  | cons x l ih => simp [List.isPrefixOf?, ih]

/-- A prefix is followed by what is left of it. -/
theorem eq_append_of_isPrefixOf? {α : Type*} [BEq α] [LawfulBEq α] {l s t : List α}
    (h : l.isPrefixOf? s = some t) : s = l ++ t := by
  induction l generalizing s with
  | nil => simpa [List.isPrefixOf?] using h
  | cons x l ih =>
    cases s with
    | nil => simp [List.isPrefixOf?] at h
    | cons y s =>
      simp only [List.isPrefixOf?] at h
      split_ifs at h with hxy
      rw [beq_iff_eq.mp hxy, ih h, List.cons_append]

@[simp] theorem stripPrefix_append (pre s : String) : stripPrefix pre (pre ++ s) = some s := by
  rw [stripPrefix, String.toList_append, isPrefixOf?_append_self, Option.map_some,
    String.ofList_toList]

/-- What is left of a text continues the prefix. -/
theorem stripPrefix_eq_some {pre s t : String} (h : stripPrefix pre s = some t) :
    s = pre ++ t := by
  obtain ⟨cs, hcs, rfl⟩ := Option.map_eq_some_iff.mp h
  have heq := eq_append_of_isPrefixOf? hcs
  rw [← String.toList_inj, heq]
  simp

end Averin
