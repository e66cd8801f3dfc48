import Averin.Broker.Evidence
import Averin.Core.B64Lenient
import Averin.Sign.Challenges

/-!
# Attaching approvals and hops

A prepared grant can be given the approvals it needs and the chain by which it is passed on.
Both are checked before anything is attached. The texts of keys and signatures are read by the
lenient decoder and attached as they came.
-/

namespace Averin

/-- A grant before it is signed and recorded. -/
structure Prepared where
  grantId : String
  credentialBinding : String
  evidence : GrantEvidence
  deriving DecidableEq

section Attach

variable (sha256 : List UInt8 → Vector UInt8 32) (ed : Ed25519)

end Attach

end Averin
