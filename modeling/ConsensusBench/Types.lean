import Mathlib.Data.Vector.Basic

namespace ConsensusBench

/-!
# Identifiers, payloads and digests

`NodeId`, `ViewNumber` and `SequenceNumber` wrap `u64` in the source.  They start at `0` or
`1` and are only ever incremented or copied, so they are natural numbers here; a run would
need `2^64` steps of one node to tell the difference.

SHA-256 comes from a third-party crate.  It is the parameter `Sha256`: an arbitrary
function from byte strings to 32 bytes.
-/

/-- Unique identifier of a node: `0, …, n - 1` in a cluster of `n`. -/
abbrev NodeId := ℕ

abbrev ViewNumber := ℕ

abbrev SequenceNumber := ℕ

/-- Opaque client payload. -/
structure Payload where
  data : List UInt8
  deriving DecidableEq, Repr

/-- 32 bytes computed from a payload. -/
structure Digest where
  bytes : Vector UInt8 32
  deriving DecidableEq, Inhabited, Repr

/-- The hash function behind `Payload.digest`. -/
class Sha256 where
  finalize : List UInt8 → Vector UInt8 32

/-- SHA-256 on the byte strings `p`, `q` and `p` with the byte `0xFF` appended: what the
    concrete runs of this development hash. -/
@[reducible] def Sha256.sample : Sha256 where
  finalize bytes :=
    let value : ℕ :=
      if bytes = [0x70] then
        0x148de9c5a7a44d19e56cd9ae1a554bf67847afb0c58f6e12fa29ac7ddfca9940
      else if bytes = [0x71] then
        0x8e35c2cd3bf6641bdb0e2050b76932cbb2e6034a0ddacc1d9bea82a6ba57f7cf
      else if bytes = [0x70, 0xFF] then
        0x6d42e76c2b2f82aff4f6458fd32e78f3d8f1ebd3c4e621890a3444bd7a5b2bb7
      else 0
    Vector.ofFn fun i : Fin 32 => UInt8.ofNat (value / 256 ^ (31 - i.val))

/-- `Payload::digest`. -/
def Payload.digest [Sha256] (p : Payload) : Digest := ⟨Sha256.finalize p.data⟩

end ConsensusBench
