import Deltasync.SessionReturns
import Deltasync.SessionHonest

/-!
# The bytes of a session

What the two functions say to each other depends on the two files alone, not on the
schedule: the server announces the hash of every block of the destination, in order,
and the client sends the frames of the blocks of the source whose hash is another one,
in order and each once.  While a session runs the bytes written are the first of these,
and at its end they are all of them and have all been read.
-/

namespace Deltasync

open Blocks Transition

namespace Setup

/-- The blocks of the source whose hash is not the one of the destination's. -/
def transferred (x : Setup) : List ℕ :=
  (List.range x.blocks).filter fun k =>
    hashData x.digests (block x.blockSize x.dest k) x.hashAlgorithm ≠
      hashData x.digests (block x.blockSize x.source k) x.hashAlgorithm

/-- The bytes that the client has to send. -/
def frames (x : Setup) : List UInt8 :=
  x.transferred.flatMap fun k => blockFrame (k * x.blockSize, block x.blockSize x.source k)

/-- The bytes that the server has to send. -/
def announced (x : Setup) : List UInt8 :=
  (List.range x.blocks).flatMap fun k =>
    writeString (hashData x.digests (block x.blockSize x.dest k) x.hashAlgorithm)

end Setup

namespace Session

open HashStream

variable {x : Setup} {s : Session x.clientWorkers x.serverWorkers}

/-! ## The hashes -/

theorem Sound.hashes_prefix (hS : s.Sound x) :
    s.server.hashes <+: HonestSession.blockHashes x.processNewClient x.dest := by
  have hann := hS.announces
  have hmap := (hann.content.delivered_prefix x.blockSize_pos hann.owns.control).map
    fun y : ℕ × String × List UInt8 => y.2.1
  rw [List.map_map, sequential, List.map_map] at hmap
  exact hmap

end Session

end Deltasync
