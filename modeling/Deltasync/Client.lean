import Deltasync.HashFile

/-!
# `client.rs`: the event loop of `new_process`

The state is the one just after the handshake.  An event is a branch of the
`select!` that makes progress, with the outcome of its I/O; a step of a hash
worker; or a step of the way out of the function, whose locals are dropped in
reverse order: the socket, the blocks still queued, then the `HashStream`.

A branch that completes ends the iteration, so that a pending `hasher.recv()` is
cancelled.  Between taking a value from the channel and returning it `recv` does
not await, hence no other branch runs there.  The branch `else` needs all others
to be disabled; the timer never is, so that it is not a step.
-/

namespace Deltasync

open Blocks

/-- The options of `new_process` and what it finds out about the source: `srcSize` is the
size it sends, `fileSize` the one that `hash_file` measures. -/
structure NewProcess where
  bits : ℕ
  blockSize : ℕ
  srcSize : ℕ
  fileSize : ℕ
  hash : List UInt8 → String

namespace NewProcess

/-- A client on a source with content `D`. -/
def onFile (bits : ℕ) (d : Digests) (alg : HashAlgorithm) (blockSize : ℕ) (D : List UInt8) :
    NewProcess where
  bits := bits
  blockSize := blockSize
  srcSize := D.length
  fileSize := usize bits D.length
  hash := fun data => hashData d data alg

def hashFile (o : NewProcess) : HashFile where
  bits := o.bits
  blockSize := o.blockSize
  fileSize := o.fileSize
  hash := o.hash

def endBlockIdx (o : NewProcess) : ℕ := divCeil (usize o.bits o.srcSize) o.blockSize

end NewProcess

inductive ClientPhase where
  | running
  /-- Out of the loop, with the result to return. -/
  | leaving (r : Except String Unit)
  /-- The socket and the queued blocks are dropped; the `HashStream` is next. -/
  | dropping (r : Except String Unit)
  | returned (r : Except String Unit)
  deriving DecidableEq, Repr

/-- The result, once the loop is left. -/
def ClientPhase.result : ClientPhase → Option (Except String Unit)
  | .running => none
  | .leaving r | .dropping r | .returned r => some r

/-- The locals of `new_process`.  The last three fields are history: the bytes read, the
hashes decoded from them, and, newest first, the blocks whose frame was begun with
the bytes of it that the socket accepted. -/
structure Client (W : ℕ) where
  hasher : HashStream W
  remoteHashes : List String
  remoteHashesDone : Bool
  hashComparisonOver : Bool
  readString : ResumableReadString
  blockIdx : ℕ
  blocksIdxToSend : List (ℕ × Loan (Fin W) (List UInt8))
  writeBlock : Option (ResumableWriteFileBlock (Fin W))
  phase : ClientPhase
  consumed : List UInt8
  decoded : List String
  accepted : List (ℕ × List UInt8)

inductive ClientEvent (W : ℕ) where
  /-- The progress timer. -/
  | tick
  /-- A `write` of `rwb.write_to` is ready. -/
  | write (r : Except String ℕ)
  /-- A `read` of `resumable_read_string.read_on` is ready; no byte means end of file. -/
  | read (r : Except String (List UInt8))
  | recv (e : HashStream.RecvEvent)
  | worker (i : Fin W) (e : WorkerEvent)
  | dropLocals
  | closeHasher
  | join
  | finish

namespace Client

variable {W : ℕ}

def new (o : NewProcess) (W : ℕ) : Client W where
  hasher := Deltasync.hashFile o.hashFile W
  remoteHashes := []
  remoteHashesDone := false
  hashComparisonOver := false
  readString := ResumableReadString.new 256
  blockIdx := 0
  blocksIdxToSend := []
  writeBlock := none
  phase := .running
  consumed := []
  decoded := []
  accepted := []

/-- The loans of `resumable_write_block` and of `blocks_idx_to_send`. -/
def loans (c : Client W) : List (Loan (Fin W) (List UInt8)) :=
  (c.writeBlock.map (·.buf)).toList ++ c.blocksIdxToSend.map Prod.snd

/-- What the client hands to `write`. -/
def offered (c : Client W) : List UInt8 :=
  match c.writeBlock with
  | some w => w.slice
  | none => []

def nextIteration (c : Client W) : Client W := { c with hasher := c.hasher.cancelRecv }

def prepareNextWriteBlock (o : NewProcess) (c : Client W) : Client W :=
  if c.writeBlock.isSome then c
  else match c.blocksIdxToSend with
    | [] => c
    | (idx, data) :: rest => { c with
        blocksIdxToSend := rest
        writeBlock := some (.new (usize o.bits (idx * o.blockSize)) data)
        accepted := (idx, []) :: c.accepted }

/-- The bytes of a write go to the frame begun last. -/
def logWrite (w : ResumableWriteFileBlock (Fin W)) (r : Except String ℕ) :
    List (ℕ × List UInt8) → List (ℕ × List UInt8)
  | [] => []
  | (k, bytes) :: rest => (k, bytes ++ w.slice.take (bytesWritten r)) :: rest

/-- The branch "next block has been fully written"; an error of `write_to` lands here too. -/
def blockWritten (o : NewProcess) (c : Client W) (w : ResumableWriteFileBlock (Fin W)) :
    Client W :=
  let c := { c with writeBlock := none, hasher := c.hasher.dropLoan w.buf }
  if c.hashComparisonOver ∧ c.blocksIdxToSend = [] then { c with phase := .leaving (.ok ()) }
  else c.prepareNextWriteBlock o

def write (o : NewProcess) (c : Client W) (r : Except String ℕ) : Option (Client W) :=
  match c.writeBlock with
  | none => none
  | some w =>
    if bytesWritten r ≤ w.slice.length then
      let c := { c with accepted := logWrite w r c.accepted }
      match w.poll r with
      | (w', .io _) => some { c with writeBlock := some w' }
      -- `Some(_)`: the result of `write_to` is not looked at
      | (w', .done _) => some (c.blockWritten o w').nextIteration
    else none

def read (o : NewProcess) (c : Client W) (r : Except String (List UInt8)) : Option (Client W) :=
  if (bytesRead r).length ≤ c.readString.room o.bits then
    let c := { c with consumed := c.consumed ++ bytesRead r }
    match c.readString.poll o.bits r with
    | (rs, .io _) => some { c with readString := rs }
    | (rs, .done (.ok hash)) =>
      some { c with
        readString := rs
        remoteHashes := c.remoteHashes ++ [hash]
        decoded := c.decoded ++ [hash] }.nextIteration
    -- a string too long, invalid UTF-8, the end of file and an I/O error alike
    | (rs, .done (.error _)) =>
      some { c with readString := rs, remoteHashesDone := true }.nextIteration
  else none

/-- The end of the compare branch. -/
def advance (o : NewProcess) (c : Client W) : Client W :=
  let c := { c with blockIdx := usize o.bits (c.blockIdx + 1) }
  if c.blockIdx = o.endBlockIdx then
    let c := { c with hashComparisonOver := true }
    if c.writeBlock.isNone then { c with phase := .leaving (.ok ()) } else c
  else c

/-- The compare branch, with the block that `recv` returned and the remote hash popped. -/
def compare (o : NewProcess) (c : Client W) (blockData : FileBlockData (Fin W))
    (remoteHash : String) : Client W :=
  if blockData.hash ≠ remoteHash then
    ({ c with blocksIdxToSend := c.blocksIdxToSend ++ [(c.blockIdx, blockData.data)] }
      |>.prepareNextWriteBlock o).advance o
  else { c with hasher := c.hasher.dropLoan blockData.data }.advance o

def recv (o : NewProcess) (c : Client W) (e : HashStream.RecvEvent) : Option (Client W) :=
  match c.remoteHashes, c.hasher.recvStep e with
  | remoteHash :: rest, some (h, r) =>
    match r with
    | none => some { c with hasher := h }
    | some (.error err) => some { c with hasher := h, phase := .leaving (.error err) }
    -- `let Some(..) = res? else { break }`
    | some (.ok none) => some { c with hasher := h, phase := .leaving (.ok ()) }
    | some (.ok (some v)) =>
      some ({ c with hasher := h, remoteHashes := rest }.compare o v.2 remoteHash)
  | _, _ => none

/-- One step; `F` is the content of the source file. -/
def step (o : NewProcess) (F : List UInt8) (c : Client W) : ClientEvent W → Option (Client W)
  | .tick => if c.phase = .running ∧ c.hasher.busy = false then some c.nextIteration else none
  | .write r => if c.phase = .running ∧ c.hasher.busy = false then c.write o r else none
  | .read r =>
    if c.phase = .running ∧ c.hasher.busy = false ∧ c.remoteHashesDone = false then c.read o r
    else none
  | .recv e =>
    if c.phase = .running ∧ c.hashComparisonOver = false ∧ e ≠ .cancel then c.recv o e else none
  | .worker i e => (c.hasher.workerStep o.hashFile F i e).map fun h => { c with hasher := h }
  | .dropLocals =>
    match c.phase with
    | .leaving r => some { c with
        hasher := c.loans.foldl HashStream.dropLoan c.hasher
        writeBlock := none
        blocksIdxToSend := []
        phase := .dropping r }
    | _ => none
  | .closeHasher =>
    match c.phase with
    | .dropping _ => c.hasher.close.map fun h => { c with hasher := h }
    | _ => none
  | .join =>
    match c.phase with
    | .dropping _ => c.hasher.join.map fun h => { c with hasher := h }
    | _ => none
  | .finish =>
    match c.phase with
    | .dropping r =>
      if c.hasher.phase = .dropped then some { c with phase := .returned r } else none
    | _ => none

end Client

end Deltasync
