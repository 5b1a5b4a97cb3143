import Deltasync.HashFile

/-!
# `server.rs`: the event loop of `process_new_client`

The state is the one after the third `Ack`, with the destination opened for
writing.  As for the client, an event is a branch of the `select!` that makes
progress with the outcome of its I/O, a step of a hash worker, or a step of the
way out.  While the loop waits in `file.seek` no branch is polled.

The workers read the destination that the loop writes to.  A write acts on the
content of the file when it is accepted; the file of tokio writes behind, and
reports what fails then as the result of a later write or of `file.flush`.  An
`Err` of a write thus stands for the failure of the piece accepted before it: the
model has that piece in the file, the real file may lack it.

The branch `else` would need reading from the client to be disabled, which it is
only while a block is being written to disk: it is never taken.
-/

namespace Deltasync

open Blocks

/-- What the handshake has fixed: `filesize` is the size received, `fileSize` the one that
`hash_file` measures. -/
structure ProcessNewClient where
  bits : ℕ
  blockSize : ℕ
  filesize : ℕ
  fileSize : ℕ
  hash : List UInt8 → String

namespace ProcessNewClient

/-- A server on a destination of the announced size. -/
def onFile (bits : ℕ) (d : Digests) (alg : HashAlgorithm) (blockSize : ℕ) (D : List UInt8) :
    ProcessNewClient where
  bits := bits
  blockSize := blockSize
  filesize := D.length
  fileSize := usize bits D.length
  hash := fun data => hashData d data alg

def hashFile (o : ProcessNewClient) : HashFile where
  bits := o.bits
  blockSize := o.blockSize
  fileSize := o.fileSize
  hash := o.hash

end ProcessNewClient

inductive ServerPhase where
  | running
  /-- In `file.seek`, to the offset of the block just received. -/
  | seeking (offset : ℕ)
  /-- Out of the loop, in `file.flush`. -/
  | flushing
  /-- In `file.sync_data`. -/
  | syncing
  /-- The result is known; the `HashStream` is dropped. -/
  | leaving (r : Except String StatusCode)
  | returned (r : Except String StatusCode)
  deriving DecidableEq, Repr

/-- The result, once it is known. -/
def ServerPhase.result : ServerPhase → Option (Except String StatusCode)
  | .leaving r | .returned r => some r
  | _ => none

/-- The destination, and the position of the descriptor that the loop writes with. -/
structure DestFile where
  content : List UInt8
  cursor : ℕ
  deriving DecidableEq, Repr

/-- A write at the position of the descriptor; one of no byte does nothing. -/
def DestFile.write (f : DestFile) : List UInt8 → DestFile
  | [] => f
  | b :: bs =>
    { content := patch 0 f.content f.cursor (b :: bs), cursor := f.cursor + (b :: bs).length }

/-- A block received in full, with the bytes of it written so far and where. -/
structure ReceivedBlock where
  offset : ℕ
  data : List UInt8
  written : List (UInt8 × ℕ)
  deriving DecidableEq, Repr

/-- Every byte of the block has been written at its place. -/
def ReceivedBlock.Complete (b : ReceivedBlock) : Prop := b.written = b.data.zipIdx b.offset

/-- The locals of `process_new_client`.  The last three fields are history: the bytes read,
the blocks received (newest first), and the bytes of hashes accepted by the socket. -/
structure Server (W : ℕ) where
  hasher : HashStream W
  readFileBlock : ResumableReadFileBlock
  writeToDisk : Option ResumableAsyncWriteAll
  writeHash : Option ResumableWriteString
  file : DestFile
  receiveBuffer : List UInt8
  writeBuffer : List UInt8
  hashingDone : Bool
  phase : ServerPhase
  consumed : List UInt8
  received : List ReceivedBlock
  sent : List UInt8

inductive ServerEvent (W : ℕ) where
  /-- A `write` of `rwa.write_all` to the file is ready. -/
  | disk (r : Except String ℕ)
  /-- `rwa.write_all` finds nothing to write. -/
  | diskDone
  /-- A `read` of `resumable_read_file_block.read_on` is ready; no byte means end of file. -/
  | read (r : Except String (List UInt8))
  | seek (r : Except String Unit)
  /-- A `write` of a hash to the client is ready. -/
  | hashOut (r : Except String ℕ)
  | recv (e : HashStream.RecvEvent)
  | worker (i : Fin W) (e : WorkerEvent)
  | flush (r : Except String Unit)
  | sync (r : Except String Unit)
  | closeHasher
  | join
  | finish

namespace Server

variable {W : ℕ}

def new (o : ProcessNewClient) (W : ℕ) (dest : List UInt8) : Server W where
  hasher := Deltasync.hashFile o.hashFile W
  readFileBlock := .new o.blockSize (usize o.bits o.filesize)
  writeToDisk := none
  writeHash := none
  file := { content := dest, cursor := 0 }
  receiveBuffer := []
  writeBuffer := []
  hashingDone := false
  phase := .running
  consumed := []
  received := []
  sent := []

/-- What the server hands to `write`. -/
def offered (s : Server W) : List UInt8 :=
  match s.writeHash with
  | some w => w.slice
  | none => []

def nextIteration (s : Server W) : Server W := { s with hasher := s.hasher.cancelRecv }

/-- The bytes of a disk write go to the block received last. -/
def logDisk (cursor : ℕ) (chunk : List UInt8) : List ReceivedBlock → List ReceivedBlock
  | [] => []
  | b :: rest => { b with written := b.written ++ chunk.zipIdx cursor } :: rest

/-- The branch "write current block to local filesystem"; an error of `write_all` ends the
block like a success. -/
def disk (s : Server W) (r : Except String ℕ) : Option (Server W) :=
  match s.writeToDisk with
  | none => none
  | some w =>
    match w.enter s.writeBuffer with
    | (_, .io slice) =>
      if bytesWritten r ≤ slice.length then
        let chunk := slice.take (bytesWritten r)
        let s := { s with
          file := s.file.write chunk
          received := logDisk s.file.cursor chunk s.received }
        match w.onWrite s.writeBuffer r with
        | (w', .io _) => some { s with writeToDisk := some w' }
        | (_, .done _) => some { s with writeToDisk := none }.nextIteration
      else none
    | (_, .done _) => none

def diskDone (s : Server W) : Option (Server W) :=
  match s.writeToDisk with
  | none => none
  | some w =>
    match w.enter s.writeBuffer with
    | (_, .io _) => none
    | (_, .done _) => some { s with writeToDisk := none }.nextIteration

/-- The branch "read file blocks from client". -/
def read (o : ProcessNewClient) (s : Server W) (r : Except String (List UInt8)) :
    Option (Server W) :=
  if (bytesRead r).length ≤ s.readFileBlock.room o.bits s.receiveBuffer then
    let s := { s with consumed := s.consumed ++ bytesRead r }
    match s.readFileBlock.poll o.bits s.receiveBuffer r with
    | (rb, buf, .io _) => some { s with readFileBlock := rb, receiveBuffer := buf }
    | (rb, buf, .done (.ok offset)) =>
      some { s with
        readFileBlock := rb
        receiveBuffer := s.writeBuffer
        writeBuffer := buf
        received := { offset, data := buf, written := [] } :: s.received
        phase := .seeking offset }.nextIteration
    -- "consider this as all diverging blocks being received"
    | (rb, buf, .done (.error _)) =>
      some { s with readFileBlock := rb, receiveBuffer := buf, phase := .flushing }.nextIteration
  else none

def seek (s : Server W) (r : Except String Unit) : Option (Server W) :=
  match s.phase, r with
  | .seeking offset, .ok _ =>
    some { s with
      file := { s.file with cursor := offset }, writeToDisk := some .new, phase := .running }
  | .seeking _, .error err => some { s with phase := .leaving (.error err) }
  | _, _ => none

/-- The branch that writes a hash to the client; its result is not looked at. -/
def hashOut (s : Server W) (r : Except String ℕ) : Option (Server W) :=
  match s.writeHash with
  | none => none
  | some w =>
    if bytesWritten r ≤ w.slice.length then
      let s := { s with sent := s.sent ++ w.slice.take (bytesWritten r) }
      match w.poll r with
      | (w', .io _) => some { s with writeHash := some w' }
      | (_, .done _) => some { s with writeHash := none }.nextIteration
    else none

/-- The branch "next ordered block hash, send it to client"; the data is dropped at once. -/
def recv (s : Server W) (e : HashStream.RecvEvent) : Option (Server W) :=
  match s.hasher.recvStep e with
  | none => none
  | some (h, none) => some { s with hasher := h }
  | some (h, some (.error err)) => some { s with hasher := h, phase := .leaving (.error err) }
  | some (h, some (.ok none)) => some { s with hasher := h, hashingDone := true }
  | some (h, some (.ok (some v))) =>
    some { s with hasher := h.dropLoan v.2.data, writeHash := some (.new v.2.hash) }

def step (o : ProcessNewClient) (s : Server W) : ServerEvent W → Option (Server W)
  | .disk r => if s.phase = .running ∧ s.hasher.busy = false then s.disk r else none
  | .diskDone => if s.phase = .running ∧ s.hasher.busy = false then s.diskDone else none
  | .read r =>
    if s.phase = .running ∧ s.hasher.busy = false ∧ s.writeToDisk = none then s.read o r else none
  | .seek r => s.seek r
  | .hashOut r => if s.phase = .running ∧ s.hasher.busy = false then s.hashOut r else none
  | .recv e =>
    if s.phase = .running ∧ s.writeHash = none ∧ s.hashingDone = false ∧ e ≠ .cancel then s.recv e
    else none
  | .worker i e =>
    -- the workers read the file as the loop has left it
    (s.hasher.workerStep o.hashFile s.file.content i e).map fun h => { s with hasher := h }
  | .flush r =>
    match s.phase, r with
    | .flushing, .ok _ => some { s with phase := .syncing }
    | .flushing, .error err => some { s with phase := .leaving (.error err) }
    | _, _ => none
  | .sync r =>
    match s.phase, r with
    | .syncing, .ok _ => some { s with phase := .leaving (.ok .ack) }
    | .syncing, .error err => some { s with phase := .leaving (.error err) }
    | _, _ => none
  | .closeHasher =>
    match s.phase with
    | .leaving _ => s.hasher.close.map fun h => { s with hasher := h }
    | _ => none
  | .join =>
    match s.phase with
    | .leaving _ => s.hasher.join.map fun h => { s with hasher := h }
    | _ => none
  | .finish =>
    match s.phase with
    | .leaving r =>
      if s.hasher.phase = .dropped then some { s with phase := .returned r } else none
    | _ => none

end Server

end Deltasync
