import Deltasync.Common

/-!
# `hash_file.rs`: hashing a file with several workers

Each worker thread opens the file, reads every `workers`-th block of it into its
buffer, and offers the hash with a loan of the buffer on the ordered channel.
A `WorkerEvent` is what the thread does next, with the outcome of its file
operation; `F` is the content of the file at that moment.

The consumer's `HashStream::recv` checks the error published by a failed worker
and then polls, in any order and any number of times, the ordered channel and
the error channel (`RecvEvent`).  Dropping a `HashStream` closes the channel and
joins the workers one after the other.
-/

namespace Deltasync

open BigEndian Blocks

/-! ## `hash_data` -/

inductive HashAlgorithm where
  | crc32
  | md5
  deriving DecidableEq, Repr

/-- The digests of the `crc32c` and `md-5` crates. -/
structure Digests where
  crc32c : List UInt8 → UInt32
  md5 : List UInt8 → Vector UInt8 16

def hexDigit (n : ℕ) : Char := Char.ofNat (if n < 10 then 48 + n else 87 + n)

/-- `hex::encode`. -/
def hexEncode (bytes : List UInt8) : String :=
  String.ofList (bytes.flatMap fun b => [hexDigit (b.toNat / 16), hexDigit (b.toNat % 16)])

/-- `u32::to_le_bytes`. -/
def toLeBytes (x : UInt32) : List UInt8 := (toBytes 4 x.toNat).reverse

def hashData (d : Digests) (data : List UInt8) : HashAlgorithm → String
  | .crc32 => hexEncode (toLeBytes (d.crc32c data))
  | .md5 => hexEncode (d.md5 data).toList

def crc32cBit (crc : UInt32) : UInt32 :=
  if crc &&& 1 = 1 then (crc >>> 1) ^^^ 0x82F63B78 else crc >>> 1

/-- CRC-32C bit by bit, which the `crc32c` crate computes with tables. -/
def crc32c (data : List UInt8) : UInt32 :=
  data.foldl (fun crc b => crc32cBit^[8] (crc ^^^ b.toUInt32)) 0xFFFFFFFF ^^^ 0xFFFFFFFF

/-- Digests to compute runs with; `HashAlgorithm::CRC32` does not call `md5`. -/
def crcDigests : Digests where
  crc32c := crc32c
  md5 := fun _ => Vector.replicate 16 0

/-! ## Workers -/

/-- The arguments of a `hash_file` call, but for the number of workers; `fileSize` is
the size it measures. -/
structure HashFile where
  bits : ℕ
  blockSize : ℕ
  fileSize : ℕ
  hash : List UInt8 → String

/-- A call on a file with content `F`, with a 64-bit `usize`. -/
def HashFile.onFile (d : Digests) (alg : HashAlgorithm) (blockSize : ℕ) (F : List UInt8) :
    HashFile where
  bits := 64
  blockSize := blockSize
  fileSize := F.length
  hash := fun data => hashData d data alg

/-- A file of which a 32-bit `usize` takes the size for zero. -/
def fourGigabytes : List UInt8 := List.replicate (2 ^ 32) 0

@[simp] theorem length_fourGigabytes : fourGigabytes.length = 2 ^ 32 := List.length_replicate

structure FileBlockData (ι : Type) where
  hash : String
  data : Loan ι (List UInt8)
  deriving DecidableEq, Repr

/-- What travels on the channel: `(block_idx, block_data)`. -/
abbrev Item (W : ℕ) := ℕ × FileBlockData (Fin W)

inductive WorkerPc where
  | opening
  | seeking
  /-- At the test of the `while` loop. -/
  | head
  /-- In `read_exact`, or hashing what it read. -/
  | reading
  /-- In `tx.send`. -/
  | sending
  /-- In `reclaimer.blocking_reclaim`. -/
  | reclaiming
  | seekingNext
  /-- About to publish an error. -/
  | failed (msg : String)
  /-- About to call `tx.close`. -/
  | closing
  /-- Out of the loop, about to drop its sender. -/
  | leaving
  | exited
  deriving DecidableEq, Repr

structure Worker where
  pc : WorkerPc
  offset : ℕ
  blockIdx : ℕ
  /-- Position of the worker's file descriptor. -/
  cursor : ℕ
  buffer : List UInt8
  /-- How much of `buffer` `read_exact` has filled. -/
  filled : ℕ
  /-- What the dropped loan has sent back. -/
  returned : Option (List UInt8)
  deriving DecidableEq, Repr

inductive WorkerEvent where
  | openFile (r : Except String Unit)
  | seekStart (r : Except String Unit)
  | loopHead
  /-- A read inside `read_exact` that gets at most `n` bytes. -/
  | read (n : ℕ)
  | readFails (e : String)
  | send
  | sendStep
  | wake
  | reclaim
  | seekNext (r : Except String Unit)
  | publish
  | closeTx
  | exit
  deriving Repr

inductive HashPhase where
  | alive
  /-- In `drop`, joining worker `j`. -/
  | joining (j : ℕ)
  | dropped
  deriving DecidableEq, Repr

/-- A `HashStream` with its threads.  `error` is the value of the watch channel and
`errorSeen` tells whether the receiver has seen its last version; `polling` is
true from the check at the start of `recv` to its return. -/
structure HashStream (W : ℕ) where
  chan : OrderedChannel (Fin W) ℕ (Item W)
  worker : Fin W → Worker
  error : Option String
  errorSeen : Bool
  polling : Bool
  phase : HashPhase

/-- `x as i64`, for a `usize` of at most 64 bits. -/
def asI64 (x : ℕ) : ℤ := if x < 2 ^ 63 then x else x - 2 ^ 64

/-- The state of the threads when `hash_file` returns. -/
def hashFile (p : HashFile) (W : ℕ) : HashStream W where
  chan := OrderedChannel.new
  worker := fun i =>
    { pc := .opening, offset := usize p.bits (i * p.blockSize), blockIdx := i, cursor := 0,
      buffer := [], filled := 0, returned := none }
  error := none
  errorSeen := true
  polling := false
  phase := .alive

namespace HashStream

variable {W : ℕ}

def setWorker (h : HashStream W) (i : Fin W) (w : Worker) : HashStream W :=
  { h with worker := Function.update h.worker i w }

/-- `current_block_size`. -/
def currentBlockSize (p : HashFile) (w : Worker) : ℕ :=
  let rem := p.fileSize - w.offset
  if rem < p.blockSize then rem else p.blockSize

/-- One read of `read_exact`; it fails at the end of the file. -/
def readSome (F : List UInt8) (w : Worker) (n : ℕ) : Worker :=
  match (F.drop w.cursor).take (min n (w.buffer.length - w.filled)) with
  | [] =>
    let msg := s!"Failed to read block {w.blockIdx}: failed to fill whole buffer"
    { w with pc := .failed msg }
  | b :: bs => { w with
      buffer := patch 0 w.buffer w.filled (b :: bs)
      filled := w.filled + (b :: bs).length
      cursor := w.cursor + (b :: bs).length }

/-- The hash of the buffer with a loan of it, as worker `i` sends it. -/
def blockData (p : HashFile) (i : Fin W) (w : Worker) : Item W :=
  (w.blockIdx, { hash := p.hash w.buffer, data := { value := w.buffer, tx := i } })

/-- The end of an iteration: `seek(SeekFrom::Current(..))`, then the two counters. -/
def nextBlock (p : HashFile) (W : ℕ) (w : Worker) : Option Worker :=
  let target := (w.cursor : ℤ) + asI64 (usize p.bits ((W - 1) * p.blockSize))
  if 0 ≤ target then
    some { w with
      pc := .head
      cursor := target.toNat
      offset := usize p.bits (w.offset + usize p.bits (W * p.blockSize))
      blockIdx := w.blockIdx + W }
  else none

def workerStep (p : HashFile) (F : List UInt8) (h : HashStream W) (i : Fin W)
    (e : WorkerEvent) : Option (HashStream W) :=
  let w := h.worker i
  match w.pc, e with
  | .opening, .openFile (.ok _) => some (h.setWorker i { w with pc := .seeking })
  | .opening, .openFile (.error err) =>
    some (h.setWorker i { w with pc := .failed s!"Failed to open file: {err}" })
  | .seeking, .seekStart (.ok _) =>
    some (h.setWorker i { w with
      pc := .head, cursor := w.offset, buffer := List.replicate p.blockSize 0 })
  | .seeking, .seekStart (.error err) =>
    some (h.setWorker i { w with pc := .failed s!"Failed to seek: {err}" })
  | .head, .loopHead =>
    -- the test of `while`, then the `break` on an error of another worker
    if w.offset < p.fileSize ∧ h.error = none then
      some (h.setWorker i { w with
        pc := .reading, buffer := resize 0 w.buffer (currentBlockSize p w), filled := 0 })
    else some (h.setWorker i { w with pc := .leaving })
  | .reading, .read n =>
    if 0 < n ∧ w.filled < w.buffer.length then some (h.setWorker i (readSome F w n)) else none
  | .reading, .readFails err =>
    some (h.setWorker i { w with pc := .failed s!"Failed to read block {w.blockIdx}: {err}" })
  | .reading, .send =>
    if w.filled = w.buffer.length then
      -- `loan(buffer)` moves the buffer out
      (h.chan.callSend i w.blockIdx (blockData p i w)).map fun c =>
        { h with chan := c }.setWorker i { w with pc := .sending, buffer := [] }
    else none
  | .sending, .sendStep =>
    (h.chan.sendStep i).map fun
      | (c, none) => { h with chan := c }
      | (c, some .sent) => { h with chan := c }.setWorker i { w with pc := .reclaiming }
      -- the loan dies with the refused value, and nobody reclaims it
      | (c, some .closed) => { h with chan := c }.setWorker i { w with pc := .leaving }
  | .sending, .wake => (h.chan.wakeOne i).map fun c => { h with chan := c }
  | .reclaiming, .reclaim =>
    w.returned.map fun b =>
      h.setWorker i { w with pc := .seekingNext, buffer := b, returned := none }
  | .seekingNext, .seekNext (.ok _) => (nextBlock p W w).map (h.setWorker i)
  | .seekingNext, .seekNext (.error err) =>
    some (h.setWorker i { w with pc := .failed s!"Failed to seek to next block: {err}" })
  | .failed msg, .publish =>
    some ({ h with error := some msg, errorSeen := false }.setWorker i { w with pc := .closing })
  | .closing, .closeTx =>
    (h.chan.closeTx i).map fun c => { h with chan := c }.setWorker i { w with pc := .leaving }
  | .leaving, .exit =>
    (h.chan.dropTx i).map fun c => { h with chan := c }.setWorker i { w with pc := .exited }
  | _, _ => none

/-! ## The consumer -/

inductive RecvEvent where
  /-- `recv` is called, up to its `select!`. -/
  | enter
  /-- `self.rx.recv()` is polled for the first time. -/
  | poll
  /-- `self.rx.recv()` finds a value in the slot. -/
  | take
  /-- `self.rx.recv()` returns it. -/
  | finish
  /-- `self.rx.recv()` finds the channel closed and empty. -/
  | none
  /-- `self.error_rx.changed()` is ready. -/
  | error
  /-- The future is dropped while it is pending. -/
  | cancel
  deriving DecidableEq, Repr

/-- `Result<Option<(usize, FileBlockData)>, anyhow::Error>`. -/
abbrev RecvResult (W : ℕ) := Except String (Option (Item W))

/-- One step of a `HashStream::recv` call, with its result when it returns. -/
def recvStep (h : HashStream W) : RecvEvent → Option (HashStream W × Option (RecvResult W))
  | .enter =>
    if h.phase = .alive ∧ h.polling = false then
      match h.error with
      | some err => some ({ h with errorSeen := true }, some (.error s!"Hash worker failed: {err}"))
      | none => some ({ h with errorSeen := true, polling := true }, none)
    else none
  | .poll =>
    if h.polling then h.chan.recvEnter.map fun c => ({ h with chan := c }, none) else none
  | .take =>
    if h.polling then h.chan.recvTake.map fun c => ({ h with chan := c }, none) else none
  | .finish =>
    if h.polling then
      h.chan.recvFinish.map fun (c, v) =>
        ({ h with chan := c, polling := false }, some (.ok (some v)))
    else none
  | .none =>
    if h.polling then
      h.chan.recvNone.map fun c => ({ h with chan := c, polling := false }, some (.ok none))
    else none
  | .error =>
    if h.polling ∧ h.errorSeen = false then
      match h.error with
      -- the `select!` drops the future of `self.rx.recv()`
      | some err => h.chan.recvCancel.map fun c =>
        ({ h with chan := c, polling := false, errorSeen := true },
          some (.error s!"Hash worker failed: {err}"))
      | none => none
    else none
  | .cancel =>
    if h.polling then
      h.chan.recvCancel.map fun c => ({ h with chan := c, polling := false }, none)
    else none

/-- `recv` holds a value: it returns before anything else is polled. -/
def busy (h : HashStream W) : Bool :=
  match h.chan.recv with
  | .took _ => true
  | _ => false

/-- The future of `recv`, if there is one, is dropped. -/
def cancelRecv (h : HashStream W) : HashStream W :=
  match h.recvStep .cancel with
  | some (h', _) => h'
  | none => h

/-- `Loan::drop`. -/
def dropLoan (h : HashStream W) (l : Loan (Fin W) (List UInt8)) : HashStream W :=
  h.setWorker l.tx { h.worker l.tx with returned := some l.value }

/-- `HashStream::drop` up to its first join. -/
def close (h : HashStream W) : Option (HashStream W) :=
  if h.phase = .alive ∧ h.polling = false then
    h.chan.closeRx.map fun c => { h with chan := c, phase := .joining 0 }
  else none

/-- One `t.join()`, or the end of `drop`. -/
def join (h : HashStream W) : Option (HashStream W) :=
  match h.phase with
  | .joining j =>
    if hj : j < W then
      if (h.worker ⟨j, hj⟩).pc = .exited then some { h with phase := .joining (j + 1) } else none
    else some { h with phase := .dropped }
  | _ => none

end HashStream

/-! ## A stream with any consumer -/

/-- The worker of a stream that has one. -/
def solo : Fin 1 := 0

/-- A stream with a consumer that holds the loans `held`; `results` are what its
`recv` calls have returned so far. -/
structure HashSystem (W : ℕ) where
  stream : HashStream W
  held : List (Loan (Fin W) (List UInt8))
  results : List (HashStream.RecvResult W)

inductive HashEvent (W : ℕ) where
  | worker (i : Fin W) (e : WorkerEvent)
  | recv (e : HashStream.RecvEvent)
  | dropLoan (l : Loan (Fin W) (List UInt8))
  | close
  | join

namespace HashSystem

variable {W : ℕ}

def new (p : HashFile) (W : ℕ) : HashSystem W where
  stream := hashFile p W
  held := []
  results := []

/-- The loan of a block that `recv` returns passes to the consumer. -/
def returns (s : HashSystem W) (h : HashStream W) : Option (HashStream.RecvResult W) → HashSystem W
  | none => { s with stream := h }
  | some (.ok (some v)) =>
    { stream := h, held := v.2.data :: s.held, results := s.results ++ [.ok (some v)] }
  | some r => { s with stream := h, results := s.results ++ [r] }

def step (p : HashFile) (F : List UInt8) (s : HashSystem W) : HashEvent W → Option (HashSystem W)
  | .worker i e => (s.stream.workerStep p F i e).map fun h => { s with stream := h }
  | .recv e => (s.stream.recvStep e).map fun (h, r) => s.returns h r
  | .dropLoan l =>
    if l ∈ s.held then some { s with stream := s.stream.dropLoan l, held := s.held.erase l }
    else none
  | .close => s.stream.close.map fun h => { s with stream := h }
  | .join => s.stream.join.map fun h => { s with stream := h }

end HashSystem

end Deltasync
