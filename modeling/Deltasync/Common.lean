import Deltasync.Lib.BigEndian
import Deltasync.Lib.Blocks
import Deltasync.Sync

/-!
# `common.rs`: the wire format and the resumable codecs

`usize` has `bits` bits; sizes on the wire have 64.

A resumable struct is read as its `async fn` is written: `enter` is the code
from the call to the first await, `onRead` and `onWrite` the code from one
await to the next.  The result says what the function is then waiting for.  A
call that is cancelled at its await leaves the struct as it is there, and the
next call starts with `enter` again; a poll that finds the socket ready is
`poll`, the call up to the await and the code after it.
-/

namespace Deltasync

open BigEndian Blocks

/-- A value stored in a `usize`. -/
def usize (bits x : ℕ) : ℕ := x % 2 ^ bits

/-- `a - b` on `usize`, as the release profile computes it. -/
def usizeSub (bits a b : ℕ) : ℕ := (a + 2 ^ bits - b) % 2 ^ bits

/-- `String::as_bytes`. -/
def asBytes (s : String) : List UInt8 := s.toByteArray.data.toList

/-- `String::from_utf8`. -/
def fromUtf8 (bytes : List UInt8) : Option String := String.fromUTF8? ⟨bytes.toArray⟩

/-- The bounds of the bytes that follow the first byte of a character, if it begins one. -/
def continuation (first : UInt8) : Option (List (UInt8 × UInt8)) :=
  let tail : UInt8 × UInt8 := (0x80, 0xBF)
  if first < 0x80 then some []
  else if first < 0xC2 then none
  else if first < 0xE0 then some [tail]
  else if first = 0xE0 then some [(0xA0, 0xBF), tail]
  else if first = 0xED then some [(0x80, 0x9F), tail]
  else if first < 0xF0 then some [tail, tail]
  else if first = 0xF0 then some [(0x90, 0xBF), tail, tail]
  else if first < 0xF4 then some [tail, tail, tail]
  else if first = 0xF4 then some [(0x80, 0x8F), tail, tail]
  else none

/-- The scan of `from_utf8`: what comes before `validUpTo` is valid, `seen` bytes of a character
have been read since, and the next ones have to lie in the bounds. -/
def scanUtf8 (validUpTo seen : ℕ) : List (UInt8 × UInt8) → List UInt8 → Except String Unit
  | [], [] => .ok ()
  | _ :: _, [] => .error s!"incomplete utf-8 byte sequence from index {validUpTo}"
  | [], b :: bytes =>
    let start := validUpTo + seen
    match continuation b with
    | some bounds => scanUtf8 start 1 bounds bytes
    | none => .error s!"invalid utf-8 sequence of {1} bytes from index {start}"
  | (lo, hi) :: bounds, b :: bytes =>
    if lo ≤ b ∧ b ≤ hi then scanUtf8 validUpTo (seen + 1) bounds bytes
    else .error s!"invalid utf-8 sequence of {seen} bytes from index {validUpTo}"

/-- The error of `from_utf8`. -/
def utf8Error (bytes : List UInt8) : String :=
  match scanUtf8 0 0 [] bytes with
  | .ok _ => ""
  | .error err => err

inductive StatusCode where
  | ack
  | invalidSecret
  | fileSizeDiffers
  | permissionDenied
  | clientAlreadyConnected
  | unknownHashAlgorithm
  | unsupportedProtocolVersion
  | invalidBlockSize
  deriving DecidableEq, Repr

/-- Where an `async fn` stands: waiting for the I/O request `req`, or returned.  A
read asks for at most so many bytes, a write offers the bytes of a slice. -/
inductive Await (ρ α : Type) where
  | io (req : ρ)
  | done (r : Except String α)

/-- The bytes that a `read` brought. -/
def bytesRead : Except String (List UInt8) → List UInt8
  | .ok bytes => bytes
  | .error _ => []

/-- The number of bytes that a `write` accepted. -/
def bytesWritten : Except String ℕ → ℕ
  | .ok n => n
  | .error _ => 0

/-! ## `write_string` and `read_string` -/

/-- The text of a `read_u8` or `read_u64` at the end of the stream. -/
def unexpectedEof : String := "unexpected end of file"

/-- The text of a `read_exact` at the end of the stream. -/
def earlyEof : String := "early eof"

/-- The bytes that `write_string` writes. -/
def writeString (s : String) : List UInt8 := toBytes 8 (asBytes s).length ++ asBytes s

/-- `read_string` on a stream that ends after `inp`: the string and what is left. -/
def readString (bits maxLen : ℕ) (inp : List UInt8) : Except String (String × List UInt8) :=
  if inp.length < 8 then .error unexpectedEof
  else
    let size := usize bits (ofBytes 64 (inp.take 8))
    if maxLen < size then
      .error s!"String length {size} exceeds maximum allowed {maxLen}"
    else if (inp.drop 8).length < size then .error earlyEof
    else match fromUtf8 ((inp.drop 8).take size) with
      | some s => .ok (s, (inp.drop 8).drop size)
      | none => .error (utf8Error ((inp.drop 8).take size))

/-! ## `ResumableReadString` -/

structure ResumableReadString where
  offset : ℕ
  size : ℕ
  maxLen : ℕ
  buf : List UInt8
  deriving DecidableEq, Repr

namespace ResumableReadString

def new (maxLen : ℕ) : ResumableReadString := { offset := 0, size := 0, maxLen, buf := [] }

/-- The loop over the payload, and the end of the function. -/
def payload (bits : ℕ) (r : ResumableReadString) : ResumableReadString × Await ℕ String :=
  if r.offset < usize bits r.size + 8 then (r, .io (r.buf.length - (r.offset - 8)))
  else ({ r with offset := 0, size := 0, buf := [] },
    .done (match fromUtf8 r.buf with
      | some s => .ok s
      | none => .error (utf8Error r.buf)))

/-- The loop over the header, and what follows its last byte. -/
def header (bits : ℕ) (r : ResumableReadString) : ResumableReadString × Await ℕ String :=
  if r.offset < 8 then (r, .io (r.buf.length - r.offset))
  else
    let r := { r with size := (r.buf.take 8).foldl (shiftIn 64) r.size }
    if r.maxLen < usize bits r.size then
      (r, .done (.error s!"String length {r.size} exceeds maximum allowed {r.maxLen}"))
    else payload bits { r with buf := List.replicate (usize bits r.size) 0 }

def enter (bits : ℕ) (r : ResumableReadString) : ResumableReadString × Await ℕ String :=
  if r.size = 0 then header bits { r with buf := resize 0 r.buf 8 } else payload bits r

def onRead (bits : ℕ) (r : ResumableReadString) :
    Except String (List UInt8) → ResumableReadString × Await ℕ String
  | .error e => (r, .done (.error e))
  | .ok [] => (r, .done (.error "Connection closed by peer"))
  | .ok (b :: bs) =>
    let n := (b :: bs).length
    if r.size = 0 then
      header bits { r with buf := patch 0 r.buf r.offset (b :: bs), offset := r.offset + n }
    else
      payload bits { r with buf := patch 0 r.buf (r.offset - 8) (b :: bs), offset := r.offset + n }

/-- How many bytes a call asks for. -/
def room (bits : ℕ) (r : ResumableReadString) : ℕ :=
  match (r.enter bits).2 with
  | .io n => n
  | .done _ => 0

def poll (bits : ℕ) (r : ResumableReadString) (res : Except String (List UInt8)) :
    ResumableReadString × Await ℕ String :=
  match r.enter bits with
  | (r', .io _) => r'.onRead bits res
  | d => d

end ResumableReadString

/-! ## `ResumableWriteString` -/

structure ResumableWriteString where
  offset : ℕ
  buf : List UInt8
  deriving DecidableEq, Repr

namespace ResumableWriteString

def new (src : String) : ResumableWriteString :=
  { offset := 0, buf := toBytes 8 (asBytes src).length ++ asBytes src }

def enter (w : ResumableWriteString) : ResumableWriteString × Await (List UInt8) Unit :=
  if w.offset < w.buf.length then (w, .io (w.buf.drop w.offset)) else (w, .done (.ok ()))

def onWrite (w : ResumableWriteString) :
    Except String ℕ → ResumableWriteString × Await (List UInt8) Unit
  | .error e => (w, .done (.error e))
  | .ok n => enter { w with offset := w.offset + n }

/-- The slice that a call hands to `write`. -/
def slice (w : ResumableWriteString) : List UInt8 :=
  match w.enter.2 with
  | .io s => s
  | .done _ => []

def poll (w : ResumableWriteString) (res : Except String ℕ) :
    ResumableWriteString × Await (List UInt8) Unit :=
  match w.enter with
  | (w', .io _) => w'.onWrite res
  | d => d

end ResumableWriteString

/-! ## `ResumableWriteFileBlock` -/

structure ResumableWriteFileBlock (ι : Type) where
  offset : ℕ
  offsetlen : ℕ
  offsetBytes : List UInt8
  bufoffset : ℕ
  buf : Loan ι (List UInt8)
  step : ℕ
  deriving DecidableEq, Repr

namespace ResumableWriteFileBlock

variable {ι : Type}

def new (offset : ℕ) (blockData : Loan ι (List UInt8)) : ResumableWriteFileBlock ι where
  offset := offset
  offsetlen := 0
  offsetBytes := List.replicate 8 0
  bufoffset := 0
  buf := blockData
  step := 0

def payload (w : ResumableWriteFileBlock ι) :
    ResumableWriteFileBlock ι × Await (List UInt8) Unit :=
  if w.bufoffset < w.buf.value.length then (w, .io (w.buf.value.drop w.bufoffset))
  else (w, .done (.ok ()))

def header (w : ResumableWriteFileBlock ι) :
    ResumableWriteFileBlock ι × Await (List UInt8) Unit :=
  if 0 < w.offsetlen then (w, .io (w.offsetBytes.take w.offsetlen))
  else payload { w with step := 2 }

def enter (w : ResumableWriteFileBlock ι) :
    ResumableWriteFileBlock ι × Await (List UInt8) Unit :=
  let w := if w.step = 0 then
      { w with offsetBytes := toBytes 8 w.offset, offsetlen := 8, step := 1 }
    else w
  if w.step = 1 then header w else payload w

/-- `offset_bytes.copy_within(n.., 0)` moves the rest of the header to the front. -/
def copyWithin (bytes : List UInt8) (n : ℕ) : List UInt8 :=
  bytes.drop n ++ bytes.drop (bytes.length - n)

def onWrite (w : ResumableWriteFileBlock ι) :
    Except String ℕ → ResumableWriteFileBlock ι × Await (List UInt8) Unit
  | .error e => (w, .done (.error e))
  | .ok n =>
    if w.step = 1 then
      header { w with
        offsetBytes := copyWithin w.offsetBytes n, offsetlen := w.offsetlen - n }
    else payload { w with bufoffset := w.bufoffset + n }

/-- The slice that a call hands to `write`. -/
def slice (w : ResumableWriteFileBlock ι) : List UInt8 :=
  match w.enter.2 with
  | .io s => s
  | .done _ => []

def poll (w : ResumableWriteFileBlock ι) (res : Except String ℕ) :
    ResumableWriteFileBlock ι × Await (List UInt8) Unit :=
  match w.enter with
  | (w', .io _) => w'.onWrite res
  | d => d

end ResumableWriteFileBlock

/-! ## `ResumableReadFileBlock` -/

structure ResumableReadFileBlock where
  offset : ℕ
  blockSize : ℕ
  fileSize : ℕ
  bufOffset : ℕ
  deriving DecidableEq, Repr

namespace ResumableReadFileBlock

def new (blockSize fileSize : ℕ) : ResumableReadFileBlock :=
  { offset := 0, blockSize, fileSize, bufOffset := 0 }

/-- `current_block_size` for a block at `offset`. -/
def currentBlockSize (bits : ℕ) (r : ResumableReadFileBlock) (offset : ℕ) : ℕ :=
  let rem := usizeSub bits r.fileSize offset
  if rem < r.blockSize then rem else r.blockSize

/-- The loop over the payload, and the end of the function. -/
def payload (r : ResumableReadFileBlock) (buf : List UInt8) :
    ResumableReadFileBlock × List UInt8 × Await ℕ ℕ :=
  if r.bufOffset < buf.length + 8 then (r, buf, .io (buf.length - (r.bufOffset - 8)))
  else ({ r with offset := 0, bufOffset := 0 }, buf, .done (.ok r.offset))

/-- The loop over the header, and what follows its last byte. -/
def header (bits : ℕ) (r : ResumableReadFileBlock) (buf : List UInt8) :
    ResumableReadFileBlock × List UInt8 × Await ℕ ℕ :=
  if r.bufOffset < 8 then (r, buf, .io (buf.length - r.bufOffset))
  else
    let r := { r with offset := (buf.take 8).foldl (shiftIn bits) r.offset }
    payload r (List.replicate (r.currentBlockSize bits r.offset) 0)

def enter (bits : ℕ) (r : ResumableReadFileBlock) (buf : List UInt8) :
    ResumableReadFileBlock × List UInt8 × Await ℕ ℕ :=
  if r.bufOffset < 8 then header bits r (resize 0 buf 8) else payload r buf

def onRead (bits : ℕ) (r : ResumableReadFileBlock) (buf : List UInt8) :
    Except String (List UInt8) → ResumableReadFileBlock × List UInt8 × Await ℕ ℕ
  | .error e => (r, buf, .done (.error e))
  | .ok [] => (r, buf, .done (.error "Connection closed by peer"))
  | .ok (b :: bs) =>
    let n := (b :: bs).length
    if r.bufOffset < 8 then
      header bits { r with bufOffset := r.bufOffset + n } (patch 0 buf r.bufOffset (b :: bs))
    else
      payload { r with bufOffset := r.bufOffset + n } (patch 0 buf (r.bufOffset - 8) (b :: bs))

/-- How many bytes a call asks for. -/
def room (bits : ℕ) (r : ResumableReadFileBlock) (buf : List UInt8) : ℕ :=
  match (r.enter bits buf).2.2 with
  | .io n => n
  | .done _ => 0

def poll (bits : ℕ) (r : ResumableReadFileBlock) (buf : List UInt8)
    (res : Except String (List UInt8)) : ResumableReadFileBlock × List UInt8 × Await ℕ ℕ :=
  match r.enter bits buf with
  | (r', buf', .io _) => r'.onRead bits buf' res
  | d => d

end ResumableReadFileBlock

/-! ## `ResumableAsyncWriteAll` -/

structure ResumableAsyncWriteAll where
  offset : ℕ
  deriving DecidableEq, Repr

namespace ResumableAsyncWriteAll

def new : ResumableAsyncWriteAll := { offset := 0 }

def enter (w : ResumableAsyncWriteAll) (data : List UInt8) :
    ResumableAsyncWriteAll × Await (List UInt8) Unit :=
  if w.offset < data.length then (w, .io (data.drop w.offset)) else (w, .done (.ok ()))

def onWrite (w : ResumableAsyncWriteAll) (data : List UInt8) :
    Except String ℕ → ResumableAsyncWriteAll × Await (List UInt8) Unit
  | .error e => (w, .done (.error e))
  | .ok n => enter { w with offset := w.offset + n } data

end ResumableAsyncWriteAll

end Deltasync
