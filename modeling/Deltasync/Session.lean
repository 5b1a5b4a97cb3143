import Deltasync.Client
import Deltasync.Server
import Deltasync.HashContent

/-!
# A session: the client, the server and the connection between them

The state is the one after the third `Ack` of the handshake.  The connection is
two byte streams, each with a finite capacity: a `write` waits for room and
accepts at least one byte, a `read` waits for bytes and takes at least one.
The client closes its end when it drops its locals, the server when the
function has returned; a `read` then comes to the end of the stream, after the
last byte of it.

The connection may be cut, by the death of the client or of the network: some of
the bytes on their way to the server are lost, and all that is written later.
-/

namespace Deltasync

/-- A client and a server on a source and a destination of the same size, each with a `usize`
of its own.  `new_process` refuses an empty source; the number of workers is a `u8`, the
size of a file an `off_t`. -/
structure Hosts where
  digests : Digests
  hashAlgorithm : HashAlgorithm
  clientBits : ℕ
  serverBits : ℕ
  blockSize : ℕ
  source : List UInt8
  dest : List UInt8
  clientWorkers : ℕ
  serverWorkers : ℕ
  toServerCapacity : ℕ
  toClientCapacity : ℕ
  clientBits_range : 16 ≤ clientBits ∧ clientBits ≤ 64
  serverBits_range : 16 ≤ serverBits ∧ serverBits ≤ 64
  blockSize_range : 1 ≤ blockSize ∧ blockSize ≤ 2 ^ 30
  source_nonempty : source ≠ []
  source_length : source.length < 2 ^ 63
  dest_length : dest.length = source.length
  clientWorkers_range : 1 ≤ clientWorkers ∧ clientWorkers ≤ 255
  serverWorkers_range : 1 ≤ serverWorkers ∧ serverWorkers ≤ 255
  toServerCapacity_pos : 1 ≤ toServerCapacity
  toClientCapacity_pos : 1 ≤ toClientCapacity

namespace Hosts

def newProcess (x : Hosts) : NewProcess :=
  .onFile x.clientBits x.digests x.hashAlgorithm x.blockSize x.source

def processNewClient (x : Hosts) : ProcessNewClient :=
  .onFile x.serverBits x.digests x.hashAlgorithm x.blockSize x.dest

end Hosts

/-- Both files are of a size for which no counter wraps around, which with 64 bits they are
(`OffsetsFit.sixtyFour`). -/
structure Setup extends Hosts where
  clientFits : OffsetsFit clientBits blockSize source.length clientWorkers
  serverFits : OffsetsFit serverBits blockSize source.length serverWorkers

instance : Coe Setup Hosts := ⟨Setup.toHosts⟩

/-- The same session on another destination. -/
def Setup.withDest (x : Setup) (dest : List UInt8) (h : dest.length = x.source.length) : Setup :=
  { x with dest := dest, dest_length := h }

/-- The same session in blocks of another size. -/
def Setup.withBlockSize (x : Setup) (blockSize : ℕ)
    (h : 1 ≤ blockSize ∧ blockSize ≤ 2 ^ 30)
    (hclient : OffsetsFit x.clientBits blockSize x.source.length x.clientWorkers)
    (hserver : OffsetsFit x.serverBits blockSize x.source.length x.serverWorkers) : Setup :=
  { x with
    blockSize := blockSize
    blockSize_range := h
    clientFits := hclient
    serverFits := hserver }

theorem sixtyFour_range : 16 ≤ 64 ∧ 64 ≤ 64 := by decide

theorem oneWorker_range : 1 ≤ 1 ∧ 1 ≤ 255 := by decide

/-- The client has not dropped its socket. -/
def Client.connected {W : ℕ} (c : Client W) : Bool :=
  match c.phase with
  | .running | .leaving _ => true
  | .dropping _ | .returned _ => false

def Server.connected {W : ℕ} (s : Server W) : Bool :=
  match s.phase with
  | .returned _ => false
  | _ => true

structure Session (Wc Ws : ℕ) where
  client : Client Wc
  server : Server Ws
  toServer : List UInt8
  toClient : List UInt8
  cut : Bool

inductive SessionEvent (Wc Ws : ℕ) where
  | client (e : ClientEvent Wc)
  | server (e : ServerEvent Ws)
  /-- The connection is lost; of the bytes on their way to the server, `n` still arrive. -/
  | cut (n : ℕ)

namespace Session

variable {Wc Ws : ℕ}

/-- A `write` of `bytes` to a stream. -/
def put (capacity : ℕ) (stream bytes : List UInt8) : Option (List UInt8) :=
  if bytes ≠ [] ∧ stream.length + bytes.length ≤ capacity then some (stream ++ bytes) else none

/-- A `read` from a stream, with what is left of it. -/
def fetch (stream : List UInt8) (closed cut : Bool) :
    Except String (List UInt8) → Option (List UInt8)
  | .ok [] => if stream = [] ∧ closed = true then some stream else none
  | .ok bytes => if bytes.isPrefixOf stream then some (stream.drop bytes.length) else none
  | .error _ => if cut then some stream else none

/-- The effect of a step of the client on the two streams. -/
def clientStreams (x : Hosts) (s : Session Wc Ws) :
    ClientEvent Wc → Option (List UInt8 × List UInt8)
  | .write r =>
    if s.cut = false ∧ s.server.connected = true then
      match r with
      | .ok n => (put x.toServerCapacity s.toServer (s.client.offered.take n)).map (·, s.toClient)
      | .error _ => none
    else some (s.toServer, s.toClient)
  | .read r => (fetch s.toClient (s.cut || !s.server.connected) s.cut r).map (s.toServer, ·)
  | _ => some (s.toServer, s.toClient)

def serverStreams (x : Hosts) (s : Session Wc Ws) :
    ServerEvent Ws → Option (List UInt8 × List UInt8)
  | .hashOut r =>
    if s.cut = false ∧ s.client.connected = true then
      match r with
      | .ok n => (put x.toClientCapacity s.toClient (s.server.offered.take n)).map (s.toServer, ·)
      | .error _ => none
    else some (s.toServer, s.toClient)
  | .read r => (fetch s.toServer (s.cut || !s.client.connected) s.cut r).map (·, s.toClient)
  | _ => some (s.toServer, s.toClient)

def start (x : Hosts) : Session x.clientWorkers x.serverWorkers where
  client := .new x.newProcess x.clientWorkers
  server := .new x.processNewClient x.serverWorkers x.dest
  toServer := []
  toClient := []
  cut := false

def step (x : Hosts) (s : Session Wc Ws) : SessionEvent Wc Ws → Option (Session Wc Ws)
  | .client e =>
    match s.clientStreams x e, s.client.step x.newProcess x.source e with
    | some b, some c => some { s with client := c, toServer := b.1, toClient := b.2 }
    | _, _ => none
  | .server e =>
    match s.serverStreams x e, s.server.step x.processNewClient e with
    | some b, some v => some { s with server := v, toServer := b.1, toClient := b.2 }
    | _, _ => none
  | .cut n => some { s with toServer := s.toServer.take n, cut := true }

end Session

end Deltasync
