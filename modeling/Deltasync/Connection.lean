import Deltasync.ServerFiles
import Deltasync.SessionReturns

/-!
# A connection: `new_process` and `process_new_client` from the first byte on

The client goes through the handshake, `hash_file` and its loop; the server through
`Process`, whose `inbox` is now what is on its way from the client.  Either side goes
on as soon as it can: the server may send hashes before the client has read the third
status.

The connection itself does not fail.  A `write` fails when the other side has closed
its end, and a `read` then comes to the end of the stream.  The operations on the
destination answer as a given file system does.  The source does not change.
-/

namespace Deltasync

open Blocks Dialogue Transition Handshake

/-- The client and the server, both with a `usize` of 64 bits, and what is around them. -/
structure Peers where
  digests : Digests
  options : ClientProcessOptions
  source : List UInt8
  secret : String
  files : Files
  fs : Filesystem
  clientWorkers : ℕ
  serverWorkers : ℕ
  toServerCapacity : ℕ
  toClientCapacity : ℕ
  seekEnd_eq : ∀ n, options.seekEnd = .ok n → n.toNat = source.length
  source_length : source.length < 2 ^ 63
  answers : ∀ path, files.answers path (fs.metadata path) = true
  clientWorkers_range : 1 ≤ clientWorkers ∧ clientWorkers ≤ 255
  serverWorkers_range : 1 ≤ serverWorkers ∧ serverWorkers ≤ 255
  toServerCapacity_pos : 1 ≤ toServerCapacity
  toClientCapacity_pos : 1 ≤ toClientCapacity

/-- The arguments of the client's loop, once `hash_file` has measured the source. -/
def Handshake.Agreement.clientOptions (d : Digests) (a : Agreement) (size : ℕ) : NewProcess where
  bits := 64
  blockSize := a.blockSize
  srcSize := a.filesize
  fileSize := size
  hash := fun data => hashData d data a.hashAlgorithm

/-- Where `new_process` is, the connection being made. -/
inductive NewProcessPhase (W : ℕ) where
  | handshake (p : ClientProc)
  /-- In `hash_file`. -/
  | hashing (a : Agreement)
  | session (a : Agreement) (c : Client W)
  /-- Failed before the loop. -/
  | failed (err : String)

namespace NewProcessPhase

variable {W : ℕ}

def ofProc : ClientProc → NewProcessPhase W
  | .pass a => .hashing a
  | .quit err => .failed err
  | p => .handshake p

/-- The client has dropped its socket. -/
def closed : NewProcessPhase W → Bool
  | .session _ c => !c.connected
  | .failed _ => true
  | _ => false

/-- What `new_process` has returned. -/
def result : NewProcessPhase W → Option (Except String Unit)
  | .session _ c =>
    match c.phase with
    | .returned r => some r
    | _ => none
  | .failed err => some (.error err)
  | _ => none

end NewProcessPhase

/-- The state of the two sides.  `owed` is the status that `main` has still to write, for a peer
that is refused after the test of the metadata. -/
structure Connection (Wc Ws : ℕ) where
  client : NewProcessPhase Wc
  server : Process Ws
  toClient : List UInt8
  owed : Option StatusCode

inductive ConnectionEvent (Wc Ws : ℕ) where
  /-- One step of the handshake of the client, in which a write may fail. -/
  | client (fails : Bool)
  | clientHashFile (r : Except String Unit)
  | clientLoop (e : ClientEvent Wc)
  | server (e : ProcessEvent Ws)
  /-- `main` writes the status. -/
  | status

namespace Connection

variable {Wc Ws : ℕ}

def start (x : Peers) : Connection x.clientWorkers x.serverWorkers where
  client := .ofProc (newProcess x.options)
  server := .start x.secret x.files []
  toClient := []
  owed := none

/-- The server has dropped its socket. -/
def serverClosed (s : Connection Wc Ws) : Bool :=
  match s.server.phase with
  | .session _ _ v => !v.connected
  | .stopped _ => s.owed.isNone
  | .failed _ => true
  | _ => false

/-- There is room for one more byte to the client, or nobody who waits for it. -/
def writable (x : Peers) (s : Connection Wc Ws) : Prop :=
  s.client.closed = true ∨ s.toClient.length < x.toClientCapacity

instance (x : Peers) (s : Connection Wc Ws) : Decidable (s.writable x) :=
  inferInstanceAs (Decidable (_ ∨ _))

/-- The effect of a step of the client's loop on what is on its way to the server and to the
client. -/
def clientStreams (x : Peers) (s : Connection Wc Ws) (c : Client Wc) :
    ClientEvent Wc → Option (List UInt8 × List UInt8)
  | .write r =>
    if s.serverClosed then some (s.server.inbox, s.toClient)
    else match r with
      | .ok n =>
        (Session.put x.toServerCapacity s.server.inbox (c.offered.take n)).map (·, s.toClient)
      | .error _ => none
  | .read r => (Session.fetch s.toClient s.serverClosed false r).map (s.server.inbox, ·)
  | _ => some (s.server.inbox, s.toClient)

/-- What is on its way to the client after a step of the server's loop. -/
def loopStream (x : Peers) (s : Connection Wc Ws) (v : Server Ws) :
    ServerEvent Ws → Option (List UInt8)
  | .hashOut r =>
    if s.client.closed then some s.toClient
    else match r with
      | .ok n => Session.put x.toClientCapacity s.toClient (v.offered.take n)
      | .error _ => none
  | .read r => (Session.fetch s.server.inbox s.client.closed false r).map fun _ => s.toClient
  | _ => some s.toClient

/-- What is on its way to the client after a step of the server, if the connection and the file
system allow it. -/
def serverStream (x : Peers) (s : Connection Wc Ws) (e : ProcessEvent Ws) :
    Option (List UInt8) :=
  match s.server.phase, e with
  | .handshake q, .io false =>
    (q.step x.toClientCapacity s.client.closed s.server.inbox s.toClient).map (·.2.2)
  | .handshake q, .io true =>
    if s.client.closed = true ∧ (q.reads = true → s.server.inbox = []) then some s.toClient
    else none
  | .metadata a, .metadata r => if r = x.fs.metadata a.destPath then some s.toClient else none
  | .opening a, .openForWriting r =>
    if r = x.fs.openForWriting a.destPath then some s.toClient else none
  | .creating a, .create r => if r = x.fs.create a.destPath then some s.toClient else none
  | .sizing a, .setLen r =>
    if r = x.fs.setLen a.destPath a.filesize then some s.toClient else none
  | .acking _, .ack (.ok _) =>
    if s.writable x then some (s.toClient ++ [StatusCode.ack.toU8]) else none
  | .acking _, .ack (.error err) =>
    if s.client.closed = true ∧ err = brokenPipe then some s.toClient else none
  | .session _ _ v, .session e => s.loopStream x v e
  | _, _ => some s.toClient

/-- The status that `main` writes when the metadata lead to a refusal; in the handshake the
process writes it. -/
def owes : ProcessEvent Ws → ProcessPhase Ws → Option StatusCode
  | .metadata _, .stopped (.refused status) => some status
  | _, _ => none

def step (x : Peers) (s : Connection Wc Ws) : ConnectionEvent Wc Ws → Option (Connection Wc Ws)
  | .client fails =>
    match s.client, fails with
    | .handshake p, false =>
      (p.step x.toServerCapacity s.serverClosed s.toClient s.server.inbox).map fun (p', l, r) =>
        { s with client := .ofProc p', toClient := l, server := { s.server with inbox := r } }
    | .handshake p, true =>
      if s.serverClosed then p.fails.map fun p' => { s with client := .ofProc p' } else none
    | _, _ => none
  | .clientHashFile r =>
    match s.client, r with
    | .hashing a, .ok _ =>
      some { s with
        client := .session a (.new (a.clientOptions x.digests x.source.length) Wc) }
    | .hashing _, .error err => some { s with client := .failed err }
    | _, _ => none
  | .clientLoop e =>
    match s.client with
    | .session a c =>
      match s.clientStreams x c e,
        c.step (a.clientOptions x.digests x.source.length) x.source e with
      | some b, some c' =>
        some { s with
          client := .session a c', toClient := b.2, server := { s.server with inbox := b.1 } }
      | _, _ => none
    | _ => none
  | .server e =>
    match s.serverStream x e, s.server.step x.digests e with
    | some toClient, some p => some { s with server := p, toClient, owed := owes e p.phase }
    | _, _ => none
  | .status =>
    match s.owed with
    | some status =>
      if s.writable x then some { s with toClient := s.toClient ++ [status.toU8], owed := none }
      else none
    | none => none

/-- Everything a step can do. -/
inductive Move (x : Peers) (s : Connection Wc Ws) :
    ConnectionEvent Wc Ws → Connection Wc Ws → Prop where
  | client {p p' l r} (hcl : s.client = .handshake p)
      (h : p.step x.toServerCapacity s.serverClosed s.toClient s.server.inbox =
        some (p', l, r)) :
      Move x s (.client false)
        { s with client := .ofProc p', toClient := l, server := { s.server with inbox := r } }
  | clientFails {p p'} (hcl : s.client = .handshake p) (hclosed : s.serverClosed = true)
      (h : p.fails = some p') : Move x s (.client true) { s with client := .ofProc p' }
  | clientHashed {a u} (hcl : s.client = .hashing a) :
      Move x s (.clientHashFile (.ok u))
        { s with client := .session a (.new (a.clientOptions x.digests x.source.length) Wc) }
  | clientHashFails {a err} (hcl : s.client = .hashing a) :
      Move x s (.clientHashFile (.error err)) { s with client := .failed err }
  | clientLoop {a c e b c'} (hcl : s.client = .session a c)
      (hb : s.clientStreams x c e = some b)
      (h : c.step (a.clientOptions x.digests x.source.length) x.source e = some c') :
      Move x s (.clientLoop e)
        { s with
          client := .session a c', toClient := b.2, server := { s.server with inbox := b.1 } }
  | server {e toClient p} (hb : s.serverStream x e = some toClient)
      (h : s.server.step x.digests e = some p) :
      Move x s (.server e) { s with server := p, toClient, owed := owes e p.phase }
  | status {status} (ho : s.owed = some status) (hw : s.writable x) :
      Move x s .status { s with toClient := s.toClient ++ [status.toU8], owed := none }

theorem move_of_step {x : Peers} {s s' : Connection Wc Ws} {e : ConnectionEvent Wc Ws}
    (hs : s.step x e = some s') : Move x s e s' := by
  cases e with
  | client fails =>
    simp only [step] at hs
    split at hs
    case h_1 p hcl =>
      obtain ⟨⟨p', l, r⟩, h, rfl⟩ := Option.map_eq_some_iff.mp hs
      exact .client hcl h
    case h_2 p hcl =>
      obtain ⟨hclosed, hs⟩ := Option.ite_none_right_eq_some.mp hs
      obtain ⟨p', h, rfl⟩ := Option.map_eq_some_iff.mp hs
      exact .clientFails hcl hclosed h
    case h_3 => cases hs
  | clientHashFile r =>
    simp only [step] at hs
    split at hs
    case h_1 a u hcl =>
      obtain rfl := Option.some.inj hs
      exact .clientHashed hcl
    case h_2 a err hcl =>
      obtain rfl := Option.some.inj hs
      exact .clientHashFails hcl
    case h_3 => cases hs
  | clientLoop e =>
    simp only [step] at hs
    split at hs
    case h_1 a c hcl =>
      split at hs
      case h_1 b c' hb h =>
        obtain rfl := Option.some.inj hs
        exact .clientLoop hcl hb h
      case h_2 => cases hs
    case h_2 => cases hs
  | server e =>
    simp only [step] at hs
    split at hs
    case h_1 toClient p hb h =>
      obtain rfl := Option.some.inj hs
      exact .server hb h
    case h_2 => cases hs
  | status =>
    simp only [step] at hs
    split at hs
    case h_1 status ho =>
      obtain ⟨hw, hs⟩ := Option.ite_none_right_eq_some.mp hs
      obtain rfl := Option.some.inj hs
      exact .status ho hw
    case h_2 => cases hs

end Connection

end Deltasync
