import Deltasync.SessionEnd
import Deltasync.ServerRefine
import Deltasync.HashProgress

/-!
# A session in which nothing fails is never stuck

The waits of a session do not close a circle.  The server waits for bytes of the
client only with an empty stream, so that a client with a block to write can
write.  A client without one holds no loan, hence its workers wait for nothing
but its own `recv`; and if it waits for a hash instead, every hash delivered on
the other side has arrived, so that the server polls its workers, of which it
holds no loan either.
-/

namespace Deltasync

open Blocks HashStream Transition

/-- A step in which nothing fails, other than the progress timer, a spurious wakeup and a
write of no byte. -/
def SessionEvent.progress {Wc Ws : ℕ} : SessionEvent Wc Ws → Bool
  | .client .tick | .client (.worker _ .wake) | .server (.worker _ .wake)
  | .server (.disk (.ok 0)) => false
  | e => e.succeeds

/-- The same for one side, in a step that touches no stream. -/
def ClientEvent.aside {W : ℕ} : ClientEvent W → Bool
  | .read _ | .write _ => false
  | e => e.succeeds

def ServerEvent.aside {W : ℕ} : ServerEvent W → Bool
  | .read _ | .hashOut _ => false
  | e => e.succeeds

/-! ## Branches that are ready -/

namespace Client

variable {W : ℕ} {o : NewProcess} {c : Client W}

theorem recv_ready {e : RecvEvent} {r : HashStream W × Option (RecvResult W)}
    (hrem : c.remoteHashes ≠ []) (hr : c.hasher.recvStep e = some r) :
    ∃ c', c.recv o e = some c' := by
  obtain ⟨hash, rest, hrem⟩ := List.exists_cons_of_ne_nil hrem
  obtain ⟨g, r⟩ := r
  unfold recv
  rw [hrem, hr]
  rcases r with _ | err | _ | v <;> exact ⟨_, rfl⟩

theorem read_ready {r : Except String (List UInt8)}
    (hle : (bytesRead r).length ≤ c.readString.room o.bits) : ∃ c', c.read o r = some c' := by
  unfold read
  rw [if_pos hle]
  dsimp only
  split <;> exact ⟨_, rfl⟩

theorem write_ready {w : ResumableWriteFileBlock (Fin W)} (hw : c.writeBlock = some w)
    {r : Except String ℕ} (hle : bytesWritten r ≤ w.slice.length) :
    ∃ c', c.write o r = some c' := by
  unfold write
  rw [hw]
  dsimp only
  rw [if_pos hle]
  split <;> exact ⟨_, rfl⟩

end Client

namespace Server

variable {W : ℕ} {o : ProcessNewClient} {s : Server W}

theorem recv_ready {e : RecvEvent} {r : HashStream W × Option (RecvResult W)}
    (hr : s.hasher.recvStep e = some r) : ∃ s', s.recv e = some s' := by
  obtain ⟨g, r⟩ := r
  unfold recv
  rw [hr]
  rcases r with _ | err | _ | v <;> exact ⟨_, rfl⟩

theorem read_ready {r : Except String (List UInt8)}
    (hle : (bytesRead r).length ≤ s.readFileBlock.room o.bits s.receiveBuffer) :
    ∃ s', s.read o r = some s' := by
  unfold read
  rw [if_pos hle]
  dsimp only
  split <;> exact ⟨_, rfl⟩

theorem hashOut_ready {w : ResumableWriteString} (hw : s.writeHash = some w)
    {r : Except String ℕ} (hle : bytesWritten r ≤ w.slice.length) :
    ∃ s', s.hashOut r = some s' := by
  unfold hashOut
  rw [hw]
  dsimp only
  rw [if_pos hle]
  split <;> exact ⟨_, rfl⟩

/-- A block on its way to the disk: a write of the rest of it, or nothing left to write. -/
theorem disk_ready {w : ResumableAsyncWriteAll} (hw : s.writeToDisk = some w) :
    (∃ n s', s.disk (.ok (n + 1)) = some s') ∨ ∃ s', s.diskDone = some s' := by
  rcases Nat.lt_or_ge w.offset s.writeBuffer.length with hlt | hge
  · left
    obtain ⟨n, hn⟩ : ∃ n, s.writeBuffer.length - w.offset = n + 1 :=
      ⟨s.writeBuffer.length - w.offset - 1, by omega⟩
    refine ⟨n, ?_⟩
    unfold disk
    rw [hw]
    dsimp only
    rw [ResumableAsyncWriteAll.enter, if_pos hlt]
    dsimp only
    rw [if_pos (by rw [List.length_drop]; exact hn.ge)]
    split <;> exact ⟨_, rfl⟩
  · right
    unfold diskDone
    rw [hw]
    dsimp only
    rw [ResumableAsyncWriteAll.enter, if_neg (Nat.not_lt.mpr hge)]
    exact ⟨_, rfl⟩

end Server

namespace Session

section Ready

variable {Wc Ws : ℕ} {x : Setup} {s : Session Wc Ws}

/-- A step that makes progress is enabled. -/
def CanMove (x : Setup) (s : Session Wc Ws) : Prop :=
  ∃ e s', e.progress = true ∧ s.step x e = some s'

theorem canMove_client {e : ClientEvent Wc} {c : Client Wc} {b : List UInt8 × List UInt8}
    (hp : (SessionEvent.client e : SessionEvent Wc Ws).progress = true)
    (hb : s.clientStreams x e = some b)
    (h : s.client.step x.newProcess x.source e = some c) : s.CanMove x :=
  ⟨.client e, _, hp, by simp only [step, hb, h]; rfl⟩

theorem canMove_server {e : ServerEvent Ws} {v : Server Ws} {b : List UInt8 × List UInt8}
    (hp : (SessionEvent.server e : SessionEvent Wc Ws).progress = true)
    (hb : s.serverStreams x e = some b)
    (h : s.server.step x.processNewClient e = some v) : s.CanMove x :=
  ⟨.server e, _, hp, by simp only [step, hb, h]; rfl⟩

theorem canMove_clientWorker {i : Fin Wc} {e : WorkerEvent} {g : HashStream Wc}
    (hp : e.progress = true)
    (h : s.client.hasher.workerStep x.newProcess.hashFile x.source i e = some g) :
    s.CanMove x := by
  refine canMove_client (e := .worker i e) (c := { s.client with hasher := g }) ?_ rfl ?_
  · cases e <;> exact hp
  · simp only [Client.step, h, Option.map_some]

theorem canMove_serverWorker {i : Fin Ws} {e : WorkerEvent} {g : HashStream Ws}
    (hp : e.progress = true)
    (h : s.server.hasher.workerStep x.processNewClient.hashFile s.server.file.content i e =
      some g) : s.CanMove x := by
  refine canMove_server (e := .worker i e) (v := { s.server with hasher := g }) ?_ rfl ?_
  · cases e <;> exact hp
  · simp only [Server.step, h, Option.map_some]

theorem canMove_clientRecv {e : RecvEvent} {r : HashStream Wc × Option (RecvResult Wc)}
    (hrun : s.client.phase = .running) (hover : s.client.hashComparisonOver = false)
    (hrem : s.client.remoteHashes ≠ []) (hne : e ≠ .cancel)
    (hr : s.client.hasher.recvStep e = some r) : s.CanMove x := by
  obtain ⟨c, hc⟩ := Client.recv_ready (o := x.newProcess) hrem hr
  exact canMove_client (e := .recv e) rfl rfl
    (by rw [Client.step, if_pos ⟨hrun, hover, hne⟩]; exact hc)

theorem canMove_serverRecv {e : RecvEvent} {r : HashStream Ws × Option (RecvResult Ws)}
    (hrun : s.server.phase = .running) (hhash : s.server.writeHash = none)
    (hdone : s.server.hashingDone = false) (hne : e ≠ .cancel)
    (hr : s.server.hasher.recvStep e = some r) : s.CanMove x := by
  obtain ⟨v, hv⟩ := Server.recv_ready hr
  exact canMove_server (e := .recv e) rfl rfl
    (by rw [Server.step, if_pos ⟨hrun, hhash, hdone, hne⟩]; exact hv)

end Ready

variable {x : Setup} {s : Session x.clientWorkers x.serverWorkers}

/-! ## The way out -/

/-- Out of its loop the client has received every block of its stream. -/
theorem Sound.client_delivered (hS : s.Sound x) {r : Except String Unit}
    (hr : s.client.phase.result = some r) :
    s.client.loans = [] ∧ s.client.blockIdx = divCeil x.source.length x.blockSize ∧
      divCeil x.source.length x.blockSize ≤ s.client.hasher.chan.delivered.length := by
  obtain ⟨-, hover, hw, hq, -⟩ := hS.finishes.ended r hr
  have hidx := hS.wire.sends.counts.compared hover
  rw [x.reads.endBlockIdx_eq] at hidx
  refine ⟨by simp [Client.loans, hw, hq], hidx, ?_⟩
  rw [← hS.wire.sends.delivered, hidx]
  exact le_rfl

/-- Once the client has closed the connection, the server has received every block of its
stream too. -/
theorem Sound.server_delivered (hS : s.Sound x) (hc : s.client.connected = false) :
    divCeil x.dest.length x.blockSize ≤ s.server.hasher.chan.delivered.length := by
  obtain ⟨r, hr⟩ : ∃ r, s.client.phase.result = some r := by
    cases hph : s.client.phase with
    | running => simp [Client.connected, hph] at hc
    | leaving r | dropping r | returned r => exact ⟨r, rfl⟩
  have h1 := (hS.client_delivered hr).2.1
  have h2 := hS.wire.sends.counts.le_decoded
  have h3 := hS.decoded.length_le
  rw [Server.hashes, List.length_map] at h3
  rw [x.dest_length]
  omega

theorem Sound.client_leaves (hS : s.Sound x) {r : Except String Unit}
    (hr : s.client.phase.result = some r) (hne : s.client.phase ≠ .returned r) : s.CanMove x := by
  obtain ⟨hloans, -, hall⟩ := hS.client_delivered hr
  have howns := hS.wire.sends.owns
  have hpoll : s.client.hasher.polling = false := by
    by_contra hcon
    have := (howns.polling (by simpa using hcon)).1
    simp [this, ClientPhase.result] at hr
  cases hph : s.client.phase with
  | running => simp [hph, ClientPhase.result] at hr
  | returned r' =>
    simp only [hph, ClientPhase.result, Option.some.injEq] at hr
    exact absurd (by rw [hph, hr]) hne
  | leaving r' =>
    exact canMove_client (e := .dropLocals) rfl rfl (by simp only [Client.step, hph]; rfl)
  | dropping r' =>
    by_cases hd : s.client.hasher.phase = .dropped
    · exact canMove_client (e := .finish) rfl rfl (by simp only [Client.step, hph, if_pos hd]; rfl)
    · have hc := howns.control
      rw [hloans] at hc
      rcases hc.drop_moves (F := x.source) x.reads.fits hS.wire.sends.content hpoll hall hd with
        ⟨g, hg⟩ | ⟨g, hg⟩ | ⟨i, e, g, hp, hg⟩
      · exact canMove_client (e := .closeHasher) rfl rfl
          (by simp only [Client.step, hph, hg]; rfl)
      · exact canMove_client (e := .join) rfl rfl (by simp only [Client.step, hph, hg]; rfl)
      · exact canMove_clientWorker hp hg

theorem Sound.server_leaves (hS : s.Sound x) (hrun : s.server.phase ≠ .running)
    (hne : ∀ r, s.server.phase ≠ .returned r) : s.CanMove x := by
  have howns := hS.announces.owns
  cases hph : s.server.phase with
  | running => exact absurd hph hrun
  | returned r => exact absurd hph (hne r)
  | seeking off =>
    exact canMove_server (e := .seek (.ok ())) rfl rfl
      (by simp only [Server.step, Server.seek, hph]; rfl)
  | flushing =>
    exact canMove_server (e := .flush (.ok ())) rfl rfl (by simp only [Server.step, hph]; rfl)
  | syncing =>
    exact canMove_server (e := .sync (.ok ())) rfl rfl (by simp only [Server.step, hph]; rfl)
  | leaving r =>
    have hin : ¬ s.server.InLoop := by simp [Server.InLoop, hph]
    have hall := hS.server_delivered (hS.closed hin).1
    have hpoll : s.server.hasher.polling = false := by
      by_contra hcon
      exact hrun (howns.polling (by simpa using hcon)).1
    by_cases hd : s.server.hasher.phase = .dropped
    · exact canMove_server (e := .finish) rfl rfl (by simp only [Server.step, hph, if_pos hd]; rfl)
    · rcases howns.control.drop_moves (F := s.server.file.content) x.fits hS.announces.content hpoll
        hall hd with ⟨g, hg⟩ | ⟨g, hg⟩ | ⟨i, e, g, hp, hg⟩
      · exact canMove_server (e := .closeHasher) rfl rfl
          (by simp only [Server.step, hph, hg]; rfl)
      · exact canMove_server (e := .join) rfl rfl (by simp only [Server.step, hph, hg]; rfl)
      · exact canMove_serverWorker hp hg

/-! ## The loops -/

/-- The server in its loop can move, unless it waits for bytes of the client. -/
theorem Sound.server_runs (hS : s.Sound x) (hrun : s.server.phase = .running) :
    s.CanMove x ∨ (s.server.hasher.busy = false ∧ s.toServer = [] ∧
      s.client.connected = true) := by
  have howns := hS.announces.owns
  cases hbusy : s.server.hasher.busy with
  | true =>
    left
    obtain ⟨-, hhash, hdone⟩ := howns.polling (howns.control.polling_of_busy hbusy)
    obtain ⟨r, hr⟩ := howns.control.finish_moves hbusy
    exact canMove_serverRecv hrun hhash hdone (by simp) hr
  | false =>
  cases hd : s.server.writeToDisk with
  | some w =>
    left
    rcases Server.disk_ready hd with ⟨n, v, hv⟩ | ⟨v, hv⟩
    · exact canMove_server (e := .disk (.ok (n + 1))) rfl rfl
        (by simp only [Server.step, hrun, hbusy, hv]; rfl)
    · exact canMove_server (e := .diskDone) rfl rfl
        (by simp only [Server.step, hrun, hbusy, hv]; rfl)
  | none =>
  obtain ⟨frames, got, -, -, hreading⟩ := hS.wire.reads
  have hroom := (ResumableReadFileBlock.room_pos hreading.1).2
  have hread : ∀ bytes : List UInt8, bytes.length ≤ 1 →
      ∃ v, s.server.step x.processNewClient (.read (.ok bytes)) = some v := by
    intro bytes hlen
    obtain ⟨v, hv⟩ := Server.read_ready (o := x.processNewClient) (s := s.server)
      (r := .ok bytes) (hlen.trans hroom)
    exact ⟨v, by simp only [Server.step, hrun, hbusy, hd, hv]; rfl⟩
  cases hto : s.toServer with
  | cons b rest =>
    left
    obtain ⟨v, hv⟩ := hread [b] (by simp)
    exact canMove_server (e := .read (.ok [b])) (b := (rest, s.toClient)) rfl
      (by simp [serverStreams, fetch, hto]) hv
  | nil =>
  cases hc : s.client.connected with
  | true => exact .inr ⟨rfl, rfl, rfl⟩
  | false =>
    left
    obtain ⟨v, hv⟩ := hread [] (by simp)
    exact canMove_server (e := .read (.ok [])) (b := ([], s.toClient)) rfl
      (by simp [serverStreams, fetch, hto, hc]) hv

/-- The client in its loop, with an empty stream to the server, can move unless it waits for
a hash. -/
theorem Sound.client_runs (hS : s.Sound x) (hrun : s.client.phase = .running)
    (hto : s.toServer = []) :
    s.CanMove x ∨ (s.toClient = [] ∧ s.client.blockIdx < divCeil x.source.length x.blockSize ∧
      s.client.remoteHashes = []) := by
  have hsends := hS.wire.sends
  have howns := hsends.owns
  obtain ⟨hc, hin, hconn⟩ := hS.connected_of_running hrun
  cases hbusy : s.client.hasher.busy with
  | true =>
    left
    obtain ⟨-, hover, hrem⟩ := howns.polling (howns.control.polling_of_busy hbusy)
    obtain ⟨r, hr⟩ := howns.control.finish_moves hbusy
    exact canMove_clientRecv hrun hover hrem (by simp) hr
  | false =>
  cases hw : s.client.writeBlock with
  | some w =>
    -- the stream is empty, so that there is room for a byte of the block
    left
    obtain ⟨k, bytes, rest, -, hwr, hrem, -⟩ := hsends.frames.writer w hw
    obtain ⟨b, t, hslice⟩ :=
      List.exists_cons_of_ne_nil ((ResumableWriteFileBlock.slice_prefix hwr).2 hrem)
    obtain ⟨c, hc⟩ := Client.write_ready (o := x.newProcess) hw (r := .ok 1)
      (by simp [bytesWritten, hslice])
    have hcap := x.toServerCapacity_pos
    refine canMove_client (e := .write (.ok 1)) (b := ([b], s.toClient)) rfl ?_
      (by simp only [Client.step, hrun, hbusy, hc]; rfl)
    simp [clientStreams, hS.uncut, hconn, put, hto, Client.offered, hw, hslice, hcap]
  | none =>
  have hover : s.client.hashComparisonOver = false := by
    by_contra hcon
    exact hsends.counts.sending hrun (by simpa using hcon) hw
  have hlt := hsends.counts.comparing hrun hover
  rw [x.reads.endBlockIdx_eq] at hlt
  cases hcl : s.toClient with
  | cons b rest =>
    left
    obtain ⟨frames, got, -, -, hp⟩ := hS.reads
    obtain ⟨c, hc⟩ := Client.read_ready (o := x.newProcess) (c := s.client) (r := .ok [b])
      (Client.room_eq (hp hS.remote)).2
    exact canMove_client (e := .read (.ok [b])) (b := (s.toServer, rest)) rfl
      (by simp [clientStreams, fetch, hcl])
      (by simp only [Client.step, hrun, hbusy, hS.remote, hc]; rfl)
  | nil =>
  by_cases hrem : s.client.remoteHashes = []
  · exact .inr ⟨rfl, hlt, hrem⟩
  · -- no block is queued either, so that no worker waits for the client
    left
    have hloans : s.client.loans = [] := by
      simp [Client.loans, hw, hsends.counts.queued hw]
    have hctl := howns.control
    rw [hloans] at hctl
    rcases hctl.recv_moves (F := x.source) x.reads.fits hsends.content hS.finishes.healthy
      (howns.alive (.inl hrun)) (by rw [← hsends.delivered]; exact hlt) with
      ⟨e, r, hne, hr⟩ | ⟨i, e, g, hp, hg⟩
    · exact canMove_clientRecv hrun hover hrem hne hr
    · exact canMove_clientWorker hp hg

/-- When the client waits for a hash and none is on its way, the server is at its workers. -/
theorem Sound.server_hashes (hS : s.Sound x) (hrun : s.server.phase = .running)
    (hbusy : s.server.hasher.busy = false) (hc : s.client.connected = true)
    (hcl : s.toClient = []) (hlt : s.client.blockIdx < divCeil x.source.length x.blockSize)
    (hrem : s.client.remoteHashes = []) : s.CanMove x := by
  have hann := hS.announces
  cases hw : s.server.writeHash with
  | some w =>
    -- the stream is empty, so that there is room for a byte of the hash
    obtain ⟨b, t, hslice⟩ := List.exists_cons_of_ne_nil (hann.pending w hw)
    rw [← ResumableWriteString.slice_eq] at hslice
    obtain ⟨v, hv⟩ := Server.hashOut_ready hw (r := .ok 1) (by simp [bytesWritten, hslice])
    have hcap := x.toClientCapacity_pos
    refine canMove_server (e := .hashOut (.ok 1)) (b := (s.toServer, [b])) rfl ?_
      (by simp only [Server.step, hrun, hbusy, hv]; rfl)
    simp [serverStreams, hS.uncut, hc, put, hcl, Server.offered, hw, hslice, hcap]
  | none =>
    -- all hashes delivered have been decoded and compared
    obtain ⟨got, m, hp, hm, hcode, -, hcome⟩ := hS.to_come hc
    have hdec : s.server.hashes = s.client.decoded := by
      cases m with
      | nil => rw [hm, List.append_nil]
      | cons a m =>
        rw [hcl, Server.unsent, hw, List.append_nil, List.append_nil, List.flatMap_cons] at hcome
        exact absurd hcome.symm (hp.ne_append (hcode a List.mem_cons_self) _)
    have hdel : s.server.hasher.chan.delivered.length < divCeil x.dest.length x.blockSize := by
      have h1 := hS.wire.sends.counts.remote
      rw [hrem] at h1
      have h2 := List.drop_eq_nil_iff.mp h1.symm
      have h3 := congrArg List.length hdec
      rw [Server.hashes, List.length_map] at h3
      rw [x.dest_length]
      omega
    have hdone : s.server.hashingDone = false := by
      by_contra hcon'
      have := hann.ended (by simpa using hcon')
      exact absurd hdel (Nat.not_lt.mpr this)
    rcases hann.owns.control.recv_moves (F := s.server.file.content) x.fits hann.content
      hann.healthy (hann.owns.alive (by rw [hrun]; rfl)) hdel with
      ⟨e, r, hne, hr⟩ | ⟨i, e, g, hp, hg⟩
    · exact canMove_serverRecv hrun hw hdone hne hr
    · exact canMove_serverWorker hp hg

/-- A session in which nothing fails is never stuck.  In every state that it reaches, with
any capacities of the two streams, some step that makes progress is enabled until both
functions have returned. -/
theorem never_stuck {es : List (SessionEvent x.clientWorkers x.serverWorkers)}
    (h : run (restrict succeeds (step x)) (start x) es = some s)
    (hopen : ¬ ((∃ r, s.client.phase = .returned r) ∧ ∃ r, s.server.phase = .returned r)) :
    ∃ e s', e.progress = true ∧ s.step x e = some s' := by
  have hS := sound_of_run h
  by_cases hserver : s.server.phase = .running
  case neg =>
    by_cases hret : ∃ r, s.server.phase = .returned r
    · -- the server returns only after the client has closed the connection
      obtain ⟨r, hr⟩ := hret
      have hin : ¬ s.server.InLoop := by simp [Server.InLoop, hr]
      have hc := (hS.closed hin).1
      cases hph : s.client.phase with
      | running | leaving r => simp [Client.connected, hph] at hc
      | dropping r => exact hS.client_leaves (r := r) (by rw [hph]; rfl) (by simp [hph])
      | returned r' => exact absurd ⟨⟨r', hph⟩, r, hr⟩ hopen
    · exact hS.server_leaves hserver fun r hr => hret ⟨r, hr⟩
  rcases hS.server_runs hserver with hmove | ⟨hbusy, hto, hc⟩
  · exact hmove
  cases hph : s.client.phase with
  | dropping r | returned r => simp [Client.connected, hph] at hc
  | leaving r => exact hS.client_leaves (r := r) (by rw [hph]; rfl) (by simp [hph])
  | running =>
    rcases hS.client_runs hph hto with hmove | ⟨hcl, hlt, hrem⟩
    · exact hmove
    · exact hS.server_hashes hserver hbusy hc hcl hlt hrem

/-- The first hash has arrived, and nothing has been compared. -/
theorem never_stuck_hashArrived :
    ∃ s, run (restrict succeeds (step twoBlocks)) (start twoBlocks)
        (hashRun [.openFile (.ok ()), .seekStart (.ok ())] "4d478c67") = some s ∧
      s.client.remoteHashes = ["4d478c67"] ∧
      ∃ e s', e.progress = true ∧ s.step twoBlocks e = some s' := by
  have hrun : (run (restrict succeeds (step twoBlocks)) (start twoBlocks)
      (hashRun [.openFile (.ok ()), .seekStart (.ok ())] "4d478c67")).map
      (fun s => (s.client.phase, s.client.remoteHashes)) = some (.running, ["4d478c67"]) := by rfl
  obtain ⟨s, hs, heq⟩ := Option.map_eq_some_iff.mp hrun
  simp only [Prod.mk.injEq] at heq
  exact ⟨s, hs, heq.2, never_stuck hs (by simp [heq.1])⟩

/-! ## Sizes that do not fit -/

/-- The client waits for a hash, the server has no hash left and waits for a block. -/
structure Starved (s : Session Wc Ws) : Prop where
  uncut : s.cut = false
  toServer : s.toServer = []
  toClient : s.toClient = []
  client : s.client.phase = .running
  writeBlock : s.client.writeBlock = none
  remoteHashes : s.client.remoteHashes = []
  clientWorkers : ∀ i, (s.client.hasher.worker i).pc = .exited
  server : s.server.phase = .running
  writeToDisk : s.server.writeToDisk = none
  writeHash : s.server.writeHash = none
  hashingDone : s.server.hashingDone = true
  serverWorkers : ∀ i, (s.server.hasher.worker i).pc = .exited

theorem Starved.not_client {x : Hosts} {s : Session Wc Ws} (hS : s.Starved) {e : ClientEvent Wc}
    {c : Client Wc} (hread : ∀ r, e ≠ .read r) (htick : e ≠ .tick)
    (h : s.client.step x.newProcess x.source e = some c) : False := by
  have hph := hS.client
  cases Client.move_of_step h with
  | tick => exact htick rfl
  | read => exact hread _ rfl
  | write hrun hfree h =>
    obtain ⟨w, hw, -⟩ := Client.write_cases h
    simp [hS.writeBlock] at hw
  | recv hrun hover hne h =>
    obtain ⟨hash, rest, g, r, hrem, -⟩ := Client.recv_cases h
    simp [hS.remoteHashes] at hrem
  | @worker i e g hg =>
    rw [HashStream.workerStep_exited (hS.clientWorkers i)] at hg
    cases hg
  | dropLocals hph' | closeHasher hph' | join hph' | finish hph' => simp [hph] at hph'

theorem Starved.not_server {x : Hosts} {s : Session Wc Ws} (hS : s.Starved) {e : ServerEvent Ws}
    {v : Server Ws} (hread : ∀ r, e ≠ .read r)
    (h : s.server.step x.processNewClient e = some v) : False := by
  have hph := hS.server
  cases Server.move_of_step h with
  | disk hrun hfree h =>
    obtain ⟨w, hw, -⟩ := Server.disk_cases h
    simp [hS.writeToDisk] at hw
  | diskDone hrun hfree h =>
    obtain ⟨w, hw, -⟩ := Server.diskDone_cases h
    simp [hS.writeToDisk] at hw
  | read => exact hread _ rfl
  | hashOut hrun hfree h =>
    obtain ⟨w, hw, -⟩ := Server.hashOut_cases h
    simp [hS.writeHash] at hw
  | recv hrun hhash hdone => simp [hS.hashingDone] at hdone
  | @worker i e g hg =>
    rw [HashStream.workerStep_exited (hS.serverWorkers i)] at hg
    cases hg
  | seekOk hph' | seekError hph' | flushOk hph' | flushError hph' | syncOk hph' | syncError hph'
  | closeHasher hph' | join hph' | finish hph' => simp [hph] at hph'

/-- Nothing but the timer of the client goes on. -/
theorem Starved.stuck {x : Hosts} {s : Session Wc Ws} (hS : s.Starved) {e : SessionEvent Wc Ws}
    (hp : e.progress = true) : s.step x e = none := by
  rw [Option.eq_none_iff_forall_ne_some]
  intro s' hs
  have hclient : s.client.connected = true := by rw [Client.connected, hS.client]
  have hserver : s.server.connected = true := by rw [Server.connected, hS.server]
  cases move_of_step hs with
  | client hwrite hread h => exact hS.not_client hread (by rintro rfl; cases hp) h
  | write hcut hconn h => exact hS.not_client (by simp) (by simp) h
  | writeLost hdown h => simp [hS.uncut, hserver] at hdown
  | read hne hstream h => simp [hS.toClient, hne] at hstream
  | readEnd hnil hend h => simp [hS.uncut, hserver] at hend
  | server hwrite hread h => exact hS.not_server hread h
  | hashOut hcut hconn h => exact hS.not_server (by simp) h
  | hashLost hdown h => simp [hS.uncut, hclient] at hdown
  | serverRead hne hstream h => simp [hS.toServer, hne] at hstream
  | serverReadEnd hnil hend h => simp [hS.uncut, hclient] at hend
  | cut => cases hp

/-- What one side does without the other, and without a failure, it does in a session. -/
theorem run_client {x : Hosts} {s : Session Wc Ws} {es : List (ClientEvent Wc)} {c : Client Wc}
    (hes : ∀ e ∈ es, e.aside = true)
    (h : run (Client.step x.newProcess x.source) s.client es = some c) :
    run (restrict succeeds (step x)) s (es.map .client) = some { s with client := c } := by
  refine run_lift (fun c => { s with client := c }) SessionEvent.client (fun e he u v hs => ?_) h
  have haside := hes e he
  refine restrict_eq_some.mpr ⟨?_, ?_⟩
  · cases e <;> first | exact haside | cases haside
  · cases e with
    | read r | write r => cases haside
    | _ => simp only [step, clientStreams, hs]

theorem run_server {x : Hosts} {s : Session Wc Ws} {es : List (ServerEvent Ws)} {v : Server Ws}
    (hes : ∀ e ∈ es, e.aside = true)
    (h : run (Server.step x.processNewClient) s.server es = some v) :
    run (restrict succeeds (step x)) s (es.map .server) = some { s with server := v } := by
  refine run_lift (fun v => { s with server := v }) SessionEvent.server (fun e he u v hs => ?_) h
  have haside := hes e he
  refine restrict_eq_some.mpr ⟨?_, ?_⟩
  · cases e <;> first | exact haside | cases haside
  · cases e with
    | read r | hashOut r => cases haside
    | _ => simp only [step, serverStreams, hs]

/-- Two 32-bit programs on files of four gigabytes. -/
def emptied : Hosts where
  digests := crcDigests
  hashAlgorithm := .crc32
  clientBits := 32
  serverBits := 32
  blockSize := 2
  source := fourGigabytes
  dest := fourGigabytes
  clientWorkers := 1
  serverWorkers := 1
  toServerCapacity := 1
  toClientCapacity := 1
  clientBits_range := ⟨by norm_num, by norm_num⟩
  serverBits_range := ⟨by norm_num, by norm_num⟩
  blockSize_range := ⟨by norm_num, by norm_num⟩
  source_nonempty := List.ne_nil_of_length_pos (by rw [length_fourGigabytes]; norm_num)
  source_length := by rw [length_fourGigabytes]; norm_num
  dest_length := rfl
  clientWorkers_range := oneWorker_range
  serverWorkers_range := oneWorker_range
  toServerCapacity_pos := le_rfl
  toClientCapacity_pos := le_rfl

/-- What the client takes the source for. -/
def emptiedClient : NewProcess where
  bits := 32
  blockSize := 2
  srcSize := 2 ^ 32
  fileSize := 0
  hash data := hashData crcDigests data .crc32

theorem newProcess_emptied : emptied.newProcess = emptiedClient := by
  rw [Hosts.newProcess, NewProcess.onFile, show emptied.source = fourGigabytes from rfl,
    length_fourGigabytes]
  rfl

theorem processNewClient_emptied : emptied.processNewClient = Server.emptied :=
  Server.onFile_fourGigabytes

/-- The only worker finds no block. -/
def emptyHashRun : List WorkerEvent :=
  [.openFile (.ok ()), .seekStart (.ok ()), .loopHead, .exit]

def emptyServerRun : List (ServerEvent 1) :=
  emptyHashRun.map (.worker solo) ++ [.recv .enter, .recv .poll, .recv .none]

/-- No hash is sent, and the client, with no block to compare, waits for one. -/
theorem stuck_of_wrapped_size :
    ¬ ∀ (es : List (SessionEvent 1 1)) s,
      run (restrict succeeds (step emptied)) (start emptied) es = some s →
      ¬ ((∃ r, s.client.phase = .returned r) ∧ ∃ r, s.server.phase = .returned r) →
      ∃ e s', e.progress = true ∧ s.step emptied e = some s' := by
  intro hall
  have hclient : (run (Client.step emptiedClient fourGigabytes) (Client.new emptiedClient 1)
      (emptyHashRun.map (.worker solo))).map (fun c => (c.phase, c.writeBlock.isNone,
        c.remoteHashes, (c.hasher.worker solo).pc)) = some (.running, true, [], .exited) := by
    decide +kernel
  have hserver : (run (Server.step Server.emptied) (Server.new Server.emptied 1 fourGigabytes)
      emptyServerRun).map (fun v => (v.phase, v.writeToDisk.isNone, v.writeHash.isNone,
        v.hashingDone, (v.hasher.worker solo).pc)) =
      some (.running, true, true, true, .exited) := by
    decide +kernel
  obtain ⟨c, hc, hcs⟩ := Option.map_eq_some_iff.mp hclient
  obtain ⟨v, hv, hvs⟩ := Option.map_eq_some_iff.mp hserver
  simp only [Prod.mk.injEq, Option.isNone_iff_eq_none] at hcs hvs
  -- first the worker of the client, then the server
  rw [← newProcess_emptied] at hc
  rw [← processNewClient_emptied] at hv
  have hclientAside : ∀ e ∈ emptyHashRun.map (ClientEvent.worker solo), e.aside = true := by decide
  have hserverAside : ∀ e ∈ emptyServerRun, e.aside = true := by decide
  have hrun : run (restrict succeeds (step emptied)) (start emptied)
      ((emptyHashRun.map (.worker solo)).map .client ++ emptyServerRun.map .server) =
      some { start emptied with client := c, server := v } := by
    rw [run_append, Option.bind_eq_some_iff]
    exact ⟨_, run_client (s := start emptied) hclientAside hc,
      run_server (s := { start emptied with client := c }) hserverAside hv⟩
  have hstarved : Starved { start emptied with client := c, server := v } := by
    refine ⟨rfl, rfl, rfl, hcs.1, hcs.2.1, hcs.2.2.1, fun i => ?_, hvs.1, hvs.2.1, hvs.2.2.1,
      hvs.2.2.2.1, fun i => ?_⟩
    · rw [Subsingleton.elim i solo]
      exact hcs.2.2.2
    · rw [Subsingleton.elim i solo]
      exact hvs.2.2.2.2
  obtain ⟨e, s', hp, hs⟩ := hall _ _ hrun (by simp [hcs.1])
  exact Option.some_ne_none s' (hs.symm.trans (hstarved.stuck hp))

end Session

end Deltasync
