import Deltasync.ConnectionReturns

/-!
# Sessions that stop, and the one that ends

A session may stop anywhere: a process is killed, the connection is lost, the disk is full,
a worker fails.  The file then holds, block by block, some of the first bytes of the source and
the old bytes from there on.  The next session starts from what was left.  After a connection
that has ended well, the next one has nothing to do.
-/

namespace Deltasync

open Blocks Transition

/-! ## What was written of the blocks received -/

namespace Server

variable {W : ℕ} {o : ProcessNewClient} {s s' : Server W} {dest : List UInt8}

/-- The offset of each block received and what was written of it, oldest first. -/
def partsOf (received : List ReceivedBlock) : List (ℕ × List UInt8) :=
  received.reverse.map fun b => (b.offset, b.data.take b.written.length)

theorem partsOf_cons (b : ReceivedBlock) (rest : List ReceivedBlock) :
    partsOf (b :: rest) = partsOf rest ++ [(b.offset, b.data.take b.written.length)] := by
  simp [partsOf]

/-- Every part lies inside the file when the blocks do. -/
theorem InRange.partsOf (hin : s.InRange dest.length) :
    ∀ w ∈ partsOf s.received, w.1 + w.2.length ≤ dest.length := by
  intro w hw
  obtain ⟨b, hb, rfl⟩ := List.mem_map.mp hw
  have hle : b.offset + b.data.length ≤ dest.length :=
    hin (b.offset, b.data) (List.mem_map.mpr ⟨b, hb, rfl⟩)
  rw [List.length_take]
  omega

/-- The file holds what was written of each block, whether or not the writes went on. -/
def Patched (dest : List UInt8) (s : Server W) : Prop :=
  s.file.content = overwrite 0 dest (partsOf s.received)

/-- A write of `n` bytes more of the block received last. -/
theorem Patched.wrote (hP : s.Patched dest) (hw : s.Writes) (hin : s.InRange dest.length)
    {w : ResumableAsyncWriteAll} (hwr : s.writeToDisk = some w) {n : ℕ}
    (hle : w.offset + n ≤ s.writeBuffer.length) :
    (s.wrote ((s.writeBuffer.drop w.offset).take n)).Patched dest := by
  obtain ⟨-, b, rest, hrec, hdata, hoff, hcur, hwritten⟩ := hw.writing w hwr
  have hb : b.offset + b.data.length ≤ dest.length :=
    hin (b.offset, b.data) (by simp [blocks, hrec, writesOf_cons])
  have hparts := hin.partsOf
  rw [hrec, partsOf_cons] at hparts
  have hlen : (overwrite 0 dest (Server.partsOf rest)).length = dest.length :=
    length_overwrite fun v hv => hparts v (List.mem_append_left _ hv)
  have htake : (b.data.take w.offset).length = w.offset := by
    rw [List.length_take]
    omega
  have hwas : b.written.length = w.offset := by
    rw [hwritten, List.length_zipIdx, htake]
  have hcon : s.file.content =
      patch 0 (overwrite 0 dest (Server.partsOf rest)) b.offset (b.data.take w.offset) := by
    rw [hP, hrec, partsOf_cons, overwrite_concat, hwas]
  have hcurle : s.file.cursor ≤ s.file.content.length := by
    rw [hcon, length_patch (by rw [hlen, htake]; omega), hlen, hcur]
    omega
  have hchunk : ((s.writeBuffer.drop w.offset).take n).length = n := by
    rw [List.length_take, List.length_drop]
    omega
  calc (s.wrote ((s.writeBuffer.drop w.offset).take n)).file.content
      = patch 0 s.file.content s.file.cursor ((s.writeBuffer.drop w.offset).take n) :=
        content_write hcurle _
    _ = patch 0 (overwrite 0 dest (Server.partsOf rest)) b.offset
          (b.data.take w.offset ++ (b.data.drop w.offset).take n) := by
        rw [hcon, hcur, ← hdata, ← patch_append (by rw [hlen, htake]; omega), htake]
    _ = overwrite 0 dest (Server.partsOf
          (s.wrote ((s.writeBuffer.drop w.offset).take n)).received) := by
        simp only [Server.wrote, hrec, logDisk, partsOf_cons, overwrite_concat,
          List.length_append, List.length_zipIdx, hwas, hchunk, List.take_add]

/-- A change that concerns neither the file nor what was written. -/
theorem Patched.of_eq (hP : s.Patched dest) (hf : s'.file.content = s.file.content)
    (hr : partsOf s'.received = partsOf s.received) : s'.Patched dest := by
  rw [Patched, hf, hr]
  exact hP

theorem partsOf_logDisk_nil (cursor : ℕ) (received : List ReceivedBlock) :
    partsOf (logDisk cursor [] received) = partsOf received := by
  cases received <;> simp [logDisk, partsOf]

theorem Patched.step (hP : s.Patched dest) (hw : s.Writes) (hin : s.InRange dest.length)
    (hin' : s'.InRange dest.length) {e : ServerEvent W} (hs : s.step o e = some s') :
    s'.Patched dest := by
  cases move_of_step hs with
  | disk hrun hfree h =>
    obtain ⟨w, hwr, hlt, hle, hcases⟩ := disk_cases h
    rcases hcases with ⟨n, rfl, hmore, rfl⟩ | ⟨n, rfl, hlast, rfl⟩ | ⟨err, rfl, rfl⟩
    · exact hP.wrote hw hin hwr hle
    · exact hP.wrote hw hin hwr hle
    · exact hP.of_eq rfl (partsOf_logDisk_nil _ _)
  | diskDone hrun hfree h =>
    obtain ⟨w, -, -, rfl⟩ := diskDone_cases h
    exact hP
  | read hrun hfree hdisk h =>
    obtain ⟨-, ⟨rb, buf, n, -, rfl⟩ | ⟨rb, buf, off, -, rfl⟩ | ⟨rb, buf, err, -, rfl⟩⟩ :=
      read_cases h
    · exact hP
    · -- nothing of the new block is written yet
      have hle : off + buf.length ≤ dest.length :=
        hin' (off, buf) (by simp [blocks, nextIteration, writesOf_cons])
      have hlen : (overwrite 0 dest (partsOf s.received)).length = dest.length :=
        length_overwrite hin.partsOf
      refine hP.trans ?_
      simp only [nextIteration, partsOf_cons, overwrite_concat, List.length_nil, List.take_zero]
      rw [patch_nil (by omega)]
    · exact hP
  | hashOut hrun hfree h =>
    obtain ⟨w, -, -, ⟨w', t, -, rfl⟩ | ⟨w', res, -, rfl⟩⟩ := hashOut_cases h <;> exact hP
  | recv hrun hhash hdone hne h =>
    obtain ⟨g, r, -, ⟨-, rfl⟩ | ⟨err, -, rfl⟩ | ⟨-, rfl⟩ | ⟨v, -, rfl⟩⟩ := recv_cases h <;> exact hP
  | worker h | closeHasher hph h | join hph h | finish hph h => exact hP
  | seekOk hph | seekError hph | flushOk hph | flushError hph | syncOk hph | syncError hph =>
    exact hP

end Server

/-! ## Every reachable state -/

namespace Session

variable {x : Setup} {s s' : Session x.clientWorkers x.serverWorkers}

/-- The same session with another content of the destination. -/
def withContent (content : List UInt8) (s : Session x.clientWorkers x.serverWorkers) :
    Session x.clientWorkers x.serverWorkers :=
  { s with server := { s.server with file := { s.server.file with content } } }

/-- What holds whatever fails: with some content of the file, the blocks received would all
be in place. -/
def Link (x : Setup) (s : Session x.clientWorkers x.serverWorkers) : Prop :=
  ∃ content, (s.withContent content).Wire x

/-- Of the file, the frames and the blocks depend on the position of the descriptor only. -/
theorem link_of_writes (hsends : s.client.Sends x.newProcess x.source)
    (hreads : s.server.Reads x.processNewClient) (hwrites : s.server.Writes)
    (hstream : s.server.consumed ++ s.toServer <+:
      s.client.begun.flatMap (Client.frame x.newProcess x.source))
    (hsent : s.cut = false → s.server.connected = true →
      s.server.consumed ++ s.toServer = s.client.sent)
    (hwhole : s.cut = false → s.server.connected = true → s.client.connected = true →
      ∀ f ∈ s.client.finished, f.2 = Client.frame x.newProcess x.source f.1) : s.Link x := by
  suffices h : ∃ content, (s.withContent content).server.Applies x.dest by
    obtain ⟨content, hA⟩ := h
    exact ⟨content, hsends, hreads, ⟨hwrites.writing, hwrites.seeking⟩,
      .inr hA, hstream, hsent, hwhole⟩
  cases hd : s.server.writeToDisk with
  | none =>
    refine ⟨overwrite 0 x.dest (Server.writesOf s.server.finished), fun _ => rfl, ?_⟩
    intro w b rest hw
    exact absurd (hd.symm.trans hw) (by simp)
  | some w =>
    obtain ⟨-, b, rest, hrec, -⟩ := hwrites.writing w hd
    refine ⟨patch 0 (overwrite 0 x.dest (Server.writesOf rest)) b.offset (b.data.take w.offset),
      fun hnone => absurd (hd.symm.trans hnone) (by simp), ?_⟩
    intro w' b' rest' hw' hrec'
    obtain rfl : w = w' := Option.some.inj (hd.symm.trans hw')
    obtain ⟨rfl, rfl⟩ := List.cons.inj (hrec.symm.trans hrec')
    rfl

theorem link_start (x : Setup) : (start x).Link x := ⟨x.dest, wire_start x⟩

theorem Link.writes (hL : s.Link x) : s.server.Writes := by
  obtain ⟨content, hw⟩ := hL
  exact ⟨hw.writes.writing, hw.writes.seeking⟩

theorem Link.inRange (hL : s.Link x) : s.server.InRange x.dest.length := by
  obtain ⟨content, hw⟩ := hL
  exact hw.inRange

/-- A step of the server; what the workers read does not matter here. -/
theorem Link.setServer (hL : s.Link x) {e : ServerEvent x.serverWorkers}
    {v : Server x.serverWorkers} (hs : s.server.step x.processNewClient e = some v)
    {toServer toClient : List UInt8}
    (hto : v.consumed ++ toServer = s.server.consumed ++ s.toServer) :
    Link x { s with server := v, toServer, toClient } := by
  obtain ⟨content, hw⟩ := hL
  have hreads : s.server.Reads x.processNewClient := hw.reads
  have hwrites : s.server.Writes := ⟨hw.writes.writing, hw.writes.seeking⟩
  refine link_of_writes hw.sends (hreads.step hs) (hwrites.step hs) ?_ ?_ ?_
  · rw [hto]
    exact hw.stream
  · intro hcut hconn
    have hwas : s.server.connected = true := Server.connected_step hs hconn
    rw [hto]
    exact hw.sent hcut hwas
  · intro hcut hconn
    have hwas : s.server.connected = true := Server.connected_step hs hconn
    exact hw.whole hcut hwas

/-- The client and the connection do not see the file. -/
theorem step_withContent (content : List UInt8)
    {e : SessionEvent x.clientWorkers x.serverWorkers} (he : ∀ e', e ≠ .server e')
    (hs : s.step x e = some s') :
    (s.withContent content).step x e = some (s'.withContent content) := by
  cases e with
  | client e =>
    have hstreams : (s.withContent content).clientStreams x e = s.clientStreams x e := by
      cases e <;> rfl
    simp only [Session.step, hstreams] at hs ⊢
    split at hs
    · next hb hc =>
      obtain rfl := Option.some.inj hs
      rw [show (s.withContent content).client = s.client from rfl, hb, hc]
      rfl
    · cases hs
  | server e => exact absurd rfl (he e)
  | cut n =>
    obtain rfl := Option.some.inj hs
    rfl

theorem Link.step (hL : s.Link x) {e : SessionEvent x.clientWorkers x.serverWorkers}
    (hs : s.step x e = some s') : s'.Link x := by
  have hother : (∀ e', e ≠ .server e') → s'.Link x := by
    intro he
    obtain ⟨content, hw⟩ := hL
    exact ⟨content, hw.step (fun err => he _) (step_withContent content he hs)⟩
  cases move_of_step hs with
  | server hwrite hread h =>
    exact hL.setServer h (by rw [(Server.sameReader_step h hread).consumed])
  | hashOut hcut hconn h | hashLost hdown h =>
    exact hL.setServer h (by rw [(Server.sameReader_step h (by simp)).consumed])
  | serverRead hne hstream h =>
    refine hL.setServer h ?_
    rw [Server.consumed_step h, hstream, List.append_assoc]
    rfl
  | serverReadEnd hnil hend h => exact hL.setServer h (by simp [Server.consumed_step h, hnil])
  | client hwrite hread h | write hcut hconn h | writeLost hdown h => exact hother (by simp)
  | read hne hstream h | readEnd hnil hend h | cut => exact hother (by simp)

/-- What holds in every reachable state. -/
structure Stops (x : Setup) (s : Session x.clientWorkers x.serverWorkers) : Prop where
  link : s.Link x
  patched : s.server.Patched x.dest

theorem Stops.step (hS : s.Stops x) {e : SessionEvent x.clientWorkers x.serverWorkers}
    (hs : s.step x e = some s') : s'.Stops x := by
  have hlink := hS.link.step hs
  refine ⟨hlink, ?_⟩
  cases move_of_step hs with
  | server hwrite hread h | hashOut hcut hconn h | hashLost hdown h =>
    exact hS.patched.step hS.link.writes hS.link.inRange hlink.inRange h
  | serverRead hne hstream h | serverReadEnd hnil hend h =>
    exact hS.patched.step hS.link.writes hS.link.inRange hlink.inRange h
  | client | write | writeLost | read | readEnd | cut => exact hS.patched

theorem stops_of_run {es : List (SessionEvent x.clientWorkers x.serverWorkers)}
    (h : run (step x) (start x) es = some s) : s.Stops x :=
  run_invariant (fun _ _ _ hS hs => hS.step hs) ⟨link_start x, rfl⟩ h

/-- Each part written is the beginning of a block of the source that the client has begun. -/
theorem Stops.parts (hS : s.Stops x) : ∀ w ∈ Server.partsOf s.server.received,
    ∃ k n, (k ∈ s.client.begun ∧ k * x.blockSize ≤ x.source.length) ∧
      w = (k * x.blockSize, (block x.blockSize x.source k).take n) := by
  obtain ⟨content, hw⟩ := hS.link
  obtain ⟨ks, hbegun, hin, hblocks, -⟩ := hw.received
  intro w hmem
  obtain ⟨b, hb, rfl⟩ := List.mem_map.mp hmem
  have hblock : (b.offset, b.data) ∈ (s.withContent content).server.blocks :=
    List.mem_map.mpr ⟨b, hb, rfl⟩
  rw [hblocks] at hblock
  obtain ⟨k, hk, heq⟩ := List.mem_map.mp hblock
  obtain ⟨hoff, hdata⟩ := Prod.mk.inj heq
  refine ⟨k, b.written.length, ⟨hbegun.subset hk, (hin k hk).le⟩, ?_⟩
  rw [hoff, hdata]

theorem Stops.length_eq (hS : s.Stops x) :
    s.server.file.content.length = x.source.length := by
  rw [hS.patched, length_overwrite hS.link.inRange.partsOf, x.dest_length]

/-- Each block is one of the source as far as it was written. -/
theorem Stops.block_eq (hS : s.Stops x) (k : ℕ) :
    ∃ n, (n ≠ 0 → k ∈ s.client.begun) ∧ block x.blockSize s.server.file.content k =
      graft n (block x.blockSize x.source k) (block x.blockSize x.dest k) := by
  have hparts : ∀ w ∈ Server.partsOf s.server.received, ∃ k n, k * x.blockSize ≤ x.source.length ∧
      w = (k * x.blockSize, (block x.blockSize x.source k).take n) := by
    intro w hw
    obtain ⟨k, n, ⟨-, hk⟩, rfl⟩ := hS.parts w hw
    exact ⟨k, n, hk, rfl⟩
  obtain ⟨n, hn, hblock⟩ := block_overwrite_take x.dest_length hparts k
  refine ⟨n, fun h0 => ?_, by rw [hS.patched]; exact hblock⟩
  obtain ⟨w, hw, hwk⟩ := hn h0
  obtain ⟨j, m, ⟨hj, -⟩, rfl⟩ := hS.parts w hw
  rwa [← Nat.eq_of_mul_eq_mul_right x.blockSize_pos hwk]

/-- A session may be stopped at any moment.  In every reachable state, whatever has failed on
either side and wherever the connection was cut, the destination has its size, and each of its
blocks is some of the first bytes of the block of the source, and then the old block; all of the
old block when the client has not begun to send it. -/
theorem stopped_blocks {es : List (SessionEvent x.clientWorkers x.serverWorkers)}
    (h : run (step x) (start x) es = some s) :
    s.server.file.content.length = x.source.length ∧
      ∀ k, ∃ n, (n ≠ 0 → k ∈ s.client.begun) ∧ block x.blockSize s.server.file.content k =
        graft n (block x.blockSize x.source k) (block x.blockSize x.dest k) :=
  ⟨(stops_of_run h).length_eq, (stops_of_run h).block_eq⟩

theorem twoBytes_range : 1 ≤ 2 ∧ 2 ≤ 2 ^ 30 := by decide

theorem twoBytes_fit : OffsetsFit 64 2 2 1 := by decide

/-- Two bytes in one block, both of which differ. -/
def oneBlock : Setup := twoBlocks.withBlockSize 2 twoBytes_range twoBytes_fit twoBytes_fit

/-- The workers read the block, the server sends its hash `hash` and the client compares it. -/
def blockRun (hash : String) : List (SessionEvent 1 1) :=
  let worker (side : WorkerEvent → SessionEvent 1 1) :=
    [side (.openFile (.ok ())), side (.seekStart (.ok ())), side .loopHead, side (.read 2),
      side .send]
  worker (.server ∘ .worker solo) ++
    [.server (.recv .enter), .server (.recv .poll), .server (.worker solo .sendStep),
      .server (.recv .take), .server (.recv .finish), .server (.hashOut (.ok 16)),
      .client (.read (.ok ((writeString hash).take 8))),
      .client (.read (.ok ((writeString hash).drop 8)))] ++
    worker (.client ∘ .worker solo) ++
    [.client (.recv .enter), .client (.recv .poll), .client (.worker solo .sendStep),
      .client (.recv .take), .client (.recv .finish)]

/-- The frame goes over the connection, and the server seeks. -/
def frameRun : List (SessionEvent 1 1) :=
  [.client (.write (.ok 8)), .server (.read (.ok [0, 0, 0, 0, 0, 0, 0, 0])),
    .client (.write (.ok 2)), .server (.read (.ok [7, 8])), .server (.seek (.ok ()))]

/-- The disk takes one byte of the block, and refuses the other. -/
def fullDiskRun : List (SessionEvent 1 1) :=
  blockRun "9169e88a" ++ frameRun ++ [.server (.disk (.ok 1)), .server (.disk (.error "ENOSPC"))]

theorem stopped_blocks_fullDisk :
    ∃ s, run (step oneBlock) (start oneBlock) fullDiskRun = some s ∧
      s.server.file.content = [7, 6] ∧
      ∀ k, ∃ n, (n ≠ 0 → k ∈ s.client.begun) ∧
        block 2 s.server.file.content k = graft n (block 2 [7, 8] k) (block 2 [5, 6] k) := by
  have hrun : (run (step oneBlock) (start oneBlock) fullDiskRun).map
      (fun s => s.server.file.content) = some [7, 6] := by decide +kernel
  obtain ⟨s, hs, heq⟩ := Option.map_eq_some_iff.mp hrun
  exact ⟨s, hs, heq, (stopped_blocks hs).2⟩

/-! ## Sessions one after the other -/

/-- What the destination can be after any number of sessions for one source and one size of the
blocks, each stopped at any moment. -/
inductive Remains (x : Setup) : List UInt8 → Prop where
  | untouched : Remains x x.dest
  | stopped {y : Setup} {s : Session y.clientWorkers y.serverWorkers}
      {es : List (SessionEvent y.clientWorkers y.serverWorkers)} (h : Remains x y.dest)
      (hsource : y.source = x.source) (hsize : y.blockSize = x.blockSize)
      (hrun : run (step y) (start y) es = some s) : Remains x s.server.file.content

/-- However often it was begun, a block is grafted once. -/
theorem Remains.block_eq {dest : List UInt8} (h : Remains x dest) (k : ℕ) :
    ∃ n, block x.blockSize dest k =
      graft n (block x.blockSize x.source k) (block x.blockSize x.dest k) := by
  induction h with
  | untouched => exact ⟨0, rfl⟩
  | @stopped y s es h hsource hsize hrun ih =>
    obtain ⟨m, -, hm⟩ := (stops_of_run hrun).block_eq k
    obtain ⟨n, hn⟩ := ih
    rw [hsource, hsize] at hm
    have hlen : (block x.blockSize x.source k).length = (block x.blockSize x.dest k).length := by
      rw [length_block, length_block, x.dest_length]
    exact ⟨max m n, by rw [hm, hn, graft_graft hlen]⟩

/-- The client begins no block whose hash is that of the destination. -/
theorem Sound.not_begun (hS : s.Sound x) {k : ℕ}
    (hk : hashData x.digests (block x.blockSize x.source k) x.hashAlgorithm =
      hashData x.digests (block x.blockSize x.dest k) x.hashAlgorithm) :
    k ∉ s.client.begun := by
  intro hmem
  obtain ⟨hlt, hne⟩ := Client.mem_diverging.mp (hS.begun_diverging.subset hmem)
  have hle := hS.wire.sends.counts.le_decoded
  have hdec := List.getElem?_eq_getElem (show k < s.client.decoded.length by omega)
  apply hne
  rw [hdec, hS.hash_eq hdec, ← hk]
  rfl

end Session

/-! ## Connections one after the other -/

namespace Connection

variable {x : Peers} {s : Connection x.clientWorkers x.serverWorkers}
  {es : List (ConnectionEvent x.clientWorkers x.serverWorkers)}

/-- A client that has returned `Ok(())` has been in a session. -/
theorem runs_of_ok (h : run (restrict succeeds (step x)) (start x) es = some s)
    {r : Except String StatusCode} (hclient : s.client.result = some (.ok ()))
    (hserver : s.server.phase.result = some r) :
    ∃ hv ds t us u, s.Runs x hv ds t us u := by
  cases tracks_of_run h with
  | opens hO hb hcount =>
    obtain ⟨⟨err, herr⟩, -⟩ := hO.result_eq hb hclient hserver
    cases herr
  | runs hR hcount hidle => exact ⟨_, _, _, _, _, hR⟩

/-- What a connection leaves has the hashes of the source. -/
theorem hash_merged (x : Peers) (k : ℕ) :
    hashData x.digests (x.merged k) x.options.hashAlgorithm =
      hashData x.digests (block x.options.blockSize.toNat x.source k) x.options.hashAlgorithm := by
  unfold Peers.merged
  split_ifs with heq
  · exact heq.symm
  · rfl

/-- A second connection has nothing to do.  After one in which nothing fails past the third status
and both sides have returned, the client with `Ok(())`, every such connection for the same source,
with the same options, leaves all files as they are and begins no frame, whether or not hashes
have collided. -/
theorem connection_again {r r' : Except String StatusCode}
    (h : run (restrict succeeds (step x)) (start x) es = some s)
    (hclient : s.client.result = some (.ok ())) (hserver : s.server.phase.result = some r)
    {y : Peers} (hdigests : y.digests = x.digests) (hoptions : y.options = x.options)
    (hsource : y.source = x.source) (hfiles : y.files = s.server.files)
    {u : Connection y.clientWorkers y.serverWorkers}
    {es' : List (ConnectionEvent y.clientWorkers y.serverWorkers)}
    (h' : run (restrict succeeds (step y)) (start y) es' = some u)
    (hclient' : u.client.result = some (.ok ())) (hserver' : u.server.phase.result = some r') :
    u.server.files = s.server.files ∧ ∀ a c, u.client = .session a c → c.begun = [] := by
  obtain ⟨hv, ds, t, us, v, hR⟩ := runs_of_ok h hclient hserver
  obtain ⟨hv', ds', t', us', v', hR'⟩ := runs_of_ok h' hclient' hserver'
  obtain ⟨-, -, hlen, hblocks⟩ := hR.result_eq hclient hserver
  obtain ⟨-, -, hlen', hblocks'⟩ := hR'.result_eq hclient' hserver'
  have hpath : y.destPath = x.destPath := by rw [Peers.destPath, hoptions]; rfl
  have hdest : y.resized = v.server.file.content := by
    rw [Peers.resized, hpath, hfiles, hR.files, Function.update_self, hsource, ← hlen]
    exact resize_length _ _
  have hhash : ∀ k, hashData y.digests (block y.options.blockSize.toNat y.source k)
      y.options.hashAlgorithm = hashData y.digests (block y.options.blockSize.toNat y.resized k)
      y.options.hashAlgorithm := by
    intro k
    rw [hdest, hdigests, hoptions, hsource, hblocks, hash_merged]
  have hsame : v'.server.file.content = v.server.file.content := by
    apply eq_of_block_eq hv.blockSize_range.1
    intro k
    rw [← hoptions, hblocks', Peers.merged, if_pos (hhash k), hdest]
  constructor
  · rw [hR'.files, hsame, hpath, hfiles, hR.files, Function.update_idem]
  · intro a c hcl
    have hin := hR'.clientIn
    rw [hcl] at hin
    obtain ⟨-, rfl⟩ := hin
    apply List.eq_nil_iff_forall_not_mem.mpr
    intro k
    exact hR'.sound.not_begun (hhash k)

/-- The path `d` after `fullRun`. -/
def syncedFiles : Files := fun path => if path = "d" then some [7, 8] else none

theorem answers_syncedFiles (path : String) :
    syncedFiles.answers path (smallFilesystem.metadata path) = true := by
  unfold syncedFiles smallFilesystem
  by_cases hpath : path = "d" <;> simp [Files.answers, hpath]

def syncedPeers : Peers :=
  { smallPeers with files := syncedFiles, answers := answers_syncedFiles }

/-- No block differs. -/
def idleRun : List (ConnectionEvent 1 1) :=
  let session : List (SessionEvent 1 1) :=
    Session.hashRun [.openFile (.ok ()), .seekStart (.ok ())] "ba37b786" ++
    Session.compareRun [.openFile (.ok ()), .seekStart (.ok ())] ++
    Session.hashRun [.reclaim, .seekNext (.ok ())] "9e0ba4d8" ++
    Session.compareRun [.reclaim, .seekNext (.ok ())] ++ [.client .dropLocals] ++
    Session.leaveRun (.client ∘ .worker solo) (.client .closeHasher) (.client .join)
      (.client .finish) ++
    [.server (.read (.ok [])), .server (.flush (.ok ())), .server (.sync (.ok ()))] ++
    Session.leaveRun (.server ∘ .worker solo) (.server .closeHasher) (.server .join)
      (.server .finish)
  handshakeRun ++ session.filterMap ofSession

theorem connection_again_synced :
    ∃ s u, run (restrict succeeds (step smallPeers)) (start smallPeers) fullRun = some s ∧
      run (restrict succeeds (step syncedPeers)) (start syncedPeers) idleRun = some u ∧
      u.server.files = s.server.files := by
  have hfirst : (run (restrict succeeds (step smallPeers)) (start smallPeers) fullRun).map
      (fun s => (s.client.result, s.server.phase.result, s.server.files "d")) =
      some (some (.ok ()), some (.ok .ack), some [7, 8]) := by decide +kernel
  have hsecond : (run (restrict succeeds (step syncedPeers)) (start syncedPeers) idleRun).map
      (fun s => (s.client.result, s.server.phase.result)) =
      some (some (.ok ()), some (.ok .ack)) := by decide +kernel
  obtain ⟨s, hs, heq⟩ := Option.map_eq_some_iff.mp hfirst
  obtain ⟨u, hu, heq'⟩ := Option.map_eq_some_iff.mp hsecond
  simp only [Prod.mk.injEq] at heq heq'
  have hfiles : syncedPeers.files = s.server.files := by
    obtain ⟨hv, ds, t, us, v, hR⟩ := runs_of_ok hs heq.1 heq.2.1
    funext path
    by_cases hpath : path = "d"
    · rw [hpath, heq.2.2]
      rfl
    · rw [hR.files, Function.update_of_ne (show path ≠ smallPeers.destPath from hpath)]
      simp [syncedPeers, smallPeers, syncedFiles, smallFiles, hpath]
  exact ⟨s, u, hs, hu,
    (connection_again (y := syncedPeers) hs heq.1 heq.2.1 rfl rfl rfl hfiles hu heq'.1 heq'.2).1⟩

end Connection

end Deltasync
