import Deltasync.SessionWire
import Deltasync.ServerHash
import Deltasync.ClientExact

/-!
# A session in which nothing fails

The hashes that the client decodes are the first ones that the server's workers
delivered.  Block `k` is sent only after hash `k` was decoded, hence after the
server's worker has read the block: overwriting it does not disturb the hashes
still to come, which are those of the original destination.

The client closes the connection with every diverging block sent, and the server
leaves its loop only after the last byte of the stream.
-/

namespace Deltasync

open Blocks HashStream Transition

/-- No operation of the client fails in this step. -/
def ClientEvent.succeeds {W : ℕ} : ClientEvent W → Bool
  | .write (.error _) | .read (.error _) => false
  | .worker _ e => e.succeeds
  | _ => true

theorem ClientEvent.workersSucceed {W : ℕ} (c : Client W) {e : ClientEvent W}
    (hok : e.succeeds = true) : c.workersSucceed e = true := by
  cases e with
  | worker i e => exact hok
  | _ => rfl

/-- Nothing fails in this step of a session. -/
def SessionEvent.succeeds {Wc Ws : ℕ} : SessionEvent Wc Ws → Bool
  | .client e => e.succeeds
  | .server e => e.succeeds
  | .cut _ => false

theorem Setup.fits (x : Setup) : Fits x.processNewClient.hashFile x.serverWorkers x.dest :=
  fits_of_offsets _ x.blockSize_range x.serverWorkers_range (x.dest_length ▸ x.serverFits)

namespace Session

variable {x : Setup} {s s' : Session x.clientWorkers x.serverWorkers}

/-- What holds while nothing fails. -/
structure Sound (x : Setup) (s : Session x.clientWorkers x.serverWorkers) : Prop where
  wire : s.Wire x
  uncut : s.cut = false
  finishes : s.client.Finishes x.newProcess x.source
  whole : ∀ f ∈ s.client.finished, f.2 = Client.frame x.newProcess x.source f.1
  reads : s.client.Reads x.newProcess
  remote : s.client.remoteHashesDone = false
  announces : s.server.Announces x.processNewClient x.dest
  toServer : s.server.consumed ++ s.toServer = s.client.sent
  toClient : s.client.connected = true → s.client.consumed ++ s.toClient = s.server.sent
  decoded : s.client.decoded <+: s.server.hashes
  closed : ¬ s.server.InLoop → s.client.connected = false ∧ s.toServer = []

theorem sound_start (x : Setup) : (start x).Sound x where
  wire := wire_start x
  uncut := rfl
  finishes := Client.finishes_new
  whole := by simp [start, Client.new, Client.finished]
  reads := Client.reads_new
  remote := rfl
  announces := Server.announces_new x.blockSize_pos
  toServer := rfl
  toClient _ := rfl
  decoded := List.nil_prefix
  closed h := absurd (.inl rfl) h

/-! ## The stream to the client -/

theorem Sound.length_hash (hS : s.Sound x) {hash : String} (h : hash ∈ s.server.hashes) :
    (asBytes hash).length ≤ 256 := by
  obtain ⟨k, hk⟩ := List.getElem?_of_mem h
  rw [(hS.announces.owns.hash_eq hS.announces.content hk).2.1]
  exact length_hashData _ _ _

/-- So that the client can read it. -/
theorem Sound.length_hash_lt (hS : s.Sound x) {hash : String} (h : hash ∈ s.server.hashes) :
    (asBytes hash).length < 2 ^ x.clientBits :=
  lt_of_le_of_lt (hS.length_hash h) (lt_two_pow x.clientBits_range.1)

/-- What the client has read, and what is on its way, are the hashes delivered. -/
theorem Sound.hashes_eq (hS : s.Sound x) (hc : s.client.connected = true) :
    s.client.consumed ++ s.toClient ++ s.server.unsent = s.server.hashes.flatMap writeString := by
  rw [hS.toClient hc, hS.announces.sent]

/-- The hashes decoded from the beginning of that stream are the first ones delivered, and
`got` is what the client has read of the next one. -/
theorem Sound.to_come (hS : s.Sound x) (hc : s.client.connected = true) :
    ∃ got m, ResumableReadString.Partial x.clientBits 256 s.client.readString got ∧
      s.server.hashes = s.client.decoded ++ m ∧
      (∀ hash ∈ m, ReadsAs x.clientBits 256 (writeString hash) hash) ∧
      s.client.consumed = s.client.decoded.flatMap writeString ++ got ∧
      got ++ (s.toClient ++ s.server.unsent) = m.flatMap writeString := by
  obtain ⟨frames, got, hframes, hcon, hp⟩ := hS.reads
  have hall := hS.hashes_eq hc
  rw [hcon, List.append_assoc, List.append_assoc] at hall
  have hpre : frames.flatten ++ (got ++ (s.toClient ++ s.server.unsent)) <+:
      s.server.hashes.flatMap writeString := by
    rw [hall]
  obtain ⟨hflat, m, hm, -⟩ := exists_strings x.clientBits_range.2 (lt_two_pow x.clientBits_range.1)
    hframes (fun _ h => hS.length_hash_lt h) hpre
  refine ⟨got, m, hp hS.remote, hm, fun hash h => ?_, by rw [hcon, hflat], ?_⟩
  · have hmem : hash ∈ s.server.hashes := by rw [hm]; exact List.mem_append_right _ h
    exact readsAs_writeString x.clientBits_range.2 (hS.length_hash_lt hmem) (hS.length_hash hmem)
  · rw [hm, hflat, List.flatMap_append] at hall
    exact List.append_cancel_left hall

/-- A read of the client: inside a hash, or at the end of the next one. -/
theorem Sound.client_read (hS : s.Sound x) {bytes rest : List UInt8}
    {c : Client x.clientWorkers} (hne : bytes ≠ []) (hstream : s.toClient = bytes ++ rest)
    (hs : s.client.step x.newProcess x.source (.read (.ok bytes)) = some c) :
    c.remoteHashesDone = false ∧ c.consumed = s.client.consumed ++ bytes ∧
      c.decoded <+: s.server.hashes := by
  cases Client.move_of_step hs with
  | read hrun hfree hdone h =>
    have hc : s.client.connected = true := by rw [Client.connected, hrun]
    obtain ⟨got, m, hp, hm, hcode, -, hcome⟩ := hS.to_come hc
    have hcon := (Client.read_grows h).1
    refine ⟨?_, hcon, ?_⟩
    · rw [hstream] at hcome
      cases m with
      | nil => simp [hne] at hcome
      | cons hash m =>
        have hnext : got ++ bytes ++ (rest ++ s.server.unsent) =
            writeString hash ++ m.flatMap writeString := by
          rw [← List.flatMap_cons, ← hcome]
          simp only [List.append_assoc]
        have hnew := hcode hash List.mem_cons_self
        exact Client.read_goes_on (o := x.newProcess) hp hdone hne hnew hnext h
    · have hpre : c.consumed <+: s.server.hashes.flatMap writeString := by
        rw [hcon, ← hS.hashes_eq hc, hstream, List.append_assoc, List.append_assoc,
          ← List.append_assoc s.client.consumed]
        exact List.prefix_append _ _
      have hdec : c.Decodes x.newProcess s.server.hashes := ⟨hS.reads.step hs, hpre⟩
      exact hdec.decoded x.clientBits_range fun _ hmem => hS.length_hash_lt hmem

/-! ## Steps of the client -/

theorem Sound.connected_of_running (hS : s.Sound x) (hrun : s.client.phase = .running) :
    s.client.connected = true ∧ s.server.InLoop ∧ s.server.connected = true := by
  have hc : s.client.connected = true := by rw [Client.connected, hrun]
  have hin : s.server.InLoop := by
    by_contra hcon
    rw [(hS.closed hcon).1] at hc
    cases hc
  refine ⟨hc, hin, ?_⟩
  rcases hin with h | ⟨off, h⟩ <;> rw [Server.connected, h]

theorem Sound.client_step (hS : s.Sound x) {e : ClientEvent x.clientWorkers}
    (hok : e.succeeds = true) (hs : s.step x (.client e) = some s') : s'.Sound x := by
  have hwire := hS.wire.step (by simp) hs
  have hsends := hS.wire.sends
  have herr : ∀ err, e ≠ .write (.error err) := by
    rintro err rfl
    cases hok
  have hpart : ∀ {c}, s.client.step x.newProcess x.source e = some c →
      c.Finishes x.newProcess x.source ∧
      (∀ f ∈ c.finished, f.2 = Client.frame x.newProcess x.source f.1) ∧ c.Reads x.newProcess := by
    intro c h
    refine ⟨hS.finishes.step x.reads hsends (ClientEvent.workersSucceed _ hok) h, ?_,
      hS.reads.step h⟩
    rcases hsends.finished_step (hS.finishes.dropLocals h) h with
      ⟨hfin, -⟩ | ⟨k, bytes, hfin, hk⟩
    · rw [hfin]
      exact hS.whole
    · rw [hfin, List.forall_mem_cons]
      exact ⟨hk.mpr herr, hS.whole⟩
  cases move_of_step hs with
  | client hwrite hread h =>
    obtain ⟨h1, h2, h3⟩ := hpart h
    have hk := Client.sameReader_step h hread
    refine ⟨hwire, hS.uncut, h1, h2, h3, hk.done.trans hS.remote, hS.announces, ?_, fun hc => ?_,
      ?_, fun hin => ⟨?_, (hS.closed hin).2⟩⟩
    · rw [(Client.begins_step h hwrite).sent]
      exact hS.toServer
    · rw [hk.consumed]
      exact hS.toClient (Client.connected_step h hc).1
    · rw [hk.decoded]
      exact hS.decoded
    · by_contra hcon
      have hc := (Client.connected_step h (by simpa using hcon)).1
      rw [(hS.closed hin).1] at hc
      cases hc
  | write hcut hconn h =>
    obtain ⟨h1, h2, h3⟩ := hpart h
    have hk := Client.sameReader_step h (by simp)
    obtain ⟨hc, hin, -⟩ := hS.connected_of_running (Client.running_of_write h)
    refine ⟨hwire, hS.uncut, h1, h2, h3, hk.done.trans hS.remote, hS.announces, ?_, fun _ => ?_,
      ?_, fun hcon => absurd hin hcon⟩
    · rw [(hsends.sent_write h).1, ← List.append_assoc, hS.toServer]
      rfl
    · rw [hk.consumed]
      exact hS.toClient hc
    · rw [hk.decoded]
      exact hS.decoded
  | writeLost hdown h =>
    obtain ⟨-, -, hconn⟩ := hS.connected_of_running (Client.running_of_write h)
    simp [hS.uncut, hconn] at hdown
  | read hne hstream h =>
    obtain ⟨h1, h2, h3⟩ := hpart h
    obtain ⟨hdone, hcon, hdec⟩ := hS.client_read hne hstream h
    obtain ⟨hc, hin, -⟩ := hS.connected_of_running (Client.running_of_read h)
    -- what was read left the stream, and the rest of it is still to come
    refine ⟨hwire, hS.uncut, h1, h2, h3, hdone, hS.announces, ?_, fun _ => ?_, hdec,
      fun hcon => absurd hin hcon⟩
    · rw [(Client.begins_step h (by simp)).sent]
      exact hS.toServer
    · rw [hcon, List.append_assoc, ← hstream]
      exact hS.toClient hc
  | readEnd hnil hend h =>
    obtain ⟨-, -, hconn⟩ := hS.connected_of_running (Client.running_of_read h)
    simp [hS.uncut, hconn] at hend

/-! ## Steps of the server -/

/-- The blocks that the workers of the server have not read yet are in place. -/
theorem Sound.in_place (hS : s.Sound x) {k : ℕ} (hk : s.server.hasher.chan.placed.length ≤ k) :
    block x.blockSize s.server.file.content k = block x.blockSize x.dest k := by
  refine hS.wire.untouched hS.announces.unfailed fun hmem => ?_
  obtain ⟨f, hf, rfl⟩ := List.mem_map.mp hmem
  have h1 := (hS.wire.sends.frames.accepted f (List.mem_reverse.mp hf)).1
  have h2 := hS.wire.sends.counts.le_decoded
  have h3 := hS.decoded.length_le
  have h4 : s.server.hashes.length ≤ s.server.hasher.chan.placed.length := by
    rw [Server.hashes, List.length_map, hS.announces.owns.control.chan.placed_eq,
      List.length_append]
    omega
  omega

theorem Sound.setServer (hS : s.Sound x) {e : ServerEvent x.serverWorkers}
    {v : Server x.serverWorkers} (hok : e.succeeds = true)
    (hs : s.server.step x.processNewClient e = some v) {toServer toClient : List UInt8}
    (hto : v.consumed ++ toServer = s.server.consumed ++ s.toServer)
    (hsent : s.client.connected = true → s.client.consumed ++ toClient = v.sent)
    (hnil : s.toServer = [] → toServer = [])
    (hend : ∀ r, e = .read r → bytesRead r = [] → s.client.connected = false ∧ s.toServer = []) :
    Sound x { s with server := v, toServer, toClient } := by
  have hdisk : ∀ err, e ≠ .disk (.error err) := by
    rintro err rfl
    cases hok
  have hann := hS.announces.step x.fits (fun _ hk => hS.in_place hk) hok hs
  refine ⟨hS.wire.setServer hdisk hs hto, hS.uncut, hS.finishes, hS.whole, hS.reads, hS.remote,
    hann, hto.trans hS.toServer, hsent,
    hS.decoded.trans (hS.announces.owns.hashes_step hs), fun hout => ?_⟩
  by_cases hin : s.server.InLoop
  · rcases hS.wire.reads.inLoop_step hin hs with h1 | h1 | ⟨r, rfl, hr⟩
    · exact absurd h1 hout
    · exact absurd h1 hann.unfailed
    · exact ⟨(hend r rfl hr).1, hnil (hend r rfl hr).2⟩
  · exact ⟨(hS.closed hin).1, hnil (hS.closed hin).2⟩

theorem Sound.server_step (hS : s.Sound x) {e : ServerEvent x.serverWorkers}
    (hok : e.succeeds = true) (hs : s.step x (.server e) = some s') : s'.Sound x := by
  cases move_of_step hs with
  | server hwrite hread h =>
    refine hS.setServer hok h (by rw [(Server.sameReader_step h hread).consumed]) (fun hc => ?_) id
      fun r hr => absurd hr (hread r)
    rw [Server.sent_step h hwrite]
    exact hS.toClient hc
  | hashOut hcut hconn h =>
    refine hS.setServer hok h (by rw [(Server.sameReader_step h (by simp)).consumed]) (fun hc => ?_)
      id (by simp)
    rw [Server.sent_hashOut h, ← List.append_assoc, hS.toClient hc]
    rfl
  | hashLost hdown h =>
    refine hS.setServer hok h (by rw [(Server.sameReader_step h (by simp)).consumed]) (fun hc => ?_)
      id (by simp)
    simp [hS.uncut, hc] at hdown
  | @serverRead bytes rest v hne hstream h =>
    refine hS.setServer hok h ?_ (fun hc => ?_) (fun hnil => ?_) ?_
    · rw [Server.consumed_step h, hstream, List.append_assoc]
      rfl
    · rw [Server.sent_step h (by simp)]
      exact hS.toClient hc
    · simp [hstream, hne] at hnil
    · rintro r hr hnil
      cases hr
      exact absurd hnil hne
  | serverReadEnd hnil hend h =>
    refine hS.setServer hok h (by simp [Server.consumed_step h, hnil])
      (fun hc => ?_) id fun r _ _ => ?_
    · rw [Server.sent_step h (by simp)]
      exact hS.toClient hc
    · rcases hend with hcut | ⟨h1, h2⟩
      · simp [hS.uncut] at hcut
      · exact ⟨h2, h1⟩

theorem Sound.step (hS : s.Sound x) {e : SessionEvent x.clientWorkers x.serverWorkers}
    (hok : e.succeeds = true) (hs : s.step x e = some s') : s'.Sound x := by
  cases e with
  | client e => exact hS.client_step hok hs
  | server e => exact hS.server_step hok hs
  | cut n => cases hok

/-! ## The result of a session -/

def succeeds {Wc Ws : ℕ} (_ : Session Wc Ws) (e : SessionEvent Wc Ws) : Bool := e.succeeds

theorem sound_of_run {es : List (SessionEvent x.clientWorkers x.serverWorkers)}
    (h : run (restrict succeeds (step x)) (start x) es = some s) : s.Sound x := by
  refine run_invariant (I := fun s => s.Sound x) ?_ (sound_start x) h
  intro u e t hS ht
  obtain ⟨hok, ht⟩ := restrict_eq_some.mp ht
  exact hS.step hok ht

/-- When both loops are left, the blocks received are the diverging ones. -/
theorem Sound.received_eq (hS : s.Sound x) {r : Except String Unit}
    (hr : s.client.phase.result = some r) (hin : ¬ s.server.InLoop) :
    s.server.blocks = (Client.diverging x.newProcess x.source s.client.decoded
      (divCeil x.source.length x.blockSize)).map
        fun k => (k * x.blockSize, block x.blockSize x.source k) := by
  obtain ⟨-, hover, hw, -, hbegun⟩ := hS.finishes.ended r hr
  rw [hS.wire.sends.counts.compared hover, x.reads.endBlockIdx_eq] at hbegun
  have hfin : s.client.finished = s.client.accepted := by simp [Client.finished, hw]
  have hsent : s.client.sent = s.client.begun.flatMap (Client.frame x.newProcess x.source) := by
    rw [Client.sent, Client.begun, List.flatMap_map]
    exact List.flatMap_congr fun f hf => hS.whole f (by rw [hfin]; exact List.mem_reverse.mp hf)
  obtain ⟨frames, got, hframes, hcon, hread⟩ := hS.wire.reads
  have hall := hS.toServer
  rw [(hS.closed hin).2, List.append_nil, hcon, hsent, Client.begun, hbegun, List.flatMap_def,
    ← List.append_nil (List.flatten (List.map _ _))] at hall
  have hcode := Server.isPrefixCode_isFrame x.processNewClient
  have hdiv : ∀ k ∈ Client.diverging x.newProcess x.source s.client.decoded
      (divCeil x.source.length x.blockSize), k * x.blockSize < x.source.length := fun k hk =>
    (lt_divCeil_iff x.blockSize_pos).mp (Client.mem_diverging.mp hk).1
  exact (hcode.eq_of_append_eq hframes (x.isFrame_blocks hdiv)
    (fun f b rest hf => hread.incomplete f b rest hf)
    (fun f b rest hf heq => hcode.ne_nil f b hf (List.append_eq_nil_iff.mp heq).1) hall).2

/-- A block that is not diverging has the same hash on both sides. -/
theorem Sound.hash_eq (hS : s.Sound x) {k : ℕ} {hash : String}
    (hk : s.client.decoded[k]? = some hash) :
    hash = hashData x.digests (block x.blockSize x.dest k) x.hashAlgorithm := by
  obtain ⟨m, hm⟩ := hS.decoded
  have hlt := (List.getElem?_eq_some_iff.mp hk).1
  have hk' : s.server.hashes[k]? = some hash := by rw [← hm, List.getElem?_append_left hlt, hk]
  exact (hS.announces.owns.hash_eq hS.announces.content hk').2.1

/-- A session that ends well has made the destination equal to the source.  In every run in
which nothing fails, whatever the interleaving, the sizes of reads and writes and the
cancellations: when the client has returned `Ok(())` and the server
`Ok(StatusCode::Ack)`, the destination has the length and the content of the source,
unless the hashes of two different blocks with the same index collide. -/
theorem session_correct {es : List (SessionEvent x.clientWorkers x.serverWorkers)}
    (h : run (restrict succeeds (step x)) (start x) es = some s)
    (hclient : s.client.phase = .returned (.ok ()))
    (hserver : s.server.phase = .returned (.ok .ack))
    (hcollision : ∀ k, hashData x.digests (block x.blockSize x.source k) x.hashAlgorithm =
        hashData x.digests (block x.blockSize x.dest k) x.hashAlgorithm →
      block x.blockSize x.source k = block x.blockSize x.dest k) :
    s.server.file.content.length = x.source.length ∧ s.server.file.content = x.source := by
  have hS := sound_of_run h
  have hin : ¬ s.server.InLoop := by
    rintro (h0 | ⟨off, h0⟩) <;> simp [hserver] at h0
  have hcon := (hS.wire.applies.resolve_left hS.announces.unfailed).content_eq hS.wire.writes hin
    hS.announces.unfailed
  rw [hS.received_eq (by rw [hclient]; rfl) hin] at hcon
  suffices hall : s.server.file.content = x.source from ⟨by rw [hall], hall⟩
  refine eq_of_block_eq x.blockSize_pos fun k => ?_
  rw [hcon, block_overwrite x.dest_length fun k hk =>
    ((lt_divCeil_iff x.blockSize_pos).mp (Client.mem_diverging.mp hk).1).le]
  split_ifs with hk
  · rfl
  · rw [Client.mem_diverging, not_and, not_not] at hk
    by_cases hlt : k < divCeil x.source.length x.blockSize
    · -- the hashes agree, and do not collide
      exact (hcollision k (hS.hash_eq (hk hlt))).symm
    · -- past the end both files have no block
      have hle : x.source.length ≤ k * x.blockSize := by
        rw [← divCeil_le_iff x.blockSize_pos]
        omega
      have hnil : ∀ l : List UInt8, l.length ≤ k * x.blockSize → block x.blockSize l k = [] := by
        intro l hl
        rw [block, List.drop_eq_nil_of_le hl, List.take_nil]
      rw [hnil _ hle, hnil _ (by rw [x.dest_length]; exact hle)]

/-- Two bytes in two blocks, of which the first one differs. -/
def firstDiffers : Setup := twoBlocks.withDest [5, 8] rfl

/-- The last worker of a side comes to its end, and the function returns. -/
def leaveRun (event : WorkerEvent → SessionEvent 1 1) (closeHasher join finish : SessionEvent 1 1) :
    List (SessionEvent 1 1) :=
  [closeHasher, event .reclaim, event (.seekNext (.ok ())), event .loopHead, event .exit, join,
    join, finish]

def wholeRun : List (SessionEvent 1 1) :=
  hashRun [.openFile (.ok ()), .seekStart (.ok ())] "4d478c67" ++
  compareRun [.openFile (.ok ()), .seekStart (.ok ())] ++
  [.client (.write (.ok 8)), .client (.write (.ok 1))] ++
  hashRun [.reclaim, .seekNext (.ok ())] "9e0ba4d8" ++
  compareRun [.reclaim, .seekNext (.ok ())] ++ [.client .dropLocals] ++
  leaveRun (.client ∘ .worker solo) (.client .closeHasher) (.client .join) (.client .finish) ++
  [.server (.read (.ok [0, 0, 0, 0, 0, 0, 0, 0])), .server (.read (.ok [7])),
    .server (.seek (.ok ())), .server (.disk (.ok 1)), .server (.read (.ok [])),
    .server (.flush (.ok ())), .server (.sync (.ok ()))] ++
  leaveRun (.server ∘ .worker solo) (.server .closeHasher) (.server .join) (.server .finish)

theorem session_correct_firstDiffers :
    ∃ s, run (restrict succeeds (step firstDiffers)) (start firstDiffers) wholeRun = some s ∧
      s.server.file.content = [7, 8] := by
  have hrun : (run (restrict succeeds (step firstDiffers)) (start firstDiffers) wholeRun).map
      (fun s => (s.client.phase, s.server.phase)) =
      some (.returned (.ok ()), .returned (.ok .ack)) := by decide +kernel
  obtain ⟨s, hs, heq⟩ := Option.map_eq_some_iff.mp hrun
  simp only [Prod.mk.injEq] at heq
  refine ⟨s, hs, (session_correct hs heq.1 heq.2 fun k => ?_).2⟩
  match k with
  | 0 => decide
  | 1 => exact fun _ => rfl
  | k + 2 => simp [block, firstDiffers, Setup.withDest, twoBlocks]

end Session

end Deltasync
