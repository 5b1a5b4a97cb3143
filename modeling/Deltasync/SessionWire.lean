import Deltasync.ClientSend
import Deltasync.ServerApply
import Deltasync.Session

/-!
# The blocks that go over the connection

Whatever fails on the client and wherever the connection is cut, the bytes that
the server reads begin the frames that the client has begun, in order.  The
blocks received in full are hence blocks of the source, at their place; the
destination is left with whole blocks of one file or of the other.
-/

namespace Deltasync

open Blocks Transition

/-! ## The steps of a session -/

namespace Setup

variable (x : Setup)

theorem reads : x.newProcess.Reads x.clientWorkers x.source :=
  NewProcess.reads_onFile x.digests x.hashAlgorithm x.clientBits_range x.blockSize_range
    x.clientWorkers_range x.source_nonempty x.clientFits

theorem blockSize_pos : 0 < x.blockSize := x.blockSize_range.1

/-- The size of both files fits the `usize` of the server. -/
theorem length_lt : x.source.length < 2 ^ x.serverBits :=
  x.serverFits.size_lt x.blockSize_pos x.serverWorkers_range.1

theorem frameReader_eq :
    Server.frameReader x.processNewClient = .new x.blockSize x.source.length := by
  change ResumableReadFileBlock.new x.blockSize (usize x.serverBits x.dest.length) = _
  rw [x.dest_length, usize_of_lt x.length_lt]

/-- The frame of block `k` of the source, for the reader of the server. -/
theorem isFrame_block {k : ℕ} (hk : k * x.blockSize < x.source.length) :
    Server.IsFrame x.processNewClient
      (blockFrame (k * x.blockSize, block x.blockSize x.source k))
      (k * x.blockSize, block x.blockSize x.source k) := by
  rw [Server.IsFrame, frameReader_eq]
  exact ResumableReadFileBlock.readsAs_block x.serverBits_range.2 x.length_lt hk

theorem isFrame_blocks {ks : List ℕ} (hks : ∀ k ∈ ks, k * x.blockSize < x.source.length) :
    List.Forall₂ (Server.IsFrame x.processNewClient)
      (ks.map fun k => blockFrame (k * x.blockSize, block x.blockSize x.source k))
      (ks.map fun k => (k * x.blockSize, block x.blockSize x.source k)) := by
  rw [List.forall₂_map_left_iff, List.forall₂_map_right_iff, List.forall₂_same]
  exact fun k hk => x.isFrame_block (hks k hk)

end Setup

theorem Client.connected_step {W : ℕ} {o : NewProcess} {F : List UInt8} {c c' : Client W}
    {e : ClientEvent W} (hs : c.step o F e = some c') (hc : c'.connected = true) :
    c.connected = true ∧ e ≠ .dropLocals := by
  cases Client.move_of_step hs with
  | tick hrun | write hrun | read hrun | recv hrun => simp [connected, hrun]
  | worker h => exact ⟨hc, by simp⟩
  | closeHasher hph h => exact ⟨hc, by simp⟩
  | join hph h => exact ⟨hc, by simp⟩
  | dropLocals hph | finish hph => simp [connected] at hc

theorem Client.running_of_write {W : ℕ} {o : NewProcess} {F : List UInt8} {c c' : Client W}
    {r : Except String ℕ} (hs : c.step o F (.write r) = some c') : c.phase = .running := by
  cases Client.move_of_step hs with
  | write hrun => exact hrun

theorem Client.running_of_read {W : ℕ} {o : NewProcess} {F : List UInt8} {c c' : Client W}
    {r : Except String (List UInt8)} (hs : c.step o F (.read r) = some c') :
    c.phase = .running := by
  cases Client.move_of_step hs with
  | read hrun => exact hrun

theorem Client.connected_write {W : ℕ} {o : NewProcess} {F : List UInt8} {c c' : Client W}
    {r : Except String ℕ} (hs : c.step o F (.write r) = some c') : c'.connected = true := by
  cases Client.move_of_step hs with
  | write hrun hfree h =>
    obtain ⟨w, -, -, ⟨w', s, -, rfl⟩ | ⟨w', res, -, rfl⟩⟩ := Client.write_cases h
    · simp [connected, hrun]
    · rcases Client.onOrOver_blockWritten (o := o) (c := { c with
        accepted := Client.logWrite w r c.accepted }) hrun w' with hph | ⟨hph, -⟩ <;>
        simp [connected, Client.nextIteration, hph]

theorem Server.connected_step {W : ℕ} {o : ProcessNewClient} {s s' : Server W}
    {e : ServerEvent W} (hs : s.step o e = some s') (hc : s'.connected = true) :
    s.connected = true := by
  cases Server.move_of_step hs with
  | disk hrun | diskDone hrun | read hrun | hashOut hrun | recv hrun => simp [connected, hrun]
  | seekOk hph | seekError hph | flushOk hph | flushError hph | syncOk hph | syncError hph =>
    simp [connected, hph]
  | worker h => exact hc
  | closeHasher hph h => exact hc
  | join hph h => exact hc
  | finish hph => simp [connected] at hc

namespace Session

variable {Wc Ws : ℕ} {x : Hosts} {s s' : Session Wc Ws}

/-- Everything a step can do. -/
inductive Move (x : Hosts) (s : Session Wc Ws) : SessionEvent Wc Ws → Session Wc Ws → Prop where
  | client {e c} (hwrite : ∀ r, e ≠ .write r) (hread : ∀ r, e ≠ .read r)
      (h : s.client.step x.newProcess x.source e = some c) :
      Move x s (.client e) { s with client := c }
  | write {n c} (hcut : s.cut = false) (hconn : s.server.connected = true)
      (h : s.client.step x.newProcess x.source (.write (.ok n)) = some c) :
      Move x s (.client (.write (.ok n)))
        { s with client := c, toServer := s.toServer ++ s.client.offered.take n }
  | writeLost {r c} (hdown : s.cut = true ∨ s.server.connected = false)
      (h : s.client.step x.newProcess x.source (.write r) = some c) :
      Move x s (.client (.write r)) { s with client := c }
  | read {bytes rest c} (hne : bytes ≠ []) (hstream : s.toClient = bytes ++ rest)
      (h : s.client.step x.newProcess x.source (.read (.ok bytes)) = some c) :
      Move x s (.client (.read (.ok bytes))) { s with client := c, toClient := rest }
  | readEnd {r c} (hnil : bytesRead r = [])
      (hend : s.cut = true ∨ (s.toClient = [] ∧ s.server.connected = false))
      (h : s.client.step x.newProcess x.source (.read r) = some c) :
      Move x s (.client (.read r)) { s with client := c }
  | server {e v} (hwrite : ∀ r, e ≠ .hashOut r) (hread : ∀ r, e ≠ .read r)
      (h : s.server.step x.processNewClient e = some v) :
      Move x s (.server e) { s with server := v }
  | hashOut {n v} (hcut : s.cut = false) (hconn : s.client.connected = true)
      (h : s.server.step x.processNewClient (.hashOut (.ok n)) = some v) :
      Move x s (.server (.hashOut (.ok n)))
        { s with server := v, toClient := s.toClient ++ s.server.offered.take n }
  | hashLost {r v} (hdown : s.cut = true ∨ s.client.connected = false)
      (h : s.server.step x.processNewClient (.hashOut r) = some v) :
      Move x s (.server (.hashOut r)) { s with server := v }
  | serverRead {bytes rest v} (hne : bytes ≠ []) (hstream : s.toServer = bytes ++ rest)
      (h : s.server.step x.processNewClient (.read (.ok bytes)) = some v) :
      Move x s (.server (.read (.ok bytes))) { s with server := v, toServer := rest }
  | serverReadEnd {r v} (hnil : bytesRead r = [])
      (hend : s.cut = true ∨ (s.toServer = [] ∧ s.client.connected = false))
      (h : s.server.step x.processNewClient (.read r) = some v) :
      Move x s (.server (.read r)) { s with server := v }
  | cut {n} : Move x s (.cut n) { s with toServer := s.toServer.take n, cut := true }

/-- A `read` from a stream whose other end is `connected` or not. -/
theorem fetch_cases {stream rest : List UInt8} {connected cut : Bool}
    {r : Except String (List UInt8)} (h : fetch stream (cut || !connected) cut r = some rest) :
    (∃ bytes, bytes ≠ [] ∧ r = .ok bytes ∧ stream = bytes ++ rest) ∨
      (bytesRead r = [] ∧ rest = stream ∧
        (cut = true ∨ (stream = [] ∧ connected = false))) := by
  rcases r with err | _ | ⟨b, bs⟩
  · simp only [fetch, Option.ite_none_right_eq_some, Option.some.injEq] at h
    exact .inr ⟨rfl, h.2.symm, .inl h.1⟩
  · simp only [fetch, Option.ite_none_right_eq_some, Option.some.injEq, Bool.or_eq_true,
      Bool.not_eq_true'] at h
    obtain ⟨⟨hnil, hcut | hconn⟩, rfl⟩ := h
    · exact .inr ⟨rfl, rfl, .inl hcut⟩
    · exact .inr ⟨rfl, rfl, .inr ⟨hnil, hconn⟩⟩
  · simp only [fetch, Option.ite_none_right_eq_some, Option.some.injEq] at h
    obtain ⟨hp, rfl⟩ := h
    obtain ⟨t, rfl⟩ := List.isPrefixOf_iff_prefix.mp hp
    exact .inl ⟨b :: bs, by simp, rfl, by simp⟩

theorem move_of_step {e : SessionEvent Wc Ws} (hs : s.step x e = some s') : Move x s e s' := by
  cases e with
  | cut n =>
    obtain rfl := Option.some.inj hs
    exact .cut
  | client e =>
    simp only [step] at hs
    split at hs
    case h_2 => cases hs
    case h_1 b c hb hc =>
      obtain rfl := Option.some.inj hs
      unfold clientStreams at hb
      split at hb
      · next r =>
        split_ifs at hb with hup
        · cases r with
          | error err => cases hb
          | ok n =>
            simp only [Option.map_eq_some_iff, put, Option.ite_none_right_eq_some,
              Option.some.injEq] at hb
            obtain ⟨_, ⟨-, rfl⟩, rfl⟩ := hb
            exact .write hup.1 hup.2 hc
        · obtain rfl := Option.some.inj hb
          refine .writeLost ?_ hc
          rcases Bool.eq_false_or_eq_true s.cut with hcut | hcut
          · exact .inl hcut
          · exact .inr (by simpa [hcut] using hup)
      · next r =>
        obtain ⟨rest, hf, rfl⟩ := Option.map_eq_some_iff.mp hb
        rcases fetch_cases hf with ⟨bytes, hne, rfl, hst⟩ | ⟨hnil, rfl, hend⟩
        · exact .read hne hst hc
        · exact .readEnd hnil hend hc
      · next hw hr =>
        obtain rfl := Option.some.inj hb
        exact .client (fun r h => hw r h) (fun r h => hr r h) hc
  | server e =>
    simp only [step] at hs
    split at hs
    case h_2 => cases hs
    case h_1 b v hb hv =>
      obtain rfl := Option.some.inj hs
      unfold serverStreams at hb
      split at hb
      · next r =>
        split_ifs at hb with hup
        · cases r with
          | error err => cases hb
          | ok n =>
            simp only [Option.map_eq_some_iff, put, Option.ite_none_right_eq_some,
              Option.some.injEq] at hb
            obtain ⟨_, ⟨-, rfl⟩, rfl⟩ := hb
            exact .hashOut hup.1 hup.2 hv
        · obtain rfl := Option.some.inj hb
          refine .hashLost ?_ hv
          rcases Bool.eq_false_or_eq_true s.cut with hcut | hcut
          · exact .inl hcut
          · exact .inr (by simpa [hcut] using hup)
      · next r =>
        obtain ⟨rest, hf, rfl⟩ := Option.map_eq_some_iff.mp hb
        rcases fetch_cases hf with ⟨bytes, hne, rfl, hst⟩ | ⟨hnil, rfl, hend⟩
        · exact .serverRead hne hst hv
        · exact .serverReadEnd hnil hend hv
      · next hw hr =>
        obtain rfl := Option.some.inj hb
        exact .server (fun r h => hw r h) (fun r h => hr r h) hv

/-! ## The stream to the server -/

section Wire

variable {x : Setup} {s s' : Session x.clientWorkers x.serverWorkers}

/-- What holds whatever fails on the client and wherever the connection is cut, as long as
no disk write fails. -/
structure Wire (x : Setup) (s : Session x.clientWorkers x.serverWorkers) : Prop where
  sends : s.client.Sends x.newProcess x.source
  reads : s.server.Reads x.processNewClient
  writes : s.server.Writes
  applies : s.server.Failed ∨ s.server.Applies x.dest
  stream : s.server.consumed ++ s.toServer <+:
    s.client.begun.flatMap (Client.frame x.newProcess x.source)
  sent : s.cut = false → s.server.connected = true →
    s.server.consumed ++ s.toServer = s.client.sent
  whole : s.cut = false → s.server.connected = true → s.client.connected = true →
    ∀ f ∈ s.client.finished, f.2 = Client.frame x.newProcess x.source f.1

theorem wire_start (x : Setup) : (start x).Wire x where
  sends := Client.sends_new x.reads.hashes x.reads.endBlockIdx_pos
  reads := Server.reads_new x.dest
  writes := Server.writes_new x.dest
  applies := .inr (Server.applies_new _ _ x.dest)
  stream := List.nil_prefix
  sent _ _ := rfl
  whole _ _ _ := by simp [start, Client.new, Client.finished]

/-- The blocks received are the first ones that the client has sent, and what has been read is
their frames and the beginning of the next one. -/
theorem Wire.received (hw : s.Wire x) : ∃ ks, ks <+: s.client.begun ∧
    (∀ k ∈ ks, k * x.blockSize < x.source.length) ∧
    (s.server.blocks = ks.map fun k => (k * x.blockSize, block x.blockSize x.source k)) ∧
    ∃ got, s.server.consumed = (ks.flatMap fun k =>
        blockFrame (k * x.blockSize, block x.blockSize x.source k)) ++ got ∧
      s.server.Reading x.processNewClient got := by
  have hb := x.blockSize_pos
  have hin : ∀ k ∈ s.client.begun, k * x.blockSize < x.source.length := by
    intro k hk
    obtain ⟨f, hf, rfl⟩ := List.mem_map.mp hk
    have hlt := (hw.sends.frames.accepted f (List.mem_reverse.mp hf)).1
    have hle := hw.sends.counts.bounded
    rw [x.reads.endBlockIdx_eq] at hle
    exact (lt_divCeil_iff hb).mp (lt_of_lt_of_le hlt hle)
  obtain ⟨frames, got, hframes, hcon, hread⟩ := hw.reads
  have hpre : frames.flatten ++ got <+: (s.client.begun.map fun k =>
      blockFrame (k * x.blockSize, block x.blockSize x.source k)).flatten := by
    rw [← List.flatMap_def, ← hcon]
    exact (List.prefix_append _ _).trans hw.stream
  -- both sides cut the same stream into frames
  obtain ⟨ds, m, hds, hm, -⟩ :=
    (Server.isPrefixCode_isFrame _).exists_tail hframes (x.isFrame_blocks hin) hpre
  obtain ⟨ks, rest, hks, h1, -⟩ := List.map_eq_append_iff.mp hm
  have hlen : frames.length = ks.length := by
    rw [hframes.length_eq, ← h1, List.length_map]
  rw [hks, List.map_append] at hds
  obtain ⟨rfl, -⟩ := List.append_inj hds.symm (by rw [hlen, List.length_map])
  exact ⟨ks, ⟨rest, hks.symm⟩, fun k hk => hin k (by rw [hks]; simp [hk]), h1.symm, got,
    by rw [hcon, List.flatMap_def], hread⟩

theorem Wire.inRange (hw : s.Wire x) : s.server.InRange x.dest.length := by
  obtain ⟨ks, -, hin, hblocks, -⟩ := hw.received
  intro b hb
  rw [hblocks] at hb
  obtain ⟨k, hk, rfl⟩ := List.mem_map.mp hb
  have := hin k hk
  rw [x.dest_length]
  simp only [length_block]
  omega

/-- A block of which no frame was begun is as it was. -/
theorem Wire.untouched (hw : s.Wire x) (hok : ¬ s.server.Failed) {k : ℕ}
    (hk : k ∉ s.client.begun) :
    block x.blockSize s.server.file.content k = block x.blockSize x.dest k := by
  obtain ⟨ks, hpre, hin, hblocks, -⟩ := hw.received
  have hA := hw.applies.resolve_left hok
  have hover : ∀ ks', ks' <+: ks → block x.blockSize (overwrite 0 x.dest
      (ks'.map fun k => (k * x.blockSize, block x.blockSize x.source k))) k =
      block x.blockSize x.dest k := by
    intro ks' h
    rw [block_overwrite x.dest_length fun i hi => (hin i (h.subset hi)).le,
      if_neg fun hmem => hk (hpre.subset (h.subset hmem))]
  cases hd : s.server.writeToDisk with
  | none =>
    -- between two blocks the file holds those behind
    obtain ⟨t, ht⟩ := s.server.writesOf_finished_prefix
    rw [hblocks] at ht
    obtain ⟨ks', rest, rfl, h1, -⟩ := List.map_eq_append_iff.mp ht.symm
    rw [hA.idle hd, ← h1]
    exact hover ks' (List.prefix_append _ _)
  | some w =>
    -- the block being written is another one
    obtain ⟨-, b, rest, hrec, -, -, -⟩ := hw.writes.writing w hd
    rw [Server.blocks, hrec, Server.writesOf_cons] at hblocks
    obtain ⟨ks', l, rfl, h1, h2⟩ := List.map_eq_append_iff.mp hblocks.symm
    obtain ⟨i, rfl, hi⟩ := List.map_eq_singleton_iff.mp h2
    obtain ⟨hoff, hdata⟩ := Prod.mk.inj hi
    have hne : k ≠ i := fun h => hk (hpre.subset (by simp [h]))
    have hi' := hin i (by simp)
    have hlen : (overwrite 0 x.dest
        (ks'.map fun k => (k * x.blockSize, block x.blockSize x.source k))).length =
        x.dest.length := by
      rw [h1]
      refine length_overwrite fun w hw' => hw.inRange w ?_
      rw [Server.blocks, hrec, Server.writesOf_cons]
      exact List.mem_append_left _ hw'
    rw [hA.writing w b rest hd hrec, ← h1, ← hoff, ← hdata]
    have hle : ((block x.blockSize x.source i).take w.offset).length ≤
        min x.blockSize (x.source.length - i * x.blockSize) := by
      rw [List.length_take, length_block]
      omega
    rw [block_patch_of_ne hne le_rfl (by omega) (by rw [hlen, x.dest_length]; omega)]
    exact hover ks' (List.prefix_append _ _)

/-- A step of the client. -/
theorem Wire.setClient (hw : s.Wire x) {e : ClientEvent x.clientWorkers}
    {c : Client x.clientWorkers}
    (hs : s.client.step x.newProcess x.source e = some c) {toServer toClient : List UInt8}
    (hbegun : s.client.begun <+: c.begun)
    (hto : s.cut = false ∧ s.server.connected = true → (∀ err, e ≠ .write (.error err)) ∧
      s.server.consumed ++ toServer = c.sent)
    (hlost : toServer = s.toServer ∨
      (s.cut = false ∧ s.server.connected = true ∧ c.connected = true)) :
    Wire x { s with client := c, toServer, toClient } := by
  have hsends := hw.sends.step x.reads.hashes hs
  have hwhole : s.cut = false → s.server.connected = true → c.connected = true →
      ∀ f ∈ c.finished, f.2 = Client.frame x.newProcess x.source f.1 := by
    intro hcut hconn hc
    obtain ⟨hc', hne⟩ := Client.connected_step hs hc
    have hold := hw.whole hcut hconn hc'
    have herr := (hto ⟨hcut, hconn⟩).1
    rcases hw.sends.finished_step (fun h => absurd h hne) hs with ⟨hfin, -⟩ | ⟨k, bytes, hfin, hk⟩
    · rw [hfin]
      exact hold
    · rw [hfin, List.forall_mem_cons]
      exact ⟨hk.mpr herr, hold⟩
  refine ⟨hsends, hw.reads, hw.writes, hw.applies, ?_, fun h1 h2 => (hto ⟨h1, h2⟩).2, hwhole⟩
  rcases hlost with rfl | ⟨hcut, hconn, hc⟩
  · exact hw.stream.trans (hbegun.flatMap _)
  · rw [(hto ⟨hcut, hconn⟩).2]
    exact hsends.sent_prefix (hwhole hcut hconn hc)

/-- A step of the server. -/
theorem Wire.setServer (hw : s.Wire x) {e : ServerEvent x.serverWorkers}
    {v : Server x.serverWorkers} (hdisk : ∀ err, e ≠ .disk (.error err))
    (hs : s.server.step x.processNewClient e = some v) {toServer toClient : List UInt8}
    (hto : v.consumed ++ toServer = s.server.consumed ++ s.toServer) :
    Wire x { s with server := v, toServer, toClient } := by
  refine ⟨hw.sends, hw.reads.step hs, hw.writes.step hs, ?_, by rw [hto]; exact hw.stream,
    fun h1 h2 => ?_, fun h1 h2 => hw.whole h1 (Server.connected_step hs h2)⟩
  · rcases hw.applies with ⟨err, herr⟩ | hA
    · exact .inl ⟨err, Server.result_step herr hs⟩
    · by_cases hfail : v.Failed
      · exact .inl hfail
      · exact .inr (hA.step hw.writes hw.inRange hdisk hs hfail)
  · rw [hto]
    exact hw.sent h1 (Server.connected_step hs h2)

theorem Wire.step (hw : s.Wire x) {e : SessionEvent x.clientWorkers x.serverWorkers}
    (hdisk : ∀ err, e ≠ .server (.disk (.error err))) (hs : s.step x e = some s') :
    s'.Wire x := by
  cases move_of_step hs with
  | client hwrite hread h =>
    have hb := Client.begins_step h hwrite
    refine hw.setClient h hb.begun (fun ⟨h1, h2⟩ => ⟨fun err => hwrite _, ?_⟩) (.inl rfl)
    rw [hb.sent]
    exact hw.sent h1 h2
  | @write n c hcut hconn h =>
    obtain ⟨hsent, hbegun⟩ := hw.sends.sent_write h
    refine hw.setClient h hbegun (fun _ => ⟨by simp, ?_⟩) (.inr ⟨hcut, hconn, ?_⟩)
    · rw [← List.append_assoc, hw.sent hcut hconn, hsent]
      rfl
    · exact Client.connected_write h
  | writeLost hdown h =>
    refine hw.setClient h (hw.sends.sent_write h).2 (fun ⟨h1, h2⟩ => ?_) (.inl rfl)
    simp [h1, h2] at hdown
  | read hne hstream h =>
    have hb := Client.begins_step h (by simp)
    refine hw.setClient h hb.begun (fun ⟨h1, h2⟩ => ⟨by simp, ?_⟩) (.inl rfl)
    rw [hb.sent]
    exact hw.sent h1 h2
  | readEnd hnil hend h =>
    have hb := Client.begins_step h (by simp)
    refine hw.setClient h hb.begun (fun ⟨h1, h2⟩ => ⟨by simp, ?_⟩) (.inl rfl)
    rw [hb.sent]
    exact hw.sent h1 h2
  | server hwrite hread h =>
    have hdisk' := fun err he => hdisk err (congrArg SessionEvent.server he)
    exact hw.setServer hdisk' h (by rw [(Server.sameReader_step h hread).consumed])
  | hashOut hcut hconn h =>
    exact hw.setServer (by simp) h (by rw [(Server.sameReader_step h (by simp)).consumed])
  | hashLost hdown h =>
    exact hw.setServer (by simp) h (by rw [(Server.sameReader_step h (by simp)).consumed])
  | serverRead hne hstream h =>
    refine hw.setServer (by simp) h ?_
    rw [Server.consumed_step h, hstream, List.append_assoc]
    rfl
  | serverReadEnd hnil hend h =>
    exact hw.setServer (by simp) h (by simp [Server.consumed_step h, hnil])
  | cut =>
    refine ⟨hw.sends, hw.reads, hw.writes, hw.applies, ?_, by simp, by simp⟩
    exact ((List.prefix_append_right_inj _).mpr (List.take_prefix _ _)).trans hw.stream

end Wire

/-! ## An interrupted session -/

section Interrupted

variable {x : Setup} {s s' : Session x.clientWorkers x.serverWorkers}

/-- No write of the server to the destination fails. -/
def diskSucceeds (_ : Session Wc Ws) : SessionEvent Wc Ws → Bool
  | .server (.disk (.error _)) => false
  | _ => true

theorem Wire.run_step (hw : s.Wire x) {e : SessionEvent x.clientWorkers x.serverWorkers}
    (hs : restrict diskSucceeds (Session.step x) s e = some s') : s'.Wire x := by
  obtain ⟨hok, hs⟩ := restrict_eq_some.mp hs
  refine hw.step ?_ hs
  rintro err rfl
  cases hok

theorem wire_of_run {es : List (SessionEvent x.clientWorkers x.serverWorkers)}
    (h : run (restrict diskSucceeds (step x)) (start x) es = some s) : s.Wire x :=
  run_invariant (fun _ _ _ hw hs => hw.run_step hs) (wire_start x) h

/-- An interrupted session leaves every block whole.  Whatever the interleaving, wherever
the connection is cut and whatever fails on the client: when the loop of the server was
left because `read_on` failed, the destination has its size, and each of its blocks is
the one of the source or the one that was there.  The blocks of the source are those
whose frame was read to the end; what was read of one more frame has no effect. -/
theorem interrupted_blocks_whole {es : List (SessionEvent x.clientWorkers x.serverWorkers)}
    (h : run (restrict diskSucceeds (step x)) (start x) es = some s)
    (hleft : s.server.phase = .flushing ∨ s.server.phase = .syncing ∨
      s.server.phase.result = some (.ok .ack)) :
    s.server.file.content.length = x.source.length ∧
      (∀ k, block x.blockSize s.server.file.content k = block x.blockSize x.source k ∨
        block x.blockSize s.server.file.content k = block x.blockSize x.dest k) ∧
      ∃ (ks : List ℕ) (got : List UInt8), s.server.consumed = (ks.flatMap fun k =>
          blockFrame (k * x.blockSize, block x.blockSize x.source k)) ++ got ∧
        (∀ k rest, k * x.blockSize < x.source.length →
          got ≠ blockFrame (k * x.blockSize, block x.blockSize x.source k) ++ rest) ∧
        ∀ k, block x.blockSize s.server.file.content k =
          if k ∈ ks then block x.blockSize x.source k else block x.blockSize x.dest k := by
  have hw := wire_of_run h
  have hok : ¬ s.server.Failed := by
    rintro ⟨err, herr⟩
    rcases hleft with h1 | h1 | h1
    · simp [h1, ServerPhase.result] at herr
    · simp [h1, ServerPhase.result] at herr
    · simp [h1] at herr
  have hloop : ¬ s.server.InLoop := by
    rintro (h0 | ⟨off, h0⟩) <;> simp [h0, ServerPhase.result] at hleft
  have hcon := (hw.applies.resolve_left hok).content_eq hw.writes hloop hok
  obtain ⟨ks, -, hin, hblocks, got, hcons, hread⟩ := hw.received
  have hblock : ∀ k, block x.blockSize s.server.file.content k =
      if k ∈ ks then block x.blockSize x.source k else block x.blockSize x.dest k := by
    intro k
    rw [hcon, hblocks]
    exact block_overwrite x.dest_length (fun k hk => (hin k hk).le) k
  refine ⟨?_, fun k => ?_, ks, got, hcons, fun k rest hk => ?_, hblock⟩
  · rw [hcon, length_overwrite hw.inRange, x.dest_length]
  · rw [hblock]
    split_ifs
    · exact .inl rfl
    · exact .inr rfl
  · exact (hread.incomplete _ _ rest (x.isFrame_block hk)).symm

/-- Two bytes in two blocks, of which both differ. -/
def twoBlocks : Setup where
  digests := crcDigests
  hashAlgorithm := .crc32
  clientBits := 64
  serverBits := 64
  blockSize := 1
  source := [7, 8]
  dest := [5, 6]
  clientWorkers := 1
  serverWorkers := 1
  toServerCapacity := 9
  toClientCapacity := 16
  clientBits_range := sixtyFour_range
  serverBits_range := sixtyFour_range
  blockSize_range := by decide
  source_nonempty := by decide
  source_length := by decide
  dest_length := by decide
  clientWorkers_range := oneWorker_range
  serverWorkers_range := oneWorker_range
  toServerCapacity_pos := by decide
  toClientCapacity_pos := by decide
  clientFits := by decide
  serverFits := by decide

/-- The worker of the server offers a block, and its hash `hash` goes to the client. -/
def hashRun (worker : List WorkerEvent) (hash : String) : List (SessionEvent 1 1) :=
  worker.map (fun e => .server (.worker solo e)) ++
    [.server (.worker solo .loopHead), .server (.worker solo (.read 1)),
      .server (.worker solo .send),
      .server (.recv .enter), .server (.recv .poll), .server (.worker solo .sendStep),
      .server (.recv .take), .server (.recv .finish), .server (.hashOut (.ok 16)),
      .client (.read (.ok ((writeString hash).take 8))),
      .client (.read (.ok ((writeString hash).drop 8)))]

/-- The worker of the client offers the same block, which the client compares. -/
def compareRun (worker : List WorkerEvent) : List (SessionEvent 1 1) :=
  worker.map (fun e => .client (.worker solo e)) ++
    [.client (.worker solo .loopHead), .client (.worker solo (.read 1)),
      .client (.worker solo .send),
      .client (.recv .enter), .client (.recv .poll), .client (.worker solo .sendStep),
      .client (.recv .take), .client (.recv .finish)]

/-- The first block arrives; of the second frame the connection lets five bytes through. -/
def cutRun : List (SessionEvent 1 1) :=
  hashRun [.openFile (.ok ()), .seekStart (.ok ())] "4d478c67" ++
  compareRun [.openFile (.ok ()), .seekStart (.ok ())] ++
  [.client (.write (.ok 8)), .client (.write (.ok 1))] ++
  hashRun [.reclaim, .seekNext (.ok ())] "b9b4dc74" ++
  compareRun [.reclaim, .seekNext (.ok ())] ++
  [.server (.read (.ok [0, 0, 0, 0, 0, 0, 0, 0])), .server (.read (.ok [7])),
    .server (.seek (.ok ())), .server (.disk (.ok 1)), .client (.write (.ok 8)), .cut 5,
    .server (.read (.ok [0, 0, 0, 0, 0])), .server (.read (.ok []))]

theorem interrupted_blocks_whole_cut :
    ∃ s, run (restrict diskSucceeds (step twoBlocks)) (start twoBlocks) cutRun = some s ∧
      s.server.file.content = [7, 6] ∧
      ∀ k, block 1 s.server.file.content k = block 1 [7, 8] k ∨
        block 1 s.server.file.content k = block 1 [5, 6] k := by
  have hrun : (run (restrict diskSucceeds (step twoBlocks)) (start twoBlocks) cutRun).map
      (fun s => (s.server.phase, s.server.file.content)) = some (.flushing, [7, 6]) := by
    decide +kernel
  obtain ⟨s, hs, heq⟩ := Option.map_eq_some_iff.mp hrun
  simp only [Prod.mk.injEq] at heq
  obtain ⟨-, hblocks, -⟩ := interrupted_blocks_whole hs (.inl heq.1)
  exact ⟨s, hs, heq.2, hblocks⟩

end Interrupted

end Session

end Deltasync
