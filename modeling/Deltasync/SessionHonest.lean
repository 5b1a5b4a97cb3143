import Deltasync.HonestClient
import Deltasync.SessionWire

/-!
# `new_process` is an honest client

What the server does in a session with the client of `client.rs`, it also does
with one of the clients of `HonestSession`: whenever the client begins to write the
frame of block `k`, it has decoded `k + 1` hashes.  The frame is then sent as a
whole, and read from as the connection delivers it.
-/

namespace Deltasync

open Blocks Transition

/-! ## The bytes that the client has read -/

namespace Client

variable {W : ℕ} {o : NewProcess} {D : List UInt8} {c c' : Client W}

theorem consumed_read {r : Except String (List UInt8)} (hs : c.step o D (.read r) = some c') :
    c'.consumed = c.consumed ++ bytesRead r := by
  simp only [Client.step, Option.ite_none_right_eq_some] at hs
  exact (read_grows hs.2).1

theorem consumed_step {e : ClientEvent W} (hs : c.step o D e = some c') :
    c.consumed <+: c'.consumed := by
  by_cases he : ∀ r, e ≠ .read r
  · rw [(sameReader_step hs he).consumed]
  · push Not at he
    obtain ⟨r, rfl⟩ := he
    rw [consumed_read hs]
    exact List.prefix_append _ _

end Client

/-! ## The frames that it begins -/

namespace HonestSession

variable {W : ℕ} {o : ProcessNewClient} {u : HonestSession W}

/-- The client sends blocks whose hashes it has read, one after the other. -/
theorem exists_sends (payload : ℕ → List UInt8) (ks : List ℕ)
    (hknows : ∀ k ∈ ks, ∃ hashes, u.knows k hashes = true)
    (hlen : ∀ k, (payload k).length = min o.blockSize (o.filesize - k * o.blockSize)) :
    ∃ es, run (step o) u es = some { u with
      toServer := u.toServer ++ (ks.flatMap fun k =>
        blockFrame (k * o.blockSize, payload k)) } := by
  induction ks generalizing u with
  | nil => exact ⟨[], by simp⟩
  | cons k ks ih =>
    obtain ⟨hashes, hk⟩ := hknows k List.mem_cons_self
    obtain ⟨es, hes⟩ := ih
      (u := { u with toServer := u.toServer ++ blockFrame (k * o.blockSize, payload k) })
      fun i hi => hknows i (List.mem_cons_of_mem k hi)
    refine ⟨.clientSends k (payload k) hashes :: es, ?_⟩
    rw [run_cons, step, if_pos ⟨hk, hlen k⟩]
    rw [List.append_assoc] at hes
    exact hes

end HonestSession

theorem Setup.serves (x : Setup) : x.processNewClient.Serves x.serverWorkers x.dest :=
  ProcessNewClient.serves_onFile x.digests x.hashAlgorithm x.serverBits_range.2 x.blockSize_range
    x.serverWorkers_range (x.dest_length ▸ x.serverFits)

namespace Session

variable {x : Setup} {s s' : Session x.clientWorkers x.serverWorkers}
  {u : HonestSession x.serverWorkers}

/-- The session, seen from the server. -/
structure Follows (x : Setup) (s : Session x.clientWorkers x.serverWorkers)
    (u : HonestSession x.serverWorkers) : Prop where
  server : u.server = s.server
  broken : u.broken = (s.cut || !s.client.connected)
  toClient : u.toClient = s.client.consumed ++ s.toClient
  clientRead : u.clientRead = s.client.consumed.length
  toServer : s.server.consumed ++ u.toServer =
    s.client.begun.flatMap (Client.frame x.newProcess x.source)

theorem follows_start (x : Setup) :
    Follows x (start x) (HonestSession.start x.processNewClient x.serverWorkers x.dest) :=
  ⟨rfl, rfl, rfl, rfl, rfl⟩

/-- The hashes decoded are the first ones of the bytes read. -/
theorem decoded_of_keeps (hK : u.Keeps x.processNewClient x.dest) {c : Client x.clientWorkers}
    (hR : c.Reads x.newProcess) (hcon : c.consumed <+: u.toClient) :
    c.decoded.flatMap writeString <+: c.consumed ∧ c.decoded <+: u.server.hashes := by
  obtain ⟨frames, got, hframes, heq, -⟩ := hR
  have hpre := hcon.trans hK.sent
  rw [heq] at hpre
  obtain ⟨hflat, m, hm, -⟩ := exists_strings x.clientBits_range.2 (lt_two_pow x.clientBits_range.1)
    hframes (fun _ h => lt_of_le_of_lt (hK.length_hash x.serves h)
      (lt_two_pow x.clientBits_range.1)) hpre
  exact ⟨by rw [heq, hflat]; exact List.prefix_append _ _, m, hm.symm⟩

/-- Before it begins the frame of a block, the client has read the hash of the block. -/
theorem knows_of_begun {c : Client x.clientWorkers} (hS : c.Sends x.newProcess x.source)
    (hR : c.Reads x.newProcess) (hK : u.Keeps x.processNewClient x.dest)
    (hto : u.toClient.take u.clientRead = c.consumed) {k : ℕ} (hk : k ∈ c.begun) :
    u.knows k (c.decoded.take (k + 1)) = true := by
  obtain ⟨hdec, hhashes⟩ := decoded_of_keeps hK hR (hto ▸ List.take_prefix _ _)
  have hlt : k < c.decoded.length := by
    obtain ⟨f, hf, rfl⟩ := List.mem_map.mp hk
    have hidx := (hS.frames.accepted f (List.mem_reverse.mp hf)).1
    have hle := hS.counts.le_decoded
    omega
  simp only [HonestSession.knows, Bool.and_eq_true, decide_eq_true_eq, List.all_eq_true,
    List.isPrefixOf_iff_prefix]
  refine ⟨⟨?_, fun hash hmem => ?_⟩, ?_⟩
  · rw [List.length_take]
    omega
  · have hmem' := hhashes.subset (List.mem_of_mem_take hmem)
    exact lt_of_le_of_lt (hK.length_hash x.serves hmem') (by norm_num)
  · rw [hto]
    exact ((List.take_prefix _ _).flatMap _).trans hdec

/-- A step of the client: it may read, begin frames, and leave. -/
theorem Follows.setClient (hF : Follows x s u) {e : ClientEvent x.clientWorkers}
    {c : Client x.clientWorkers} (hs : s.client.step x.newProcess x.source e = some c)
    (hS : c.Sends x.newProcess x.source) (hR : c.Reads x.newProcess)
    (hK : u.Keeps x.processNewClient x.dest) (hbegun : s.client.begun <+: c.begun)
    {toServer toClient : List UInt8}
    (hcon : c.consumed ++ toClient = s.client.consumed ++ s.toClient) :
    ∃ es u', run (HonestSession.step x.processNewClient) u es = some u' ∧
      Follows x { s with client := c, toServer, toClient } u' := by
  obtain ⟨more, hmore⟩ := Client.consumed_step hs
  obtain ⟨ks, hks⟩ := hbegun
  have hto : u.toClient = c.consumed ++ toClient := hF.toClient.trans hcon.symm
  have hlen : u.clientRead + more.length = c.consumed.length := by
    rw [← hmore, List.length_append, hF.clientRead]
  -- the client reads what this step has read
  have hread : run (HonestSession.step x.processNewClient) u [.clientReads more.length] =
      some { u with clientRead := c.consumed.length } := by
    rw [run_cons, HonestSession.step, if_pos (by rw [hlen, hto, List.length_append]; omega), hlen]
    rfl
  -- it sends the frames that this step has begun
  obtain ⟨es, hes⟩ := HonestSession.exists_sends (o := x.processNewClient)
    (u := { u with clientRead := c.consumed.length }) (block x.blockSize x.source) ks
    (fun k hk => ⟨_, knows_of_begun (u := { u with clientRead := c.consumed.length }) hS hR
      ⟨hK.guarded, hK.sending, hK.sent, hK.frames⟩ (by rw [hto, List.take_left])
      (by rw [← hks]; exact List.mem_append_right _ hk)⟩)
    (fun k => by rw [length_block, ← x.dest_length]; rfl)
  have hrun : run (HonestSession.step x.processNewClient) u ([.clientReads more.length] ++ es) =
      some { u with
        clientRead := c.consumed.length
        toServer := u.toServer ++ (ks.flatMap fun k =>
          blockFrame (k * x.blockSize, block x.blockSize x.source k)) } := by
    rw [run_append, hread]
    exact hes
  have hstream : s.server.consumed ++ (u.toServer ++ (ks.flatMap fun k =>
      blockFrame (k * x.blockSize, block x.blockSize x.source k))) =
      c.begun.flatMap (Client.frame x.newProcess x.source) := by
    rw [← List.append_assoc, hF.toServer, ← hks, List.flatMap_append]
    rfl
  by_cases hc : c.connected = s.client.connected
  · exact ⟨_, _, hrun, hF.server, by rw [hc]; exact hF.broken, hto, rfl, hstream⟩
  · -- it has dropped its socket
    have hgone : c.connected = false := by
      by_contra hcon
      have hup : c.connected = true := by simpa using hcon
      exact hc (hup.trans (Client.connected_step hs hup).1.symm)
    have hbreak := run_concat_eq_some.mpr
      ⟨_, hrun, show HonestSession.step _ _ .breaks = _ from rfl⟩
    exact ⟨_, _, hbreak, hF.server, by simp [hgone], hto, rfl, hstream⟩

/-- A step of the server that leaves the streams as they are. -/
theorem Follows.setServer (hF : Follows x s u) {e : ServerEvent x.serverWorkers}
    {v : Server x.serverWorkers}
    (hs : u.step x.processNewClient (.server e) = some { u with server := v })
    (hsame : v.consumed = s.server.consumed) :
    ∃ es u', run (HonestSession.step x.processNewClient) u es = some u' ∧
      Follows x { s with server := v } u' :=
  ⟨[.server e], _, run_singleton hs, rfl, hF.broken, hF.toClient, hF.clientRead,
    by rw [hsame]; exact hF.toServer⟩

/-- On a broken connection a hash goes nowhere. -/
theorem Follows.hashLost (hF : Follows x s u) {r : Except String ℕ}
    (hdown : s.cut = true ∨ s.client.connected = false) {v : Server x.serverWorkers}
    (h : s.server.step x.processNewClient (.hashOut r) = some v) :
    ∃ es u', run (HonestSession.step x.processNewClient) u es = some u' ∧
      Follows x { s with server := v } u' := by
  have hsame := (Server.sameReader_step h (by simp)).consumed
  have hdead : u.broken = true := by
    rw [hF.broken]
    rcases hdown with hcut | hconn
    · rw [hcut]; rfl
    · rw [hconn, Bool.not_false, Bool.or_true]
  refine hF.setServer (e := .hashOut r) ?_ hsame
  cases r with
  | error err => rw [HonestSession.step, hF.server, h, ← hdead]; rfl
  | ok n => rw [HonestSession.step, hF.server, h, if_pos hdead]; rfl

/-- What the connection delivers begins what the client has sent. -/
theorem Follows.serverRead (hF : Follows x s u) (hw : s.Wire x) {bytes rest : List UInt8}
    (hstream : s.toServer = bytes ++ rest) {v : Server x.serverWorkers}
    (h : s.server.step x.processNewClient (.read (.ok bytes)) = some v) :
    ∃ es u', run (HonestSession.step x.processNewClient) u es = some u' ∧
      Follows x { s with server := v, toServer := rest } u' := by
  have hconsumed := Server.consumed_step h
  have hpre : bytes <+: u.toServer := by
    have hle := hw.stream
    rw [← hF.toServer, hstream, List.prefix_append_right_inj] at hle
    exact (List.prefix_append bytes rest).trans hle
  obtain ⟨more, hmore⟩ := hpre
  have hstep : u.step x.processNewClient (.server (.read (.ok bytes))) =
      some { u with server := v, toServer := more } := by
    rw [HonestSession.step, if_pos (List.isPrefixOf_iff_prefix.mpr ⟨more, hmore⟩), hF.server, h,
      ← hmore, List.drop_left]
    rfl
  refine ⟨[.server (.read (.ok bytes))], _, run_singleton hstep, rfl, hF.broken,
    hF.toClient, hF.clientRead, ?_⟩
  rw [hconsumed, List.append_assoc, ← hF.toServer, ← hmore]
  rfl

theorem reads_step (hR : s.client.Reads x.newProcess)
    {e : SessionEvent x.clientWorkers x.serverWorkers} (hs : s.step x e = some s') :
    s'.client.Reads x.newProcess := by
  cases move_of_step hs with
  | client _ _ h | write _ _ h | writeLost _ h | read _ _ h | readEnd _ _ h => exact hR.step h
  | server | hashOut | hashLost | serverRead | serverReadEnd | cut => exact hR

theorem Follows.step (hw : s.Wire x) (hS : s'.client.Sends x.newProcess x.source)
    (hR : s'.client.Reads x.newProcess) (hK : u.Keeps x.processNewClient x.dest)
    (hF : Follows x s u)
    {e : SessionEvent x.clientWorkers x.serverWorkers} (hs : s.step x e = some s') :
    ∃ es u', run (HonestSession.step x.processNewClient) u es = some u' ∧ Follows x s' u' := by
  cases move_of_step hs with
  | client hwrite hread h =>
    refine hF.setClient h hS hR hK (Client.begins_step h hwrite).begun ?_
    rw [(Client.sameReader_step h hread).consumed]
  | write hcut hconn h =>
    refine hF.setClient h hS hR hK (hw.sends.sent_write h).2 ?_
    rw [(Client.sameReader_step h (by simp)).consumed]
  | writeLost hdown h =>
    refine hF.setClient h hS hR hK (hw.sends.sent_write h).2 ?_
    rw [(Client.sameReader_step h (by simp)).consumed]
  | read hne hstream h =>
    refine hF.setClient h hS hR hK (Client.begins_step h (by simp)).begun ?_
    rw [Client.consumed_read h, hstream, List.append_assoc]
    rfl
  | readEnd hnil hend h =>
    refine hF.setClient h hS hR hK (Client.begins_step h (by simp)).begun ?_
    rw [Client.consumed_read h, hnil, List.append_nil]
  | @server e v hwrite hread h =>
    have hsame := (Server.sameReader_step h hread).consumed
    rw [← hF.server] at h
    refine hF.setServer (e := e) ?_ hsame
    cases e with
    | read r => exact absurd rfl (hread r)
    | hashOut r => exact absurd rfl (hwrite r)
    | _ => exact congrArg (Option.map fun v => { u with server := v }) h
  | @hashOut n v hcut hconn h =>
    have hsame := (Server.sameReader_step h (by simp)).consumed
    have hup : u.broken = false := by rw [hF.broken, hcut, hconn]; rfl
    have hstep : u.step x.processNewClient (.server (.hashOut (.ok n))) =
        some { u with server := v, toClient := u.toClient ++ s.server.offered.take n } := by
      rw [HonestSession.step, hF.server, h, hup]
      rfl
    exact ⟨[.server (.hashOut (.ok n))], _, run_singleton hstep, rfl, hF.broken,
      by rw [hF.toClient, List.append_assoc], hF.clientRead, by rw [hsame]; exact hF.toServer⟩
  | hashLost hdown h => exact hF.hashLost hdown h
  | serverRead hne hstream h => exact hF.serverRead hw hstream h
  | @serverReadEnd r v hnil hend h =>
    have hsame : v.consumed = s.server.consumed := by
      rw [Server.consumed_step h]
      exact (congrArg _ hnil).trans (List.append_nil _)
    rw [← hF.server] at h
    refine hF.setServer (e := .read r) ?_ hsame
    cases r with
    | error err => exact congrArg (Option.map fun v => { u with server := v }) h
    | ok bytes =>
      obtain rfl : bytes = [] := hnil
      exact congrArg (Option.map fun v => { u with server := v }) h
  | cut =>
    exact ⟨[.breaks], { u with broken := true }, rfl, hF.server, by simp, hF.toClient,
      hF.clientRead, hF.toServer⟩

/-- The server of a session meets an honest client: as long as no disk write fails, every run
of a session is one of `HonestSession`, seen from the server. -/
theorem honest_of_run {es : List (SessionEvent x.clientWorkers x.serverWorkers)}
    (h : run (restrict diskSucceeds (Session.step x)) (start x) es = some s) :
    ∃ es' u, run (HonestSession.step x.processNewClient)
      (HonestSession.start x.processNewClient x.serverWorkers x.dest) es' = some u ∧
      u.server = s.server := by
  have hsim := run_simulation (g := HonestSession.step x.processNewClient)
    (R := fun s u => s.Wire x ∧ s.client.Reads x.newProcess ∧ u.Keeps x.processNewClient x.dest ∧
      Follows x s u) ?_
    ⟨wire_start x, Client.reads_new, HonestSession.keeps_start x.blockSize_pos, follows_start x⟩ h
  · obtain ⟨es', u, hu, -, -, -, hF⟩ := hsim
    exact ⟨es', u, hu, hF.server⟩
  · rintro s e s' u ⟨hw, hR, hK, hF⟩ hs
    have hw' := hw.run_step hs
    obtain ⟨-, hs⟩ := restrict_eq_some.mp hs
    have hR' := reads_step hR hs
    obtain ⟨es', u', hu', hF'⟩ := hF.step hw hw'.sends hR' hK hs
    exact ⟨es', u', hu', hw', hR',
      run_invariant (fun _ _ _ hK ht => hK.step x.serves ht) hK hu', hF'⟩

/-- In a session, the hashes are those of the destination as it was, and so is the block that a
worker of the server is reading. -/
theorem hashes_of_dest {es : List (SessionEvent x.clientWorkers x.serverWorkers)}
    (h : run (restrict diskSucceeds (Session.step x)) (start x) es = some s) :
    s.server.hashes <+: HonestSession.blockHashes x.processNewClient x.dest ∧
      ∀ i, (s.server.hasher.worker i).pc = .reading →
        block x.blockSize s.server.file.content (s.server.hasher.worker i).blockIdx =
          block x.blockSize x.dest (s.server.hasher.worker i).blockIdx := by
  obtain ⟨es', u, hu, hserver⟩ := honest_of_run h
  have hK : u.Keeps x.processNewClient x.dest := run_invariant
    (fun _ _ _ hK ht => hK.step x.serves ht) (HonestSession.keeps_start x.blockSize_pos) hu
  rw [← hserver]
  exact ⟨hK.hashes_prefix x.blockSize_pos,
    fun i hpc => hK.guarded.untouched _ (hK.guarded.le_blockIdx hpc)⟩

end Session

end Deltasync
