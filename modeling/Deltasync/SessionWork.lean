import Deltasync.SessionProgress
import Deltasync.HashReturns

/-!
# How much work a session has left

Every step of a session in which nothing fails, other than the progress timer and
spurious wakeups, leaves less to do: bytes to exchange, blocks to receive from the
workers, bytes to write to disk, or stages of the way out.  A branch that completes
cancels a pending `recv`, whose work starts again; each byte pays for one such loss.
-/

namespace Deltasync

open Blocks Transition

/-! ## The hash streams -/

namespace HashStream

variable {W : ℕ} {p : HashFile} {F : List UInt8} {h h' : HashStream W}
  {held : List (Loan (Fin W) (List UInt8))}

/-- What is before a stream whose consumer receives every block and then drops it. -/
def streamWork (p : HashFile) (h : HashStream W) : ℕ :=
  h.workersWork p + h.recvWork + 4 * (p.blocks - h.chan.delivered.length) + h.joinWork

theorem recvWork_le (h : HashStream W) : h.recvWork ≤ 3 := by
  unfold recvWork
  split_ifs
  · split <;> omega
  · exact le_rfl

theorem joinWork_congr (hph : h'.phase = h.phase) : h'.joinWork = h.joinWork := by
  rw [joinWork, joinWork, hph]

theorem Control.streamWork_worker (hsz : Sizes p W) (hc : h.Control p held) (hm : h.Measured p)
    {i : Fin W} {e : WorkerEvent} (hs : h.workerStep p F i e = some h')
    (he : e.spurious = false) : h'.streamWork p < h.streamWork p := by
  have hf := hc.workerStep_frame hs
  have h1 := hc.workerStep_work hsz hm hs he
  have h2 := hc.workerStep_recvWork hs
  have h3 := joinWork_congr hf.phase
  simp only [streamWork, hf.delivered]
  omega

theorem Control.streamWork_wake (hc : h.Control p held) {i : Fin W}
    (hs : h.workerStep p F i .wake = some h') : h'.streamWork p ≤ h.streamWork p + 1 := by
  have hf := hc.workerStep_frame hs
  have h1 := Control.wake_work hs
  have h2 := hc.workerStep_recvWork hs
  have h3 := joinWork_congr hf.phase
  simp only [streamWork, hf.delivered]
  omega

/-- A step inside `recv`. -/
theorem Control.streamWork_recv (hb : 0 < p.blockSize) (hc : h.Control p held)
    (hm : h.Measured p) {e : RecvEvent} (hne : e ≠ .cancel)
    (hs : h.recvStep e = some (h', none)) : h'.streamWork p < h.streamWork p := by
  have hf := recvStep_frame hs
  have h1 := hc.recvStep_work hb hm hs
  have h2 := recvStep_recvWork hne hs
  have h3 := joinWork_congr hf.phase
  have hdel : h'.chan.delivered = h.chan.delivered := by simpa using hf.delivered
  simp only [streamWork, hdel]
  omega

/-- A block received pays for the next call of `recv`. -/
theorem Control.streamWork_block (hb : 0 < p.blockSize) (hc : h.Control p held)
    (hm : h.Measured p) {e : RecvEvent} {v : Item W}
    (hs : h.recvStep e = some (h', some (.ok (some v)))) : h'.streamWork p < h.streamWork p := by
  have hf := recvStep_frame hs
  have hm' := hm.consumes (.recvStep .refl hs)
  have hle := hm'.delivered_le hb (hc.recvStep hs)
  have h1 := hc.recvStep_work hb hm hs
  have h2 := recvWork_le h'
  have h3 := joinWork_congr hf.phase
  have hdel : h'.chan.delivered.length = h.chan.delivered.length + 1 := by
    simp [hf.delivered, RecvResult.blocks]
  simp only [streamWork, hdel] at hle ⊢
  omega

/-- The end of `recv` in any other way. -/
theorem Control.streamWork_ended (hb : 0 < p.blockSize) (hc : h.Control p held)
    (hm : h.Measured p) {e : RecvEvent} {r : Option (RecvResult W)}
    (hs : h.recvStep e = some (h', r)) : h'.streamWork p ≤ h.streamWork p + 3 := by
  have hf := recvStep_frame hs
  have h1 := hc.recvStep_work hb hm hs
  have h2 := recvWork_le h'
  have h3 := joinWork_congr hf.phase
  have hdel : h.chan.delivered.length ≤ h'.chan.delivered.length := by
    rw [hf.delivered, List.length_append]
    omega
  simp only [streamWork]
  omega

theorem streamWork_cancelRecv (h : HashStream W) :
    h.cancelRecv.streamWork p ≤ h.streamWork p + 3 := by
  have h1 := workersWork_cancelRecv (p := p) h
  have h2 := recvWork_le h.cancelRecv
  have h3 := joinWork_congr (cancelRecv_frame h).phase
  simp only [streamWork, delivered_cancelRecv]
  omega

@[simp] theorem streamWork_dropLoan (h : HashStream W) (l : Loan (Fin W) (List UInt8)) :
    (h.dropLoan l).streamWork p = h.streamWork p := by
  rw [streamWork, workersWork_dropLoan]
  rfl

@[simp] theorem streamWork_dropLoans (h : HashStream W) (loans : List (Loan (Fin W) (List UInt8))) :
    (loans.foldl HashStream.dropLoan h).streamWork p = h.streamWork p := by
  induction loans generalizing h with
  | nil => rfl
  | cons l loans ih => rw [List.foldl_cons, ih, streamWork_dropLoan]

theorem streamWork_close (hs : h.close = some h') : h'.streamWork p < h.streamWork p := by
  have h1 := close_work (p := p) hs
  obtain ⟨hf, hph⟩ := close_frame hs
  have h2 : h.polling = false ∧ h.phase = .alive := by
    simp only [HashStream.close, Option.ite_none_right_eq_some] at hs
    exact ⟨hs.1.2, hs.1.1⟩
  have h3 : h'.recvWork = h.recvWork := by
    simp [recvWork, hf.polling, h2.1]
  have h4 : h'.joinWork < h.joinWork := by
    simp only [joinWork, hph, h2.2]
    omega
  simp only [streamWork, hf.delivered]
  omega

theorem streamWork_join (hs : h.join = some h') : h'.streamWork p < h.streamWork p := by
  have h1 := join_work (p := p) hs
  obtain ⟨hf, hchan⟩ := join_frame hs
  have h3 : h'.recvWork = h.recvWork := by rw [recvWork, recvWork, hf.polling, hchan]
  have h4 := join_joinWork hs
  simp only [streamWork, hf.delivered]
  omega

end HashStream

/-! ## The client -/

def ClientPhase.rank : ClientPhase → ℕ
  | .running => 7
  | .leaving _ => 2
  | .dropping _ => 1
  | .returned _ => 0

/-- The steps whose work is counted in bytes, or not at all. -/
def ClientEvent.talks {W : ℕ} : ClientEvent W → Bool
  | .tick | .write _ | .read _ => true
  | .worker _ e => e.spurious
  | _ => false

namespace Client

open HashStream

variable {W : ℕ} {o : NewProcess} {D F : List UInt8} {c c' : Client W}

/-- What is before the loop of the client, but for the bytes. -/
def loopWork (o : NewProcess) (c : Client W) : ℕ :=
  c.hasher.streamWork o.hashFile + c.phase.rank

theorem loopWork_nextIteration (c : Client W) : c.nextIteration.loopWork o ≤ c.loopWork o + 3 := by
  have := streamWork_cancelRecv (p := o.hashFile) c.hasher
  simp only [loopWork, nextIteration]
  omega

theorem loopWork_prepareNextWriteBlock (c : Client W) :
    (c.prepareNextWriteBlock o).loopWork o = c.loopWork o := by
  have hk := prepareNextWriteBlock_keeps o c
  rw [loopWork, loopWork, hk.hasher, hk.phase]

theorem loopWork_blockWritten (hrun : c.phase = .running) (w : ResumableWriteFileBlock (Fin W)) :
    (c.blockWritten o w).loopWork o ≤ c.loopWork o := by
  unfold blockWritten
  dsimp only
  split_ifs
  · simp only [loopWork, streamWork_dropLoan, hrun, ClientPhase.rank]
    omega
  · rw [loopWork_prepareNextWriteBlock]
    simp only [loopWork, streamWork_dropLoan]
    exact le_rfl

theorem loopWork_advance (hrun : c.phase = .running) :
    (c.advance o).loopWork o ≤ c.loopWork o := by
  rcases advance_cases o c with ⟨-, h⟩ | ⟨-, -, h⟩ | ⟨-, -, h⟩ <;> rw [h] <;>
    simp only [loopWork, hrun, ClientPhase.rank] <;> omega

theorem loopWork_compare (hrun : c.phase = .running) (b : FileBlockData (Fin W)) (hash : String) :
    (c.compare o b hash).loopWork o ≤ c.loopWork o := by
  unfold compare
  split_ifs
  · refine (loopWork_advance ?_).trans ?_
    · rw [(prepareNextWriteBlock_keeps o _).phase]
      exact hrun
    · rw [loopWork_prepareNextWriteBlock]
      exact le_rfl
  · refine (loopWork_advance (by exact hrun)).trans ?_
    simp only [loopWork, streamWork_dropLoan]
    exact le_rfl

theorem Sends.loopWork_talks (hS : c.Sends o D) {e : ClientEvent W}
    (hs : c.step o F e = some c') (he : e.talks = true) : c'.loopWork o ≤ c.loopWork o + 3 := by
  cases move_of_step hs with
  | tick hrun hfree => exact loopWork_nextIteration c
  | write hrun hfree h =>
    obtain ⟨w, -, -, ⟨w', t, -, rfl⟩ | ⟨w', res, -, rfl⟩⟩ := write_cases h
    · exact Nat.le_add_right _ 3
    · refine (loopWork_nextIteration _).trans (Nat.add_le_add_right ?_ 3)
      exact loopWork_blockWritten (by exact hrun) w'
  | read hrun hfree hdone h =>
    obtain ⟨-, ⟨rs, n, -, rfl⟩ | ⟨rs, hash, -, rfl⟩ | ⟨rs, err, -, rfl⟩⟩ := read_cases h
    · exact Nat.le_add_right _ 3
    · exact loopWork_nextIteration _
    · exact loopWork_nextIteration _
  | @worker i e g h =>
    obtain rfl : e = .wake := by cases e <;> first | rfl | cases he
    have := hS.owns.control.streamWork_wake h
    simp only [loopWork]
    omega
  | recv | dropLocals | closeHasher | join | finish => cases he

theorem Sends.loopWork_lt (ho : o.Hashes W D) (hS : c.Sends o D) {e : ClientEvent W}
    (hs : c.step o F e = some c') (he : e.talks = false) : c'.loopWork o < c.loopWork o := by
  have hc := hS.owns.control
  have hm := hS.content.measured ho.fits
  have hb := ho.blockSize_pos
  cases move_of_step hs with
  | tick | write | read => cases he
  | recv hrun hover hne h =>
    obtain ⟨hash, rest, g, r, -, hrec, ⟨rfl, rfl⟩ | ⟨err, rfl, rfl⟩ | ⟨rfl, rfl⟩ | ⟨v, rfl, rfl⟩⟩ :=
      recv_cases h
    · have := hc.streamWork_recv hb hm hne hrec
      simp only [loopWork]
      omega
    · have := hc.streamWork_ended hb hm hrec
      simp only [loopWork, hrun, ClientPhase.rank]
      omega
    · have := hc.streamWork_ended hb hm hrec
      simp only [loopWork, hrun, ClientPhase.rank]
      omega
    · have hlt := hc.streamWork_block hb hm hrec
      refine lt_of_le_of_lt (loopWork_compare (by exact hrun) v.2 hash) ?_
      simp only [loopWork]
      omega
  | worker h =>
    have := hc.streamWork_worker ho.fits.sizes hm h he
    simp only [loopWork]
    omega
  | dropLocals hph =>
    simp only [loopWork, streamWork_dropLoans, hph, ClientPhase.rank]
    omega
  | closeHasher hph h =>
    have := streamWork_close (p := o.hashFile) h
    simp only [loopWork]
    omega
  | join hph h =>
    have := streamWork_join (p := o.hashFile) h
    simp only [loopWork]
    omega
  | finish hph h =>
    simp only [loopWork, hph, ClientPhase.rank]
    omega

end Client

/-! ## The server -/

def ServerPhase.rank : ServerPhase → ℕ
  | .running | .seeking _ => 8
  | .flushing => 3
  | .syncing => 2
  | .leaving _ => 1
  | .returned _ => 0

/-- The steps whose work is counted in bytes, or not at all. -/
def ServerEvent.talks {W : ℕ} : ServerEvent W → Bool
  | .disk (.ok 0) | .read _ | .hashOut _ => true
  | .worker _ e => e.spurious
  | _ => false

namespace Server

open HashStream

variable {W : ℕ} {o : ProcessNewClient} {D : List UInt8} {s s' : Server W}

/-- What is left of the block on its way to the disk. -/
def diskWork (s : Server W) : ℕ :=
  match s.phase with
  | .seeking _ => 4 * s.writeBuffer.length + 5
  | _ =>
    match s.writeToDisk with
    | some w => 4 * (s.writeBuffer.length - w.offset) + 4
    | none => 0

/-- What is before the loop of the server, but for the bytes. -/
def loopWork (o : ProcessNewClient) (s : Server W) : ℕ :=
  s.hasher.streamWork o.hashFile + s.phase.rank + s.diskWork + cond s.hashingDone 0 4

/-- How many of the bytes read are in whole frames. -/
def framed (s : Server W) : ℕ := (s.blocks.flatMap blockFrame).length

theorem loopWork_nextIteration (s : Server W) : s.nextIteration.loopWork o ≤ s.loopWork o + 3 := by
  have := streamWork_cancelRecv (p := o.hashFile) s.hasher
  simp only [loopWork, diskWork, nextIteration]
  omega

@[simp] theorem framed_nextIteration (s : Server W) : s.nextIteration.framed = s.framed := rfl

/-- A disk write that accepts a byte or fails, and the end of a block. -/
theorem loopWork_disk {r : Except String ℕ} (hrun : s.phase = .running) (hr : r ≠ .ok 0)
    (hs : s.disk r = some s') : s'.loopWork o < s.loopWork o := by
  obtain ⟨w, hw, hlt, hle, ⟨n, rfl, hmore, rfl⟩ | ⟨n, rfl, hmore, rfl⟩ | ⟨err, rfl, rfl⟩⟩ :=
    disk_cases hs
  · have hn : n ≠ 0 := fun h0 => hr (by rw [h0])
    simp only [loopWork, diskWork, wrote, hrun, hw]
    omega
  · refine lt_of_le_of_lt (loopWork_nextIteration _) ?_
    simp only [loopWork, diskWork, wrote, hrun, hw]
    omega
  · refine lt_of_le_of_lt (loopWork_nextIteration _) ?_
    simp only [loopWork, diskWork, hrun, hw]
    omega

theorem Owns.loopWork_lt (hsz : Sizes o.hashFile W) (ho : s.Owns o)
    (hm : s.hasher.Measured o.hashFile) {e : ServerEvent W} (hs : s.step o e = some s')
    (he : e.talks = false) : s'.loopWork o < s.loopWork o := by
  have hc := ho.control
  have hb := hsz.blockSize_pos
  cases move_of_step hs with
  | read | hashOut => cases he
  | disk hrun hfree h =>
    refine loopWork_disk hrun ?_ h
    rintro rfl
    cases he
  | diskDone hrun hfree h =>
    obtain ⟨w, hw, hle, rfl⟩ := diskDone_cases h
    refine lt_of_le_of_lt (loopWork_nextIteration _) ?_
    simp only [loopWork, diskWork, hrun, hw]
    omega
  | seekOk hph =>
    simp only [loopWork, diskWork, hph, ServerPhase.rank, ResumableAsyncWriteAll.new]
    omega
  | seekError hph =>
    simp only [loopWork, diskWork, hph, ServerPhase.rank]
    split <;> omega
  | recv hrun hhash hdone hne h =>
    obtain ⟨g, r, hrec, ⟨rfl, rfl⟩ | ⟨err, rfl, rfl⟩ | ⟨rfl, rfl⟩ | ⟨v, rfl, rfl⟩⟩ := recv_cases h
    · have := hc.streamWork_recv hb hm hne hrec
      simp only [loopWork, diskWork]
      omega
    · have := hc.streamWork_ended hb hm hrec
      simp only [loopWork, diskWork, hrun, ServerPhase.rank]
      omega
    · have := hc.streamWork_ended hb hm hrec
      simp only [loopWork, diskWork, hdone, cond_true, cond_false]
      omega
    · have := hc.streamWork_block hb hm hrec
      simp only [loopWork, diskWork, streamWork_dropLoan]
      omega
  | worker h =>
    have := hc.streamWork_worker hsz hm h he
    simp only [loopWork, diskWork]
    omega
  | flushOk hph | flushError hph | syncOk hph | syncError hph | finish hph =>
    simp only [loopWork, diskWork, hph, ServerPhase.rank]
    omega
  | closeHasher hph h =>
    have := streamWork_close (p := o.hashFile) h
    simp only [loopWork, diskWork]
    omega
  | join hph h =>
    have := streamWork_join (p := o.hashFile) h
    simp only [loopWork, diskWork]
    omega

theorem Owns.loopWork_talks (ho : s.Owns o) {e : ServerEvent W} (hs : s.step o e = some s')
    (he : e.talks = true) (hread : ∀ r, e ≠ .read r) : s'.loopWork o ≤ s.loopWork o + 3 := by
  cases move_of_step hs with
  | @disk r t hrun hfree h =>
    obtain ⟨w, hw, hlt, hle, ⟨n, rfl, hmore, rfl⟩ | ⟨n, rfl, hmore, rfl⟩ | ⟨err, rfl, rfl⟩⟩ :=
      disk_cases h
    · simp only [loopWork, diskWork, wrote, hrun, hw]
      omega
    · refine (loopWork_nextIteration _).trans ?_
      simp only [loopWork, diskWork, wrote, hrun, hw]
      omega
    · cases he
  | hashOut hrun hfree h =>
    obtain ⟨w, -, -, ⟨w', t, -, rfl⟩ | ⟨w', res, -, rfl⟩⟩ := hashOut_cases h
    · exact Nat.le_add_right _ 3
    · exact loopWork_nextIteration _
  | @worker i e g h =>
    obtain rfl : e = .wake := by cases e <;> first | rfl | cases he
    have := ho.control.streamWork_wake h
    simp only [loopWork, diskWork]
    omega
  | read => exact absurd rfl (hread _)
  | diskDone | seekOk | seekError | recv | flushOk | flushError | syncOk | syncError | closeHasher
  | join | finish => cases he

/-- A block received pays for its way to the disk. -/
theorem loopWork_read {r : Except String (List UInt8)} (hrun : s.phase = .running)
    (hdisk : s.writeToDisk = none) (hs : s.read o r = some s') :
    s'.loopWork o + 4 * s.framed ≤ s.loopWork o + 4 * s'.framed ∧
      (s'.phase = .flushing → s'.loopWork o < s.loopWork o) := by
  obtain ⟨-, ⟨rb, buf, n, -, rfl⟩ | ⟨rb, buf, off, -, rfl⟩ | ⟨rb, buf, err, -, rfl⟩⟩ :=
    read_cases hs
  · exact ⟨le_rfl, fun h => by simp [hrun] at h⟩
  · refine ⟨?_, fun h => by simp [nextIteration] at h⟩
    refine (Nat.add_le_add_right (loopWork_nextIteration _) _).trans ?_
    simp only [loopWork, diskWork, hrun, hdisk, ServerPhase.rank, framed_nextIteration]
    simp only [framed, blocks, writesOf_cons, List.flatMap_append, List.length_append,
      List.flatMap_singleton, blockFrame, BigEndian.length_toBytes]
    omega
  · refine ⟨(Nat.add_le_add_right (loopWork_nextIteration _) _).trans ?_,
      fun _ => lt_of_le_of_lt (loopWork_nextIteration _) ?_⟩
    · simp only [loopWork, diskWork, hrun, hdisk, ServerPhase.rank, framed_nextIteration]
      simp only [framed, blocks]
      omega
    · simp only [loopWork, diskWork, hrun, hdisk, ServerPhase.rank]
      omega

/-- The frames read are as long as those of the blocks that they are read as. -/
theorem Reads.framed_le (hr : s.Reads o) : s.framed ≤ s.consumed.length := by
  obtain ⟨frames, got, hframes, hcon, -⟩ := hr
  have hlen : ∀ {fs bs}, List.Forall₂ (IsFrame o) fs bs →
      (bs.flatMap blockFrame).length = fs.flatten.length := by
    intro fs bs h
    induction h with
    | nil => rfl
    | @cons f b fs bs hf _ ih =>
      have h8 := hf.header
      rw [List.flatMap_cons, List.flatten_cons, List.length_append, List.length_append, ih,
        blockFrame, List.length_append, BigEndian.length_toBytes, hf.data, List.length_drop]
      omega
  rw [framed, hlen hframes, hcon, List.length_append]
  exact Nat.le_add_right _ _

end Server

/-! ## The session -/

theorem length_flatMap_le {α β : Type*} {f : α → List β} {l : List α} {k : ℕ}
    (h : ∀ a ∈ l, (f a).length ≤ k) : (l.flatMap f).length ≤ l.length * k := by
  rw [List.length_flatMap]
  have := List.sum_le_card_nsmul (l.map fun a => (f a).length) k (by simpa using h)
  simpa using this

namespace Setup

/-- The number of blocks of the source, and of the destination. -/
def blocks (x : Setup) : ℕ := divCeil x.source.length x.blockSize

/-- Bounds for the bytes of all frames, and of all hashes. -/
def maxFrames (x : Setup) : ℕ := x.blocks * (x.blockSize + 8)

def maxHashes (x : Setup) : ℕ := x.blocks * 264

end Setup

theorem SessionEvent.succeeds_of_progress {Wc Ws : ℕ} {e : SessionEvent Wc Ws}
    (hp : e.progress = true) : e.succeeds = true := by
  unfold progress at hp
  split at hp
  all_goals first | cases hp | exact hp

theorem Client.connected_read {W : ℕ} {o : NewProcess} {F : List UInt8} {c c' : Client W}
    {r : Except String (List UInt8)} (hs : c.step o F (.read r) = some c') :
    c'.connected = true := by
  cases Client.move_of_step hs with
  | read hrun hfree hdone h =>
    obtain ⟨-, ⟨rs, n, -, rfl⟩ | ⟨rs, hash, -, rfl⟩ | ⟨rs, err, -, rfl⟩⟩ := Client.read_cases h <;>
      simp [connected, Client.nextIteration, hrun]

namespace Session

open HashStream

variable {x : Setup} {s s' : Session x.clientWorkers x.serverWorkers}

/-- What is before a session in which nothing fails. -/
def work (x : Setup) (s : Session x.clientWorkers x.serverWorkers) : ℕ :=
  s.client.loopWork x.newProcess + s.server.loopWork x.processNewClient +
    4 * (x.maxFrames - s.client.sent.length) + 4 * (x.maxHashes - s.client.consumed.length) +
    4 * (x.maxFrames - s.server.framed) + (x.maxFrames - s.server.consumed.length) +
    4 * (x.maxHashes - s.server.sent.length)

/-- What the client has read was sent, also after it has closed the connection. -/
structure Heard (x : Setup) (s : Session x.clientWorkers x.serverWorkers) : Prop where
  sound : s.Sound x
  heard : s.client.consumed <+: s.server.sent

theorem Heard.step (hH : s.Heard x) {e : SessionEvent x.clientWorkers x.serverWorkers}
    (hok : e.succeeds = true) (hs : s.step x e = some s') : s'.Heard x := by
  have hS := hH.sound.step hok hs
  refine ⟨hS, ?_⟩
  by_cases hc : s'.client.connected = true
  · rw [← hS.toClient hc]
    exact List.prefix_append _ _
  cases move_of_step hs with
  | client hwrite hread h =>
    rw [(Client.sameReader_step h hread).consumed]
    exact hH.heard
  | write hcut hconn h | writeLost hdown h =>
    rw [(Client.sameReader_step h (by simp)).consumed]
    exact hH.heard
  | read hne hstream h | readEnd hnil hend h =>
    exact absurd (Client.connected_read h) hc
  | server hwrite hread h =>
    rw [Server.sent_step h hwrite]
    exact hH.heard
  | hashOut hcut hconn h | hashLost hdown h =>
    rw [Server.sent_hashOut h]
    exact hH.heard.trans (List.prefix_append _ _)
  | serverRead hne hstream h | serverReadEnd hnil hend h =>
    rw [Server.sent_step h (by simp)]
    exact hH.heard
  | cut => cases hok

/-! ## Bounds for the bytes -/

/-- The frames begun are those of the first blocks that differ. -/
theorem Sound.begun_diverging (hS : s.Sound x) : s.client.begun <+:
    Client.diverging x.newProcess x.source s.client.decoded s.client.blockIdx := by
  cases hph : s.client.phase with
  | running =>
    rw [← hS.wire.sends.frames.begun (.inl hph)]
    exact List.prefix_append _ _
  | leaving r | dropping r | returned r =>
    obtain ⟨-, -, -, -, h⟩ := hS.finishes.ended r (by rw [hph]; rfl)
    rw [Client.begun, h]

/-- No frame is begun twice. -/
theorem Sound.begun_le (hS : s.Sound x) : s.client.begun.length ≤ x.blocks := by
  have hdiv : (Client.diverging x.newProcess x.source s.client.decoded
      s.client.blockIdx).length ≤ s.client.blockIdx := by
    refine (List.length_filter_le _ _).trans ?_
    rw [List.length_range]
  calc s.client.begun.length
      ≤ (Client.diverging x.newProcess x.source s.client.decoded s.client.blockIdx).length :=
        hS.begun_diverging.length_le
    _ ≤ s.client.blockIdx := hdiv
    _ ≤ x.blocks := hS.wire.sends.blockIdx_le x.reads.hashes

theorem Sound.sent_le (hS : s.Sound x) : s.client.sent.length ≤ x.maxFrames := by
  have hlen := hS.begun_le
  rw [Client.begun, List.length_map] at hlen
  refine (length_flatMap_le (k := x.blockSize + 8) fun f hf => ?_).trans
    (Nat.mul_le_mul_right _ hlen)
  have hle := (hS.wire.sends.frames.accepted f (List.mem_reverse.mp hf)).2.length_le
  have hblock : (Client.frame x.newProcess x.source f.1).length ≤ 8 + x.blockSize := by
    rw [Client.frame, blockFrame, List.length_append, BigEndian.length_toBytes, length_block]
    exact Nat.add_le_add_left (Nat.min_le_left _ _) _
  omega

theorem Sound.consumed_le (hS : s.Sound x) :
    s.server.framed ≤ s.server.consumed.length ∧ s.server.consumed.length ≤ x.maxFrames := by
  constructor
  · exact hS.wire.reads.framed_le
  · have hle := hS.sent_le
    rw [← hS.toServer, List.length_append] at hle
    omega

theorem Sound.hashes_length (hS : s.Sound x) : s.server.hashes.length ≤ x.blocks := by
  have hann := hS.announces
  have hle := (hann.content.delivered_prefix x.blockSize_pos hann.owns.control).length_le
  rw [List.length_map, length_sequential, x.dest_length] at hle
  rwa [Server.hashes, List.length_map]

theorem Sound.hashes_le (hS : s.Sound x) : s.server.sent.length ≤ x.maxHashes := by
  have hall : (s.server.hashes.flatMap writeString).length ≤ x.maxHashes := by
    refine (length_flatMap_le (k := 264) fun hash hmem => ?_).trans
      (Nat.mul_le_mul_right _ hS.hashes_length)
    have := hS.length_hash hmem
    rw [writeString, List.length_append, BigEndian.length_toBytes]
    omega
  rw [← hS.announces.sent, List.length_append] at hall
  omega

/-- The client has decoded the first hashes that it was sent. -/
theorem Heard.decoded_prefix (hH : s.Heard x) :
    s.client.decoded.flatMap writeString <+: s.client.consumed := by
  have hS := hH.sound
  obtain ⟨frames, got, hframes, hcon, -⟩ := hS.reads
  have hall : frames.flatten ++ got <+: s.server.hashes.flatMap writeString := by
    rw [← hcon, ← hS.announces.sent]
    exact hH.heard.trans (List.prefix_append _ _)
  obtain ⟨hflat, -⟩ := exists_strings x.clientBits_range.2 (lt_two_pow x.clientBits_range.1)
    hframes (fun _ h => hS.length_hash_lt h) hall
  rw [hcon, hflat]
  exact List.prefix_append _ _

/-- After the client has closed the connection, no hash is left to send. -/
theorem Heard.unsent_eq (hH : s.Heard x) (hc : s.client.connected = false) :
    s.server.unsent = [] := by
  have hS := hH.sound
  obtain ⟨r, hr⟩ : ∃ r, s.client.phase.result = some r := by
    cases hph : s.client.phase with
    | running => simp [Client.connected, hph] at hc
    | leaving r | dropping r | returned r => exact ⟨r, rfl⟩
  -- every hash has been decoded
  have hidx := (hS.client_delivered hr).2.1
  have hdec := hS.wire.sends.counts.le_decoded
  have hlen := hS.hashes_length
  have heq : s.client.decoded = s.server.hashes :=
    hS.decoded.eq_of_length_le (by rw [Setup.blocks] at hlen; omega)
  have hheard := (hH.decoded_prefix.trans hH.heard).length_le
  have hsent := congrArg List.length hS.announces.sent
  rw [heq] at hheard
  rw [List.length_append] at hsent
  exact List.eq_nil_of_length_eq_zero (by omega)

/-! ## Every step -/

/-- A `write` that is ready accepts a byte. -/
theorem write_ne_nil {n : ℕ} (hcut : s.cut = false) (hconn : s.server.connected = true)
    (hs : s.step x (.client (.write (.ok n))) = some s') : s.client.offered.take n ≠ [] := by
  simp only [step, clientStreams, hcut, hconn, and_self, if_true] at hs
  intro hnil
  simp [put, hnil] at hs

theorem hashOut_ne_nil {n : ℕ} (hcut : s.cut = false) (hconn : s.client.connected = true)
    (hs : s.step x (.server (.hashOut (.ok n))) = some s') : s.server.offered.take n ≠ [] := by
  simp only [step, serverStreams, hcut, hconn, and_self, if_true] at hs
  intro hnil
  simp [put, hnil] at hs

theorem Sound.client_work (hS : s.Sound x) {e : ClientEvent x.clientWorkers}
    (hp : (SessionEvent.client e : SessionEvent x.clientWorkers x.serverWorkers).progress = true)
    (hs : s.step x (.client e) = some s') : s'.work x < s.work x := by
  have hS' := hS.step (SessionEvent.succeeds_of_progress hp) hs
  have hsends := hS.wire.sends
  have hsent := hS'.sent_le
  cases move_of_step hs with
  | @client e c hwrite hread h =>
    have hlt := hsends.loopWork_lt x.reads.hashes h (by
      cases e with
      | worker i e => cases e <;> first | rfl | cases hp
      | write r => exact absurd rfl (hwrite r)
      | read r => exact absurd rfl (hread r)
      | tick => cases hp
      | _ => rfl)
    simp only [work, (Client.begins_step h hwrite).sent, (Client.sameReader_step h hread).consumed]
    omega
  | write hcut hconn h =>
    have hle := hsends.loopWork_talks h rfl
    have hne := List.length_pos_iff.mpr (write_ne_nil hcut hconn hs)
    have hadd := congrArg List.length (hsends.sent_write h).1
    rw [List.length_append, bytesWritten] at hadd
    simp only [work, (Client.sameReader_step h (by simp)).consumed] at hsent ⊢
    omega
  | writeLost hdown h =>
    obtain ⟨-, -, hconn⟩ := hS.connected_of_running (Client.running_of_write h)
    simp [hS.uncut, hconn] at hdown
  | read hne hstream h =>
    have hle := hsends.loopWork_talks h rfl
    have hpos := List.length_pos_iff.mpr hne
    have hadd := congrArg List.length (hS.client_read hne hstream h).2.1
    have hconn := (hS'.toClient (Client.connected_read h)).symm
    have hmax := hS'.hashes_le
    rw [List.length_append] at hadd
    rw [hconn, List.length_append] at hmax
    simp only [work, (Client.begins_step h (by simp)).sent] at hmax ⊢
    omega
  | readEnd hnil hend h =>
    obtain ⟨-, -, hconn⟩ := hS.connected_of_running (Client.running_of_read h)
    simp [hS.uncut, hconn] at hend

theorem Heard.server_work (hH : s.Heard x) {e : ServerEvent x.serverWorkers}
    (hp : (SessionEvent.server e : SessionEvent x.clientWorkers x.serverWorkers).progress = true)
    (hs : s.step x (.server e) = some s') : s'.work x < s.work x := by
  have hS := hH.sound
  have hS' := hS.step (SessionEvent.succeeds_of_progress hp) hs
  have howns := hS.announces.owns
  have hm := hS.announces.content.measured x.fits
  have hcon := hS'.consumed_le
  have hsent := hS'.hashes_le
  cases move_of_step hs with
  | @server e v hwrite hread h =>
    have hlt := howns.loopWork_lt x.fits.sizes hm h (by
      cases e with
      | worker i e => cases e <;> first | rfl | cases hp
      | hashOut r => exact absurd rfl (hwrite r)
      | read r => exact absurd rfl (hread r)
      | disk r =>
        rcases r with err | _ | n
        · rfl
        · cases hp
        · rfl
      | _ => rfl)
    have hk := Server.sameReader_step h hread
    simp only [work, Server.framed, hk.blocks, hk.consumed, Server.sent_step h hwrite]
    omega
  | hashOut hcut hconn h =>
    have hle := howns.loopWork_talks h rfl (by simp)
    have hne := List.length_pos_iff.mpr (hashOut_ne_nil hcut hconn hs)
    have hadd := congrArg List.length (Server.sent_hashOut h)
    have hk := Server.sameReader_step h (by simp)
    rw [List.length_append, bytesWritten] at hadd
    simp only [work, Server.framed, hk.blocks, hk.consumed] at hsent ⊢
    omega
  | hashLost hdown h =>
    -- the client has closed the connection, with every hash sent
    exfalso
    have hc : s.client.connected = false := by simpa [hS.uncut] using hdown
    cases Server.move_of_step h with
    | hashOut hrun hfree h =>
      obtain ⟨w, hw, -⟩ := Server.hashOut_cases h
      have hnil := hH.unsent_eq hc
      rw [Server.unsent, hw] at hnil
      exact hS.announces.pending w hw hnil
  | @serverRead bytes rest v hne hstream h =>
    have hpos := List.length_pos_iff.mpr hne
    have hadd : v.consumed.length = s.server.consumed.length + bytes.length := by
      rw [Server.consumed_step h, List.length_append]
      rfl
    have hsame := Server.sent_step h (by simp)
    cases Server.move_of_step h with
    | read hrun hfree hdisk h =>
      have hread := (Server.loopWork_read hrun hdisk h).1
      have hframed := hS.consumed_le
      simp only [work, hsame] at hcon ⊢
      omega
  | @serverReadEnd r v hnil hend h =>
    have hadd : v.consumed = s.server.consumed := by
      rw [Server.consumed_step h]
      simp [ServerEvent.incoming, hnil]
    have hsame := Server.sent_step h (by simp)
    cases Server.move_of_step h with
    | read hrun hfree hdisk h =>
      obtain ⟨frames, got, -, -, hread⟩ := hS.wire.reads
      obtain ⟨-, ⟨-, -, hne, -⟩ | ⟨b, -, -, hne, -⟩ | ⟨hblocks, hph, -⟩⟩ := hread.read hrun h
      · exact absurd hnil hne
      · exact absurd hnil hne
      · have hlt := (Server.loopWork_read hrun hdisk h).2 hph
        simp only [work, Server.framed, hblocks, hadd, hsame]
        omega

/-- Every step that makes progress leaves less to do. -/
theorem Heard.work_lt (hH : s.Heard x) {e : SessionEvent x.clientWorkers x.serverWorkers}
    (hp : e.progress = true) (hs : s.step x e = some s') : s'.work x < s.work x := by
  cases e with
  | client e => exact hH.sound.client_work hp hs
  | server e => exact hH.server_work hp hs
  | cut n => cases hp

/-- The timer, a spurious wakeup and a disk write of no byte cost at most the `recv` that they
cancel. -/
theorem Heard.work_le (hH : s.Heard x) {e : SessionEvent x.clientWorkers x.serverWorkers}
    (hok : e.succeeds = true) (hp : e.progress = false) (hs : s.step x e = some s') :
    s'.work x ≤ s.work x + 3 := by
  have hS := hH.sound
  cases e with
  | cut n => cases hok
  | client e =>
    have htalks : e.talks = true ∧ (∀ r, e ≠ .write r) ∧ ∀ r, e ≠ .read r := by
      cases e with
      | tick => simp [ClientEvent.talks]
      | worker i e => cases e <;> simp_all [ClientEvent.talks, SessionEvent.progress,
          SessionEvent.succeeds, ClientEvent.succeeds, WorkerEvent.spurious]
      | write r => rcases r with err | n <;> simp_all [SessionEvent.progress]
      | read r => rcases r with err | n <;> simp_all [SessionEvent.progress]
      | _ => cases hp
    cases move_of_step hs with
    | client hwrite hread h =>
      have hle := hS.wire.sends.loopWork_talks h htalks.1
      simp only [work, (Client.begins_step h hwrite).sent,
        (Client.sameReader_step h hread).consumed]
      omega
    | write | writeLost => exact absurd rfl (htalks.2.1 _)
    | read | readEnd => exact absurd rfl (htalks.2.2 _)
  | server e =>
    have htalks : e.talks = true ∧ (∀ r, e ≠ .hashOut r) ∧ ∀ r, e ≠ .read r := by
      cases e with
      | worker i e => cases e <;> simp_all [ServerEvent.talks, SessionEvent.progress,
          SessionEvent.succeeds, ServerEvent.succeeds, WorkerEvent.spurious]
      | disk r => rcases r with err | _ | n <;> simp_all [SessionEvent.progress, ServerEvent.talks]
      | hashOut r => rcases r with err | n <;> simp_all [SessionEvent.progress]
      | read r => rcases r with err | n <;> simp_all [SessionEvent.progress]
      | _ => simp_all [SessionEvent.progress]
    cases move_of_step hs with
    | server hwrite hread h =>
      have hle := hS.announces.owns.loopWork_talks h htalks.1 hread
      have hk := Server.sameReader_step h hread
      simp only [work, Server.framed, hk.blocks, hk.consumed, Server.sent_step h hwrite]
      omega
    | hashOut | hashLost => exact absurd rfl (htalks.2.1 _)
    | serverRead | serverReadEnd => exact absurd rfl (htalks.2.2 _)

end Session

end Deltasync
