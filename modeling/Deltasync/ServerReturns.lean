import Deltasync.SessionReturns
import Deltasync.HonestClient

/-!
# `process_new_client` comes to its end, whoever the peer is

The peer sends what it likes and then closes the connection, or the connection breaks.
Whatever the bytes are and whichever operations fail, the loop takes a bounded number
of steps, and there is always one that it can take: the branch that reads from the
peer waits for nobody but the disk.

What may not end is the drop of the `HashStream`.  A hash that lies in the slot of its
channel when the stream is closed keeps the buffer of a worker, the worker waits for
it in `blocking_reclaim`, and `drop` waits for the worker.
-/

namespace Deltasync

open Blocks Transition

namespace HashStream

variable {W : ℕ} {p : HashFile} {F : List UInt8} {h h' : HashStream W}
  {held : List (Loan (Fin W) (List UInt8))}

/-! ## Workers on a file that changes -/

/-- What the workers hold, whatever is in the file: at most a full buffer, and hashes. -/
structure Holds (p : HashFile) (h : HashStream W) : Prop where
  filled : ∀ i, (h.worker i).pc = .reading → (h.worker i).filled ≤ (h.worker i).buffer.length
  hashed : ∀ idx v, (idx, v) ∈ h.chan.calls → ∃ data, v.2.hash = p.hash data

theorem holds_hashFile : (hashFile p W).Holds p :=
  ⟨by simp [hashFile], by simp [hashFile, OrderedChannel.new]⟩

theorem Holds.setWorker (hH : h.Holds p) {i : Fin W} {w : Worker}
    (hw : w.pc = .reading → w.filled ≤ w.buffer.length) : (h.setWorker i w).Holds p where
  filled := (Function.forall_update_iff h.worker
    fun (_ : Fin W) (w : Worker) => w.pc = .reading → w.filled ≤ w.buffer.length).mpr
      ⟨hw, fun j _ => hH.filled j⟩
  hashed := hH.hashed

theorem Holds.of_eq (hH : h.Holds p) (hw : h'.worker = h.worker)
    (hcalls : h'.chan.calls = h.chan.calls) : h'.Holds p where
  filled := by
    rw [hw]
    exact hH.filled
  hashed := by
    rw [hcalls]
    exact hH.hashed

/-- A step of worker `i`, which may touch the channel but calls nothing. -/
theorem Holds.update (hH : h.Holds p) {i : Fin W} {w : Worker}
    (hworker : h'.worker = Function.update h.worker i w)
    (hw : w.pc = .reading → w.filled ≤ w.buffer.length)
    (hcalls : h'.chan.calls = h.chan.calls) : h'.Holds p :=
  (hH.setWorker hw).of_eq hworker hcalls

/-- A read does not go past the end of the buffer. -/
theorem filled_readSome {w : Worker} {n : ℕ} (hlt : w.filled < w.buffer.length) :
    (readSome F w n).filled ≤ (readSome F w n).buffer.length := by
  unfold readSome
  split
  · exact hlt.le
  · next b bs heq =>
    have hle : (b :: bs).length ≤ w.buffer.length - w.filled := by
      rw [← heq, List.length_take]
      omega
    dsimp only
    rw [length_patch (by omega)]
    omega

theorem Holds.workerStep (hc : h.Control p held) (hH : h.Holds p) {i : Fin W} {e : WorkerEvent}
    (hs : h.workerStep p F i e = some h') : h'.Holds p := by
  cases workerMove_of_step hs with
  | openOk | openError | seekOk | seekError | leaveLoop | readFails | reclaim | seekNextError =>
    exact hH.setWorker (by simp)
  | enterBlock => exact hH.setWorker fun _ => Nat.zero_le _
  | read hpc hn hlt => exact hH.setWorker fun _ => filled_readSome hlt
  | send hpc hfull hcs =>
    simp only [OrderedChannel.callSend, Option.ite_none_right_eq_some, Option.some.injEq] at hcs
    obtain ⟨-, rfl⟩ := hcs
    refine ⟨(hH.setWorker (i := i) (by simp)).filled, fun idx v hmem => ?_⟩
    rcases List.mem_append.mp hmem with hmem | hmem
    · exact hH.hashed idx v hmem
    · obtain ⟨-, rfl⟩ : idx = (h.worker i).blockIdx ∧ v = blockData p i (h.worker i) := by
        simpa using hmem
      exact ⟨_, rfl⟩
  | sendStep hpc hcs =>
    obtain ⟨idx, v, hi, ⟨-, rfl, rfl⟩ | ⟨-, -, rfl, rfl⟩ | ⟨-, -, rfl, rfl⟩⟩ :=
      hc.chan.sendStep_cases hcs
    · exact hH.update (i := i) rfl (by simp) rfl
    · exact hH.update (i := i) rfl (by simp) rfl
    · exact hH.of_eq rfl rfl
  | wake => exact hH.of_eq rfl rfl
  | nextBlock hpc hn =>
    simp only [HashStream.nextBlock, Option.ite_none_right_eq_some, Option.some.injEq] at hn
    obtain ⟨-, rfl⟩ := hn
    exact hH.setWorker (by simp)
  | publish => exact hH.update (i := i) rfl (by simp) rfl
  | closeTx hpc hcs =>
    simp only [OrderedChannel.closeTx, Option.ite_none_right_eq_some, Option.some.injEq] at hcs
    obtain ⟨-, rfl⟩ := hcs
    exact hH.update (i := i) rfl (by simp) rfl
  | exit hpc hcs =>
    simp only [OrderedChannel.dropTx, Option.ite_none_right_eq_some, Option.some.injEq] at hcs
    obtain ⟨-, rfl⟩ := hcs
    exact hH.update (i := i) rfl (by simp) rfl

theorem Holds.consumes (hH : h.Holds p) (hg : h.Consumes h') : h'.Holds p := by
  induction hg with
  | refl => exact hH
  | @cancelRecv g _ ih =>
    have hf := cancelRecv_frame g
    exact ih.of_eq hf.worker hf.calls
  | dropLoan _ l ih => exact ih.setWorker (ih.filled l.tx)
  | recvStep _ hs ih =>
    have hf := recvStep_frame hs
    exact ih.of_eq hf.worker hf.calls
  | close _ hs ih =>
    have hf := (close_frame hs).1
    exact ih.of_eq hf.worker hf.calls
  | join _ hs ih =>
    have hf := (join_frame hs).1
    exact ih.of_eq hf.worker hf.calls

/-- Every block delivered came with the hash of something. -/
theorem Holds.delivered (hc : h.Control p held) (hH : h.Holds p) {v : Item W}
    (hv : v ∈ h.chan.delivered) : ∃ data, v.2.hash = p.hash data := by
  obtain ⟨k, hk⟩ := List.mem_iff_getElem?.mp hv
  have hlt := (List.getElem?_eq_some_iff.mp hk).1
  refine hH.hashed k v (hc.chan.placed_called k v ?_)
  rw [hc.chan.placed_eq, List.getElem?_append_left hlt, hk]

end HashStream

/-- The steps that lead on, also when an operation fails in them. -/
def ServerEvent.advances {W : ℕ} : ServerEvent W → Bool
  | .disk (.ok 0) | .hashOut (.ok 0) => false
  | .worker _ e => !e.spurious
  | _ => true

namespace Server

open HashStream

variable {W : ℕ} {o : ProcessNewClient} {D inp : List UInt8} {s s' : Server W}

/-- The peer sends `inp` and closes the connection, which may also break at any time. -/
def hears (inp : List UInt8) (s : Server W) : ServerEvent W → Bool
  | .read (.error _) => true
  | e => s.fedBy inp e

/-- What holds whoever the peer is and whatever fails. -/
structure Attends (o : ProcessNewClient) (inp : List UInt8) (s : Server W) : Prop where
  owns : s.Owns o
  measured : s.hasher.Measured o.hashFile
  holds : s.hasher.Holds o.hashFile
  joined : s.hasher.Joined
  reads : s.Reads o
  consumed : s.consumed <+: inp
  pending : s.Pending

theorem attends_new (hfit : Fits o.hashFile W D) (dest : List UInt8) :
    (new o W dest).Attends o inp where
  owns := owns_new dest
  measured := measured_hashFile hfit.blockSize_pos
  holds := holds_hashFile
  joined := .of_alive rfl
  reads := reads_new dest
  consumed := List.nil_prefix
  pending := by simp [Pending, new]

theorem joined_step (ho : s.Owns o) (hj : s.hasher.Joined) {e : ServerEvent W}
    (hs : s.step o e = some s') : s'.hasher.Joined := by
  rcases hasher_step hs with ⟨i, e', -, h⟩ | h
  · exact hj.workerStep ho.control h
  · exact hj.consumes h

/-- The bytes read are the next ones that the peer has sent. -/
theorem incoming_prefix {e : ServerEvent W} (hh : s.hears inp e = true)
    (hc : s.consumed <+: inp) : s.consumed ++ e.incoming <+: inp := by
  cases e with
  | read r =>
    cases r with
    | error err => simpa [ServerEvent.incoming, bytesRead] using hc
    | ok bytes =>
      simp only [hears, fedBy] at hh
      split_ifs at hh with hnil
      · simpa [ServerEvent.incoming, bytesRead, hnil] using hc
      · simpa [ServerEvent.incoming, bytesRead] using hh
  | _ => simpa [ServerEvent.incoming] using hc

theorem Attends.step (hfit : Fits o.hashFile W D) (hA : s.Attends o inp)
    {e : ServerEvent W} (hh : s.hears inp e = true) (hs : s.step o e = some s') :
    s'.Attends o inp where
  owns := hA.owns.step hs
  measured := by
    rcases hasher_step hs with ⟨i, e', -, h⟩ | h
    · exact hA.measured.workerStep hfit.sizes hA.owns.control h
    · exact hA.measured.consumes h
  holds := by
    rcases hasher_step hs with ⟨i, e', -, h⟩ | h
    · exact hA.holds.workerStep hA.owns.control h
    · exact hA.holds.consumes h
  joined := joined_step hA.owns hA.joined hs
  reads := hA.reads.step hs
  consumed := by
    rw [consumed_step hs]
    exact incoming_prefix hh hA.consumed
  pending := (hA.pending.step hA.owns hs).1

/-! ## The work that is left -/

/-- The bytes of hashes that may still be written. -/
def hashWork (o : ProcessNewClient) (s : Server W) : ℕ :=
  s.unsent.length + 264 * (o.hashFile.blocks - s.hashes.length)

/-- What is before `process_new_client`, with a peer that sends `inp`. -/
def work (o : ProcessNewClient) (inp : List UInt8) (s : Server W) : ℕ :=
  s.loopWork o + 4 * s.hashWork o + 4 * (inp.length - s.framed) +
    (inp.length - s.consumed.length)

theorem Attends.framed_le (hA : s.Attends o inp) :
    s.framed ≤ s.consumed.length ∧ s.consumed.length ≤ inp.length :=
  ⟨hA.reads.framed_le, hA.consumed.length_le⟩

/-- A hash delivered is written for what was set aside for its block. -/
theorem Attends.hashWork_le (hhash : ∀ data, (asBytes (o.hash data)).length ≤ 256)
    (hb : 0 < o.blockSize) (hA : s.Attends o inp) (hA' : s'.Attends o inp) {e : ServerEvent W}
    (he : ∀ r, e ≠ .hashOut r) (hs : s.step o e = some s') : s'.hashWork o ≤ s.hashWork o := by
  cases (hA.pending.step hA.owns hs).2 with
  | same _ hh hu => rw [hashWork, hashWork, hh, hu]
  | next _ hnil hash hh hu =>
    have hle : s'.hashes.length ≤ o.hashFile.blocks := by
      rw [hashes, List.length_map]
      exact hA'.measured.delivered_le hb hA'.owns.control
    have hlen : (writeString hash).length ≤ 264 := by
      obtain ⟨v, hv, rfl⟩ : ∃ v ∈ s'.hasher.chan.delivered, v.2.hash = hash :=
        List.mem_map.mp (show hash ∈ s'.hashes by rw [hh]; simp)
      obtain ⟨data, hdata⟩ := hA'.holds.delivered hA'.owns.control hv
      have := hhash data
      rw [writeString, List.length_append, BigEndian.length_toBytes, hdata]
      change 8 + (asBytes (o.hash data)).length ≤ 264
      omega
    rw [hh, List.length_append, List.length_singleton] at hle
    simp only [hashWork, hh, hu, hnil, List.length_append, List.length_singleton, List.length_nil]
    omega
  | accepted | lost => exact absurd rfl (he _)

/-- A write of a hash that accepts a byte or fails leaves fewer bytes. -/
theorem Attends.hashWork_hashOut (hA : s.Attends o inp) {r : Except String ℕ}
    (hs : s.step o (.hashOut r) = some s') :
    s'.hashWork o + (if r = .ok 0 then 0 else 1) ≤ s.hashWork o := by
  obtain ⟨w, hw⟩ : ∃ w, s.writeHash = some w := by
    cases move_of_step hs with
    | hashOut hrun hfree h =>
      obtain ⟨w, hw, -⟩ := hashOut_cases h
      exact ⟨w, hw⟩
  have hne := List.length_pos_iff.mpr (hA.pending w hw)
  have hunsent : s.unsent = w.remaining := by rw [unsent, hw]
  have hoffered : s.offered = w.remaining := by
    rw [offered, hw]
    exact ResumableWriteString.slice_eq w
  cases (hA.pending.step hA.owns hs).2 with
  | same he => exact absurd rfl (he _)
  | next he => exact absurd rfl (he _)
  | @accepted n _ hh hu =>
    have hlen := congrArg List.length hu
    rw [hoffered, hunsent, List.length_append, List.length_take] at hlen
    simp only [hashWork, hh, hunsent, Except.ok.injEq]
    split_ifs <;> omega
  | lost hh hu =>
    simp only [hashWork, hh, hu, hunsent, List.length_nil, reduceCtorEq, if_false]
    omega

theorem Attends.work_read (hhash : ∀ data, (asBytes (o.hash data)).length ≤ 256)
    (hb : 0 < o.blockSize) (hA : s.Attends o inp) (hA' : s'.Attends o inp)
    {r : Except String (List UInt8)} (hs : s.step o (.read r) = some s') :
    s'.work o inp < s.work o inp := by
  have hhw := hA.hashWork_le hhash hb hA' (by simp) hs
  have hle := hA.framed_le
  have hle' := hA'.framed_le
  cases move_of_step hs with
  | read hrun hfree hdisk h =>
    obtain ⟨hloop, hend⟩ := loopWork_read hrun hdisk h
    obtain ⟨frames, got, -, -, hread⟩ := hA.reads
    obtain ⟨hcon, hcases⟩ := hread.read hrun h
    have hlen := congrArg List.length hcon
    rw [List.length_append] at hlen
    have hsome : bytesRead r ≠ [] → s'.work o inp < s.work o inp := fun hne => by
      have := List.length_pos_iff.mpr hne
      simp only [work]
      omega
    rcases hcases with ⟨-, -, hne, -⟩ | ⟨b, -, -, hne, -⟩ | ⟨hblocks, hph, hnil, -⟩
    · exact hsome hne
    · exact hsome hne
    · have hlt := hend hph
      have hframed : s'.framed = s.framed := by rw [framed, hblocks, framed]
      rw [hnil, List.length_nil] at hlen
      simp only [work, hframed]
      omega

/-- Every step that leads on leaves less to do; the other ones may undo some of it. -/
theorem Attends.work_step (hfit : Fits o.hashFile W D)
    (hhash : ∀ data, (asBytes (o.hash data)).length ≤ 256) (hA : s.Attends o inp)
    {e : ServerEvent W} (hh : s.hears inp e = true) (hs : s.step o e = some s') :
    s'.work o inp + (if e.advances then 1 else 0) ≤
      s.work o inp + (if !e.advances then 3 else 0) := by
  have hA' := hA.step hfit hh hs
  have hb : 0 < o.blockSize := hfit.blockSize_pos
  by_cases hread : ∃ r, e = .read r
  · obtain ⟨r, rfl⟩ := hread
    have := hA.work_read hhash hb hA' hs
    simp only [ServerEvent.advances, Bool.not_true, if_true, Bool.false_eq_true, if_false]
    omega
  have hnr : ∀ r, e ≠ .read r := fun r he => hread ⟨r, he⟩
  have hk := sameReader_step hs hnr
  have hframed : s'.framed = s.framed := by rw [framed, hk.blocks, framed]
  by_cases hout : ∃ r, e = .hashOut r
  · obtain ⟨r, rfl⟩ := hout
    have hloop := hA.owns.loopWork_talks hs rfl hnr
    have hlt := hA.hashWork_hashOut hs
    simp only [work, hframed, hk.consumed]
    cases hadv : (ServerEvent.hashOut r : ServerEvent W).advances with
    | false =>
      simp only [Bool.not_false, if_true, Bool.false_eq_true, if_false]
      omega
    | true =>
      -- a byte of the hash pays for the `recv` that is cancelled
      have hne : r ≠ .ok 0 := by
        rintro rfl
        cases hadv
      rw [if_neg hne] at hlt
      simp only [Bool.not_true, if_true, Bool.false_eq_true, if_false]
      omega
  have hhw := hA.hashWork_le hhash hb hA' (fun r he => hout ⟨r, he⟩) hs
  simp only [work, hframed, hk.consumed]
  cases ht : e.talks with
  | false =>
    have := hA.owns.loopWork_lt hfit.sizes hA.measured hs ht
    split_ifs <;> omega
  | true =>
    have := hA.owns.loopWork_talks hs ht hnr
    have hadv : e.advances = false := by
      unfold ServerEvent.talks at ht
      split at ht
      · rfl
      · exact absurd rfl (hnr _)
      · exact absurd ⟨_, rfl⟩ hout
      · simp [ServerEvent.advances, ht]
      · cases ht
    simp only [hadv, Bool.not_false, if_true, Bool.false_eq_true, if_false]
    omega

/-! ## Always a step, or a hash in the slot -/

/-- In the drop of the `HashStream`, with a hash left in the slot of its channel. -/
def Hangs (s : Server W) : Prop :=
  (∃ r, s.phase = .leaving r) ∧ s.hasher.phase ≠ .alive ∧ s.hasher.chan.slot ≠ none

theorem Hangs.step (ho : s.Owns o) (hj : s.hasher.Joined) (hg : s.Hangs) {e : ServerEvent W}
    (hs : s.step o e = some s') : s'.Hangs := by
  obtain ⟨⟨r, hph⟩, hclosed, hslot⟩ := hg
  have hstuck : s.hasher.Stuck := ⟨hclosed, hslot⟩
  cases move_of_step hs with
  | worker h => exact ⟨⟨r, hph⟩, hstuck.workerStep ho.control h⟩
  | closeHasher _ h =>
    rw [hstuck.close] at h
    cases h
  | join _ h => exact ⟨⟨r, hph⟩, hstuck.join h⟩
  | finish _ hd => exact absurd hd (hstuck.not_dropped ho.control hj)
  | disk hrun | diskDone hrun | read hrun | hashOut hrun | recv hrun => simp [hph] at hrun
  | seekOk h | seekError h | flushOk h | flushError h | syncOk h | syncError h => simp [hph] at h

/-- The function never returns any more. -/
theorem Hangs.forever (ho : s.Owns o) (hj : s.hasher.Joined) (hg : s.Hangs)
    {es : List (ServerEvent W)} {t : Server W} (h : run (Server.step o) s es = some t) :
    ∀ r, t.phase ≠ .returned r := by
  obtain ⟨-, -, ⟨r, hph⟩, -⟩ := run_invariant
    (I := fun t : Server W => t.Owns o ∧ t.hasher.Joined ∧ t.Hangs)
    (fun u e t ⟨h1, h2, h3⟩ ht => ⟨h1.step ht, joined_step h1 h2 ht, h3.step h1 h2 ht⟩)
    ⟨ho, hj, hg⟩ h
  intro r' hr'
  simp [hph] at hr'

/-- A step that leads on is enabled, with a peer that has sent `inp` and closed its end. -/
def CanAdvance (o : ProcessNewClient) (inp : List UInt8) (s : Server W) : Prop :=
  ∃ e s', s.hears inp e = true ∧ e.advances = true ∧ s.step o e = some s'

theorem Attends.leaves (hfit : Fits o.hashFile W D) (hA : s.Attends o inp)
    {r : Except String StatusCode} (hph : s.phase = .leaving r) :
    s.Hangs ∨ s.CanAdvance o inp := by
  have hpoll : s.hasher.polling = false := by
    by_contra hcon
    have := (hA.owns.polling (by simpa using hcon)).1
    simp [hph] at this
  by_cases hd : s.hasher.phase = .dropped
  · exact .inr ⟨.finish, _, rfl, rfl, by simp only [Server.step, hph, if_pos hd]; rfl⟩
  · rcases hA.owns.control.drop_moves_or_stuck (F := s.file.content) hfit.seeks hA.holds.filled
      hpoll hd with hstuck | ⟨g, hg⟩ | ⟨g, hg⟩ | ⟨i, e, g, hp, hg⟩
    · exact .inl ⟨⟨r, hph⟩, hstuck⟩
    · exact .inr ⟨.closeHasher, _, rfl, rfl, by simp only [Server.step, hph, hg]; rfl⟩
    · exact .inr ⟨.join, _, rfl, rfl, by simp only [Server.step, hph, hg]; rfl⟩
    · refine .inr ⟨.worker i e, { s with hasher := g }, rfl, ?_, ?_⟩
      · simp [ServerEvent.advances, WorkerEvent.not_spurious hp]
      · simp only [Server.step, hg]
        rfl

/-- The branch that reads is ready: there is a byte of the peer, or the end of its stream. -/
theorem Attends.reads_on (hA : s.Attends o inp) (hrun : s.phase = .running)
    (hfree : s.hasher.busy = false) (hdisk : s.writeToDisk = none) : s.CanAdvance o inp := by
  obtain ⟨frames, got, -, -, hreading⟩ := hA.reads
  have hroom := (ResumableReadFileBlock.room_pos hreading.1).2
  have hread : ∀ bytes : List UInt8, bytes.length ≤ 1 →
      ∃ v, s.step o (.read (.ok bytes)) = some v := by
    intro bytes hlen
    obtain ⟨v, hv⟩ := read_ready (o := o) (s := s) (r := .ok bytes) (hlen.trans hroom)
    exact ⟨v, by simp only [Server.step, hrun, hfree, hdisk, hv]; rfl⟩
  obtain ⟨rest, hrest⟩ := hA.consumed
  cases rest with
  | nil =>
    obtain ⟨v, hv⟩ := hread [] (by simp)
    refine ⟨_, v, ?_, rfl, hv⟩
    simpa [hears, fedBy] using hrest
  | cons b rest =>
    obtain ⟨v, hv⟩ := hread [b] (by simp)
    refine ⟨_, v, ?_, rfl, hv⟩
    simp [hears, fedBy, ← hrest]

theorem Attends.moves (hfit : Fits o.hashFile W D) (hA : s.Attends o inp) :
    (∃ r, s.phase = .returned r) ∨ s.Hangs ∨ s.CanAdvance o inp := by
  cases hph : s.phase with
  | returned r => exact .inl ⟨r, rfl⟩
  | leaving r => exact .inr (hA.leaves hfit hph)
  | seeking off =>
    exact .inr (.inr ⟨.seek (.ok ()), _, rfl, rfl, by simp only [Server.step, seek, hph]; rfl⟩)
  | flushing =>
    exact .inr (.inr ⟨.flush (.ok ()), _, rfl, rfl, by simp only [Server.step, hph]; rfl⟩)
  | syncing =>
    exact .inr (.inr ⟨.sync (.ok ()), _, rfl, rfl, by simp only [Server.step, hph]; rfl⟩)
  | running =>
    right
    right
    cases hbusy : s.hasher.busy with
    | true =>
      obtain ⟨-, hhash, hdone⟩ := hA.owns.polling (hA.owns.control.polling_of_busy hbusy)
      obtain ⟨r, hr⟩ := hA.owns.control.finish_moves hbusy
      obtain ⟨v, hv⟩ := recv_ready hr
      exact ⟨.recv .finish, v, rfl, rfl, by simp only [Server.step, hph, hhash, hdone, hv]; rfl⟩
    | false =>
      cases hd : s.writeToDisk with
      | none => exact hA.reads_on hph hbusy hd
      | some w =>
        rcases disk_ready hd with ⟨n, v, hv⟩ | ⟨v, hv⟩
        · exact ⟨.disk (.ok (n + 1)), v, rfl, rfl, by simp only [Server.step, hph, hbusy, hv]; rfl⟩
        · exact ⟨.diskDone, v, rfl, rfl, by simp only [Server.step, hph, hbusy, hv]; rfl⟩

/-! ## Whole runs -/

theorem attends_of_run (hfit : Fits o.hashFile W D) {dest : List UInt8}
    {es : List (ServerEvent W)}
    (h : run (restrict (hears inp) (step o)) (new o W dest) es = some s) : s.Attends o inp := by
  refine run_invariant (I := fun s => s.Attends o inp) (fun u e t hA ht => ?_)
    (attends_new hfit dest) h
  obtain ⟨hh, ht⟩ := restrict_eq_some.mp ht
  exact hA.step hfit hh ht

/-- Bound for the number of steps, with a peer that sends `bytes` bytes. -/
def budget (o : ProcessNewClient) (W bytes : ℕ) : ℕ :=
  let n := o.hashFile.blocks
  W * ((n + W) * (o.blockSize + 8) + n + W + 9) + 1060 * n + 5 * bytes + 17

theorem work_new (o : ProcessNewClient) (W : ℕ) (inp dest : List UInt8) :
    (new o W dest).work o inp ≤ budget o W inp.length := by
  have hle := Session.streamWork_hashFile_le o.hashFile W
  have hwork : (new o W dest).work o inp =
      (hashFile o.hashFile W).streamWork o.hashFile + 8 + 0 + 4 +
        4 * (0 + 264 * (o.hashFile.blocks - 0)) + 4 * (inp.length - 0) + (inp.length - 0) := rfl
  have hsize : o.hashFile.blockSize = o.blockSize := rfl
  rw [hsize] at hle
  rw [hwork, budget]
  omega

theorem countP_advances_le (hfit : Fits o.hashFile W D)
    (hhash : ∀ data, (asBytes (o.hash data)).length ≤ 256) {dest : List UInt8}
    {es : List (ServerEvent W)}
    (h : run (restrict (hears inp) (step o)) (new o W dest) es = some s) :
    es.countP (·.advances) ≤ budget o W inp.length + 3 * es.countP (!·.advances) := by
  have hstart := work_new o W inp dest
  have hle := run_countP_le (I := fun s => s.Attends o inp) (fun s => s.work o inp) (·.advances)
    (!·.advances) 3
    (fun s e t hA ht => by
      obtain ⟨hh, ht⟩ := restrict_eq_some.mp ht
      exact hA.step hfit hh ht)
    (fun s e t hA ht => by
      obtain ⟨hh, ht⟩ := restrict_eq_some.mp ht
      exact hA.work_step hfit hhash hh ht) (attends_new hfit dest) h
  omega

/-- `process_new_client` comes to its end, for every peer and whatever fails.  After the
handshake, on a file whose offsets fit a `usize`, let the peer send any bytes and close its end,
or let the connection break at any time, and let any operation of the loop or of a hash worker
fail.  The steps that lead on are bounded in number, up to three for each spurious wakeup and each
write of no byte; and until the function has returned such a step is enabled, unless the stream
of hashes is being dropped with a hash in the slot of its channel: then the function never
returns. -/
theorem server_total {bits : ℕ} (d : Digests) (alg : HashAlgorithm) {blockSize : ℕ}
    (hb : 1 ≤ blockSize ∧ blockSize ≤ 2 ^ 30) (hW : 1 ≤ W ∧ W ≤ 255)
    (hoff : OffsetsFit bits blockSize D.length W) {es : List (ServerEvent W)}
    (h : run (restrict (hears inp) (step (.onFile bits d alg blockSize D)))
      (new (.onFile bits d alg blockSize D) W D) es = some s) :
    es.countP (·.advances) ≤
        budget (.onFile bits d alg blockSize D) W inp.length + 3 * es.countP (!·.advances) ∧
      ((∃ r, s.phase = .returned r) ∨ s.CanAdvance (.onFile bits d alg blockSize D) inp ∨
        s.Hangs ∧ ∀ es' t, run (step (.onFile bits d alg blockSize D)) s es' = some t →
          ∀ r, t.phase ≠ .returned r) := by
  have hfit : Fits (ProcessNewClient.onFile bits d alg blockSize D).hashFile W D :=
    fits_of_offsets _ hb hW hoff
  have hA := attends_of_run hfit h
  refine ⟨countP_advances_le hfit (length_hashData d · alg) h, ?_⟩
  rcases hA.moves hfit with hret | hhang | hmove
  · exact .inl hret
  · exact .inr (.inr ⟨hhang, fun es' t ht => hhang.forever hA.owns hA.joined ht⟩)
  · exact .inr (.inl hmove)

/-- The worker has put its hash into the slot when the peer closes its end. -/
def hungRun : List (ServerEvent 1) :=
  [.worker solo (.openFile (.ok ())), .worker solo (.seekStart (.ok ())), .worker solo .loopHead,
    .worker solo (.read 1), .worker solo .send, .recv .enter, .recv .poll, .worker solo .sendStep,
    .read (.ok []), .flush (.ok ()), .sync (.ok ()), .closeHasher]

theorem server_total_hung :
    ∃ s, run (restrict (hears []) (step (.onFile 64 crcDigests .crc32 1 [5])))
        (new (.onFile 64 crcDigests .crc32 1 [5]) 1 [5]) hungRun = some s ∧
      s.phase = .leaving (.ok .ack) ∧ s.Hangs ∧
      hungRun.countP (·.advances) ≤
        budget (.onFile 64 crcDigests .crc32 1 [5]) 1 0 + 3 * hungRun.countP (!·.advances) ∧
      ((∃ r, s.phase = .returned r) ∨ s.CanAdvance (.onFile 64 crcDigests .crc32 1 [5]) [] ∨
        s.Hangs ∧ ∀ es' t, run (step (.onFile 64 crcDigests .crc32 1 [5])) s es' = some t →
          ∀ r, t.phase ≠ .returned r) := by
  have hrun : (run (restrict (hears []) (step (.onFile 64 crcDigests .crc32 1 [5])))
      (new (.onFile 64 crcDigests .crc32 1 [5]) 1 [5]) hungRun).map
      (fun s => (s.phase, s.hasher.phase, s.hasher.chan.slot.isSome)) =
      some (.leaving (.ok .ack), .joining 0, true) := by rfl
  obtain ⟨s, hs, heq⟩ := Option.map_eq_some_iff.mp hrun
  simp only [Prod.mk.injEq] at heq
  obtain ⟨hph, hd, hslot⟩ := heq
  refine ⟨s, hs, hph, ⟨⟨_, hph⟩, by simp [hd], Option.isSome_iff_ne_none.mp hslot⟩,
    server_total (D := [5]) (W := 1) crcDigests .crc32 (by decide) (by decide) (by decide) hs⟩

end Server

end Deltasync
