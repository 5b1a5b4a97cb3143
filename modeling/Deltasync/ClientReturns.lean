import Deltasync.SessionReturns

/-!
# `new_process` comes to its end, or waits for ever

The server sends what it likes and then closes the connection, or the connection breaks.
Whatever the bytes are and whichever operations fail, the loop takes a bounded number
of steps, and there is always one that it can take, with two exceptions.  A loop that has
no block to send and no hash to compare, and that reads no more, has only its timer.  And
an error of one hash worker can leave the hash of another one in the slot of the channel:
then `drop` waits for that worker, and the worker for its buffer.
-/

namespace Deltasync

open Blocks Transition

/-- The steps that lead on, also when an operation fails in them. -/
def ClientEvent.advances {W : ℕ} : ClientEvent W → Bool
  | .tick | .write (.ok 0) => false
  | .worker _ e => !e.spurious
  | _ => true

namespace Client

open HashStream

variable {W : ℕ} {o : NewProcess} {D inp : List UInt8} {c c' m : Client W}

/-- What holds whoever the server is and whatever fails. -/
structure Attends (o : NewProcess) (D inp : List UInt8) (c : Client W) : Prop where
  sends : c.Sends o D
  reads : c.Reads o
  notices : c.hasher.Notices
  joined : c.hasher.Joined
  consumed : c.consumed <+: inp
  dropped : ∀ r, c.phase = .dropping r → c.loans = []

theorem attends_new (ho : o.Hashes W D) (hend : 0 < o.endBlockIdx) :
    (new o W).Attends o D inp where
  sends := sends_new ho hend
  reads := reads_new
  notices := notices_hashFile
  joined := .of_alive rfl
  consumed := List.nil_prefix
  dropped := by simp [new]

theorem joined_step (ho : c.Owns o) (hj : c.hasher.Joined) {e : ClientEvent W}
    (hs : c.step o D e = some c') : c'.hasher.Joined := by
  rcases hasher_step hs with ⟨i, e', -, h⟩ | h
  · exact hj.workerStep ho.control h
  · exact hj.consumes h

theorem OnOrOver.connected (h : c.OnOrOver) : c.connected = true := by
  rcases h with hph | ⟨hph, -⟩ <;> simp [Client.connected, hph]

theorem connected_recv {e : RecvEvent} (hs : c.step o D (.recv e) = some c') :
    c'.connected = true := by
  cases move_of_step hs with
  | recv hrun hover hne h =>
    obtain ⟨remoteHash, rest, g, r, -, -, ⟨-, rfl⟩ | ⟨err, -, rfl⟩ | ⟨-, rfl⟩ | ⟨v, -, rfl⟩⟩ :=
      recv_cases h
    · simp [Client.connected, hrun]
    · rfl
    · rfl
    · exact (onOrOver_compare (by exact hrun) v.2 remoteHash).connected

/-- The loans are dropped before the `HashStream`. -/
theorem dropped_step (hd : ∀ r, c.phase = .dropping r → c.loans = []) {e : ClientEvent W}
    (hs : c.step o D e = some c') : ∀ r, c'.phase = .dropping r → c'.loans = [] := by
  have habsurd : c'.connected = true → ∀ r, c'.phase = .dropping r → c'.loans = [] := by
    intro hc r hph
    simp [Client.connected, hph] at hc
  cases move_of_step hs with
  | write => exact habsurd (connected_write hs)
  | read => exact habsurd (connected_read hs)
  | recv => exact habsurd (connected_recv hs)
  | tick | worker | closeHasher | join => exact hd
  | dropLocals => exact fun _ _ => rfl
  | finish => simp

theorem Attends.step (ho : o.Hashes W D) (hA : c.Attends o D inp) {e : ClientEvent W}
    (hh : c.hears inp e = true) (hs : c.step o D e = some c') : c'.Attends o D inp where
  sends := hA.sends.step ho hs
  reads := hA.reads.step hs
  notices := by
    rcases hasher_step hs with ⟨i, e', -, h⟩ | h
    · exact hA.notices.workerStep h
    · exact hA.notices.consumes h
  joined := joined_step hA.sends.owns hA.joined hs
  consumed := consumed_prefix hh hA.consumed hs
  dropped := dropped_step hA.dropped hs

/-! ## The work that is left -/

/-- The bytes of the frame in hand that the socket has not accepted. -/
def unsent (c : Client W) : List UInt8 :=
  match c.writeBlock with
  | some w => w.remaining
  | none => []

/-- The bytes of frames that may still be written. -/
def frameWork (o : NewProcess) (c : Client W) : ℕ :=
  c.unsent.length + (o.blockSize + 8) * (o.endBlockIdx - c.accepted.length)

/-- No more of a frame is left to send, unless one frame more is begun. -/
def Loads (c c' : Client W) : Prop :=
  (c'.accepted.length = c.accepted.length ∧ c'.unsent.length ≤ c.unsent.length) ∨
    (c'.accepted.length = c.accepted.length + 1 ∧ c'.connected = true)

theorem loads_of_eq (hacc : c'.accepted = c.accepted) (hw : c'.writeBlock = c.writeBlock) :
    Loads c c' :=
  .inl ⟨by rw [hacc], by rw [unsent, unsent, hw]⟩

theorem loads_prepareNextWriteBlock (hrun : c.phase = .running) :
    Loads c (c.prepareNextWriteBlock o) := by
  rcases prepareNextWriteBlock_cases o c with ⟨h, -⟩ | ⟨idx, data, rest, h1, h2, h⟩
  · rw [h]
    exact loads_of_eq rfl rfl
  · rw [h]
    exact .inr ⟨rfl, by simp [Client.connected, hrun]⟩

theorem Loads.advance (h : Loads c m) (hrun : m.phase = .running) : Loads c (m.advance o) := by
  have hon : (m.advance o).connected = true := (onOrOver_advance hrun).connected
  have hw : (m.advance o).writeBlock = m.writeBlock := by
    rcases advance_cases o m with ⟨-, h⟩ | ⟨-, -, h⟩ | ⟨-, -, h⟩ <;> rw [h]
  rcases h with ⟨h1, h2⟩ | ⟨h1, -⟩
  · refine .inl ⟨by rw [accepted_advance, h1], ?_⟩
    rw [unsent, hw]
    exact h2
  · exact .inr ⟨by rw [accepted_advance, h1], hon⟩

theorem loads_compare (hrun : c.phase = .running) (d : FileBlockData (Fin W))
    (remoteHash : String) : Loads c (c.compare o d remoteHash) := by
  unfold compare
  split_ifs
  · refine Loads.advance ?_ (by rw [(prepareNextWriteBlock_keeps o _).phase]; exact hrun)
    exact loads_prepareNextWriteBlock (c := { c with
      blocksIdxToSend := c.blocksIdxToSend ++ [(c.blockIdx, d.data)] }) hrun
  · refine Loads.advance ?_ (by exact hrun)
    exact loads_of_eq rfl rfl

theorem loads_blockWritten (hrun : c.phase = .running) (w : ResumableWriteFileBlock (Fin W)) :
    Loads { c with writeBlock := none } (c.blockWritten o w) := by
  unfold blockWritten
  dsimp only
  split_ifs
  · exact loads_of_eq rfl rfl
  · exact loads_prepareNextWriteBlock (c := { c with
      writeBlock := none, hasher := c.hasher.dropLoan w.buf }) hrun

theorem loads_step {e : ClientEvent W} (hs : c.step o D e = some c')
    (he : ∀ r, e ≠ .write r) : Loads c c' := by
  cases move_of_step hs with
  | write => exact absurd rfl (he _)
  | read hrun hfree hdone h =>
    obtain ⟨-, ⟨rs, n, -, rfl⟩ | ⟨rs, hash, -, rfl⟩ | ⟨rs, err, -, rfl⟩⟩ := read_cases h <;>
      exact loads_of_eq rfl rfl
  | recv hrun hover hne h =>
    obtain ⟨remoteHash, rest, g, r, -, -, ⟨-, rfl⟩ | ⟨err, -, rfl⟩ | ⟨-, rfl⟩ | ⟨v, -, rfl⟩⟩ :=
      recv_cases h
    · exact loads_of_eq rfl rfl
    · exact loads_of_eq rfl rfl
    · exact loads_of_eq rfl rfl
    · exact loads_compare (c := { c with hasher := g, remoteHashes := rest }) hrun v.2 remoteHash
  | dropLocals hph => exact .inl ⟨rfl, Nat.zero_le _⟩
  | tick | worker | closeHasher | join | finish => exact loads_of_eq rfl rfl

/-- No more frames are begun than there are blocks. -/
theorem Sends.accepted_le (hS : c.Sends o D) (hc : c.connected = true) :
    c.accepted.length ≤ o.endBlockIdx := by
  have hph : c.phase = .running ∨ ∃ r, c.phase = .leaving r := by
    cases hph : c.phase with
    | running => exact .inl rfl
    | leaving r => exact .inr ⟨r, rfl⟩
    | dropping r | returned r => simp [Client.connected, hph] at hc
  have hlen := congrArg List.length (hS.frames.begun hph)
  have hle : (diverging o D c.decoded c.blockIdx).length ≤ c.blockIdx := by
    refine (List.length_filter_le _ _).trans ?_
    rw [List.length_range]
  have hidx := hS.counts.bounded
  simp only [List.length_append, List.length_map, List.length_reverse] at hlen
  omega

theorem Sends.unsent_le (hS : c.Sends o D) : c.unsent.length ≤ o.blockSize + 8 := by
  unfold unsent
  split
  · next w hw =>
    obtain ⟨k, bytes, rest, -, -, -, hframe⟩ := hS.frames.writer w hw
    have hlen := congrArg List.length hframe
    rw [List.length_append, frame, blockFrame, List.length_append, BigEndian.length_toBytes,
      length_block] at hlen
    omega
  · exact Nat.zero_le _

theorem Sends.frameWork_le (hS' : c'.Sends o D) (h : Loads c c') :
    c'.frameWork o ≤ c.frameWork o := by
  rcases h with ⟨hacc, hlen⟩ | ⟨hacc, hc⟩
  · rw [frameWork, frameWork, hacc]
    exact Nat.add_le_add_right hlen _
  · -- the frame begun takes what was set aside for it
    have hle := hS'.accepted_le hc
    have hun := hS'.unsent_le
    have hleft : o.endBlockIdx - c.accepted.length =
        o.endBlockIdx - c'.accepted.length + 1 := by omega
    rw [frameWork, frameWork, hleft, Nat.mul_succ]
    omega

/-- A write that accepts a byte, ends the frame or fails leaves fewer bytes. -/
theorem Sends.frameWork_write (hS : c.Sends o D) (hS' : c'.Sends o D) {r : Except String ℕ}
    (hs : c.step o D (.write r) = some c') :
    c'.frameWork o + (if r = .ok 0 then 0 else 1) ≤ c.frameWork o := by
  cases move_of_step hs with
  | write hrun hfree h =>
    obtain ⟨k, bytes, rest, w, hacc, hw, bytes', -, hcases, hbytes⟩ := hS.frames.write h
    obtain ⟨k', bytes'', rest', hacc', hwr, hrem, hframe⟩ := hS.frames.writer w hw
    obtain ⟨⟨rfl, rfl⟩, rfl⟩ : (k = k' ∧ bytes = bytes'') ∧ rest = rest' := by
      simpa using hacc.symm.trans hacc'
    have hunsent : c.unsent = w.remaining := by rw [unsent, hw]
    have hpos := List.length_pos_iff.mpr hrem
    rcases hcases with ⟨w', rfl, ⟨n, rfl⟩, -, -, hframe'⟩ | ⟨w', rfl, -⟩
    · -- the writer goes on with the rest of the frame
      have hslice := List.length_pos_iff.mpr ((ResumableWriteFileBlock.slice_prefix hwr).2 hrem)
      have hlen := congrArg List.length (hframe'.trans hframe.symm)
      simp only [hbytes, List.length_append, List.length_take, bytesWritten] at hlen
      have hunsent' : (unsent { c with writeBlock := some w', accepted := (k, bytes') :: rest }) =
        w'.remaining := rfl
      simp only [frameWork, hunsent, hunsent', hacc, List.length_cons, Except.ok.injEq]
      split_ifs <;> omega
    · have hmid := hS'.frameWork_le (c := { c with
        accepted := (k, bytes') :: rest, writeBlock := none })
        (loads_blockWritten (c := { c with accepted := (k, bytes') :: rest }) hrun w')
      have hnone : (unsent { c with accepted := (k, bytes') :: rest, writeBlock := none }) = [] :=
        rfl
      simp only [frameWork, hunsent, hnone, hacc, List.length_cons, List.length_nil] at hmid ⊢
      split_ifs <;> omega

/-- What is before `new_process`, with a server that sends `inp`. -/
def work (o : NewProcess) (inp : List UInt8) (c : Client W) : ℕ :=
  c.loopWork o + 4 * c.frameWork o + 4 * (inp.length - c.consumed.length) +
    (if c.remoteHashesDone then 0 else 4)

/-- The end of the stream, or an error of it, ends the reading of hashes. -/
theorem Reads.read_nil (hr : c.Reads o) (hdone : c.remoteHashesDone = false)
    {r : Except String (List UInt8)} (hnil : bytesRead r = []) (hs : c.read o r = some c') :
    c'.remoteHashesDone = true := by
  obtain ⟨frames, got, -, -, hpart⟩ := hr
  obtain ⟨r', e, hpoll⟩ := ResumableReadString.poll_error (hpart hdone) hnil
  obtain ⟨-, hcases⟩ := read_cases hs
  rw [hpoll] at hcases
  rcases hcases with ⟨rs, n, heq, -⟩ | ⟨rs, hash, heq, -⟩ | ⟨rs, err, -, rfl⟩
  · cases heq
  · cases heq
  · rfl

theorem Attends.work_read (hA : c.Attends o D inp) (hA' : c'.Attends o D inp)
    {r : Except String (List UInt8)} (hs : c.step o D (.read r) = some c') :
    c'.work o inp < c.work o inp := by
  have hloop := hA.sends.loopWork_talks hs rfl
  have hframe := hA'.sends.frameWork_le (loads_step hs (by simp))
  have hle := hA'.consumed.length_le
  cases move_of_step hs with
  | read hrun hfree hdone h =>
    have hlen := congrArg List.length (read_grows h).1
    rw [List.length_append] at hlen
    by_cases hnil : bytesRead r = []
    · have hdone' := hA.reads.read_nil hdone hnil h
      simp only [hnil, List.length_nil] at hlen
      simp only [work, hdone, hdone', Bool.false_eq_true, if_false, if_true]
      omega
    · have hpos := List.length_pos_iff.mpr hnil
      simp only [work, hdone, Bool.false_eq_true, if_false]
      split_ifs <;> omega

/-- Every step that leads on leaves less to do; the other ones may undo some of it. -/
theorem Attends.work_step (ho : o.Hashes W D) (hA : c.Attends o D inp) {e : ClientEvent W}
    (hh : c.hears inp e = true) (hs : c.step o D e = some c') :
    c'.work o inp + (if e.advances then 1 else 0) ≤
      c.work o inp + (if !e.advances then 3 else 0) := by
  have hA' := hA.step ho hh hs
  by_cases hread : ∃ r, e = .read r
  · obtain ⟨r, rfl⟩ := hread
    have := hA.work_read hA' hs
    simp only [ClientEvent.advances, Bool.not_true, if_true, Bool.false_eq_true, if_false]
    omega
  have hk := sameReader_step hs fun r he => hread ⟨r, he⟩
  simp only [work, hk.consumed, hk.done]
  by_cases hwrite : ∃ r, e = .write r
  · obtain ⟨r, rfl⟩ := hwrite
    have hloop := hA.sends.loopWork_talks hs rfl
    have hlt := hA.sends.frameWork_write hA'.sends hs
    cases hadv : (ClientEvent.write r : ClientEvent W).advances with
    | false =>
      simp only [Bool.not_false, if_true, Bool.false_eq_true, if_false]
      omega
    | true =>
      -- a byte of the frame pays for the `recv` that is cancelled
      have hne : r ≠ .ok 0 := by
        rintro rfl
        cases hadv
      rw [if_neg hne] at hlt
      simp only [Bool.not_true, if_true, Bool.false_eq_true, if_false]
      omega
  have hframe := hA'.sends.frameWork_le (loads_step hs fun r he => hwrite ⟨r, he⟩)
  cases ht : e.talks with
  | false =>
    have := hA.sends.loopWork_lt ho hs ht
    split_ifs <;> omega
  | true =>
    have := hA.sends.loopWork_talks hs ht
    have hadv : e.advances = false := by
      unfold ClientEvent.talks at ht
      split at ht
      · rfl
      · exact absurd ⟨_, rfl⟩ hwrite
      · exact absurd ⟨_, rfl⟩ hread
      · simp [ClientEvent.advances, ht]
      · cases ht
    simp only [hadv, Bool.not_false, if_true, Bool.false_eq_true, if_false]
    omega

/-! ## Always a step, or none ever -/

theorem Idle.step (hi : c.Idle) {e : ClientEvent W} (hs : c.step o D e = some c') : c'.Idle := by
  obtain ⟨hrun, hw, hdone, hrem⟩ := hi
  cases move_of_step hs with
  | tick | worker => exact ⟨hrun, hw, hdone, hrem⟩
  | write _ _ h =>
    obtain ⟨w, hw', -⟩ := write_cases h
    rw [hw] at hw'
    cases hw'
  | read _ _ hdone' =>
    rw [hdone] at hdone'
    cases hdone'
  | recv _ hover _ h =>
    obtain ⟨remoteHash, rest, g, r, hrem', -⟩ := recv_cases h
    simp [hrem', hover] at hrem
  | dropLocals hph | closeHasher hph | join hph | finish hph => simp [hrun] at hph

/-- In the drop of the `HashStream`, with a hash left in the slot of its channel. -/
def Hangs (c : Client W) : Prop := (∃ r, c.phase = .dropping r) ∧ c.hasher.Stuck

theorem Hangs.step (ho : c.Owns o) (hj : c.hasher.Joined) (hg : c.Hangs) {e : ClientEvent W}
    (hs : c.step o D e = some c') : c'.Hangs := by
  obtain ⟨⟨r, hph⟩, hstuck⟩ := hg
  cases move_of_step hs with
  | worker h => exact ⟨⟨r, hph⟩, hstuck.workerStep ho.control h⟩
  | closeHasher _ h =>
    rw [hstuck.close] at h
    cases h
  | join _ h => exact ⟨⟨r, hph⟩, hstuck.join h⟩
  | finish _ hd => exact absurd hd (hstuck.not_dropped ho.control hj)
  | tick hrun | write hrun | read hrun | recv hrun => simp [hph] at hrun
  | dropLocals h => simp [hph] at h

/-- A step that leads on is enabled, with a server that has sent `inp` and closed its end. -/
def CanAdvance (o : NewProcess) (D inp : List UInt8) (c : Client W) : Prop :=
  ∃ e c', c.hears inp e = true ∧ e.advances = true ∧ c.step o D e = some c'

theorem canAdvance_worker {i : Fin W} {e : WorkerEvent} {g : HashStream W}
    (hp : e.progress = true) (h : c.hasher.workerStep o.hashFile D i e = some g) :
    c.CanAdvance o D inp :=
  ⟨.worker i e, { c with hasher := g }, rfl, by
    simp [ClientEvent.advances, WorkerEvent.not_spurious hp], by
    simp only [Client.step, h]; rfl⟩

theorem canAdvance_recv {e : RecvEvent} {r : HashStream W × Option (RecvResult W)}
    (hrun : c.phase = .running) (hover : c.hashComparisonOver = false)
    (hrem : c.remoteHashes ≠ []) (hne : e ≠ .cancel) (hr : c.hasher.recvStep e = some r) :
    c.CanAdvance o D inp := by
  obtain ⟨c', hc⟩ := recv_ready (o := o) hrem hr
  exact ⟨.recv e, c', rfl, rfl, by rw [Client.step, if_pos ⟨hrun, hover, hne⟩]; exact hc⟩

theorem Attends.drops (ho : o.Hashes W D) (hA : c.Attends o D inp) {r : Except String Unit}
    (hph : c.phase = .dropping r) : c.Hangs ∨ c.CanAdvance o D inp := by
  have hc := hA.sends.owns.control
  rw [hA.dropped r hph] at hc
  have hpoll : c.hasher.polling = false := by
    by_contra hcon
    have := (hA.sends.owns.polling (by simpa using hcon)).1
    simp [hph] at this
  by_cases hd : c.hasher.phase = .dropped
  · exact .inr ⟨.finish, _, rfl, rfl, by simp only [Client.step, hph, if_pos hd]; rfl⟩
  · rcases hc.drop_moves_or_stuck (F := D) ho.fits.seeks
      (fun i hi => ((hA.sends.content.worker i).reading hi).2.1) hpoll hd with
      hstuck | ⟨g, hg⟩ | ⟨g, hg⟩ | ⟨i, e, g, hp, hg⟩
    · exact .inl ⟨⟨r, hph⟩, hstuck⟩
    · exact .inr ⟨.closeHasher, _, rfl, rfl, by simp only [Client.step, hph, hg]; rfl⟩
    · exact .inr ⟨.join, _, rfl, rfl, by simp only [Client.step, hph, hg]; rfl⟩
    · exact .inr (canAdvance_worker hp hg)

/-- There is a byte of the server to read, or the end of its stream. -/
theorem Attends.reads_on (hA : c.Attends o D inp) (hrun : c.phase = .running)
    (hfree : c.hasher.busy = false) (hdone : c.remoteHashesDone = false) :
    c.CanAdvance o D inp := by
  obtain ⟨frames, got, -, -, hpart⟩ := hA.reads
  have hroom := (room_eq (hpart hdone)).2
  have hread : ∀ bytes : List UInt8, bytes.length ≤ 1 →
      ∃ c', c.step o D (.read (.ok bytes)) = some c' := by
    intro bytes hlen
    obtain ⟨c', hc⟩ := read_ready (o := o) (c := c) (r := .ok bytes) (hlen.trans hroom)
    exact ⟨c', by rw [Client.step, if_pos ⟨hrun, hfree, hdone⟩]; exact hc⟩
  obtain ⟨rest, hrest⟩ := hA.consumed
  cases rest with
  | nil =>
    obtain ⟨c', hc⟩ := hread [] (by simp)
    refine ⟨_, c', ?_, rfl, hc⟩
    simpa [hears, fedBy] using hrest
  | cons b rest =>
    obtain ⟨c', hc⟩ := hread [b] (by simp)
    refine ⟨_, c', ?_, rfl, hc⟩
    simp [hears, fedBy, ← hrest]

theorem Attends.loops (ho : o.Hashes W D) (hA : c.Attends o D inp) (hrun : c.phase = .running) :
    c.Idle ∨ c.CanAdvance o D inp := by
  have hS := hA.sends
  cases hbusy : c.hasher.busy with
  | true =>
    obtain ⟨-, hover, hrem⟩ := hS.owns.polling (hS.owns.control.polling_of_busy hbusy)
    obtain ⟨r, hr⟩ := hS.owns.control.finish_moves hbusy
    exact .inr (canAdvance_recv hrun hover hrem (by simp) hr)
  | false =>
    cases hw : c.writeBlock with
    | some w =>
      -- the frame in hand has a byte left, and the socket accepts it
      obtain ⟨k, bytes, rest, -, hwr, hrem, -⟩ := hS.frames.writer w hw
      have hslice := List.length_pos_iff.mpr ((ResumableWriteFileBlock.slice_prefix hwr).2 hrem)
      obtain ⟨c', hc⟩ := write_ready (o := o) hw (r := .ok 1) hslice
      exact .inr ⟨.write (.ok 1), c', rfl, rfl, by
        rw [Client.step, if_pos ⟨hrun, hbusy⟩]; exact hc⟩
    | none =>
      have hover : c.hashComparisonOver = false := by
        by_contra hcon
        exact hS.counts.sending hrun (by simpa using hcon) hw
      by_cases hrem : c.remoteHashes = []
      · cases hdone : c.remoteHashesDone with
        | true => exact .inl ⟨hrun, hw, hdone, .inl hrem⟩
        | false => exact .inr (hA.reads_on hrun hbusy hdone)
      · -- no block is on loan, so that the workers can go on
        have hloans : c.loans = [] := by simp [loans, hw, hS.counts.queued hw]
        have hc := hS.owns.control
        rw [hloans] at hc
        right
        rcases hc.recv_never_hangs (F := D) ho.fits hS.content hA.notices
          (hS.owns.alive (.inl hrun)) with ⟨e, r, hne, hr⟩ | ⟨i, e, g, hp, hg⟩
        · exact canAdvance_recv hrun hover hrem hne hr
        · exact canAdvance_worker hp hg

theorem Attends.moves (ho : o.Hashes W D) (hA : c.Attends o D inp) :
    (∃ r, c.phase = .returned r) ∨ (c.Idle ∨ c.Hangs) ∨ c.CanAdvance o D inp := by
  cases hph : c.phase with
  | returned r => exact .inl ⟨r, rfl⟩
  | running => exact .inr ((hA.loops ho hph).imp_left .inl)
  | leaving r =>
    exact .inr (.inr ⟨.dropLocals, _, rfl, rfl, by simp only [Client.step, hph]; rfl⟩)
  | dropping r => exact .inr ((hA.drops ho hph).imp_left .inr)

/-! ## Whole runs -/

theorem attends_of_run (ho : o.Hashes W D) (hend : 0 < o.endBlockIdx)
    {es : List (ClientEvent W)}
    (h : run (restrict (hears inp) (step o D)) (new o W) es = some c) : c.Attends o D inp := by
  refine run_invariant (I := fun c => c.Attends o D inp) (fun u e t hA ht => ?_)
    (attends_new ho hend) h
  obtain ⟨hh, ht⟩ := restrict_eq_some.mp ht
  exact hA.step ho hh ht

/-- Bound for the number of steps, with a server that sends `bytes` bytes. -/
def budget (o : NewProcess) (W bytes : ℕ) : ℕ :=
  let n := o.hashFile.blocks
  W * ((n + W) * (o.blockSize + 8) + n + W + 9) + 4 * n +
    4 * ((o.blockSize + 8) * o.endBlockIdx) + 4 * bytes + 16

theorem work_new (o : NewProcess) (W : ℕ) (inp : List UInt8) :
    (new o W).work o inp ≤ budget o W inp.length := by
  have hle := Session.streamWork_hashFile_le o.hashFile W
  have hwork : (new o W).work o inp =
      (hashFile o.hashFile W).streamWork o.hashFile + 7 +
        4 * (0 + (o.blockSize + 8) * (o.endBlockIdx - 0)) + 4 * (inp.length - 0) + 4 := rfl
  have hsize : o.hashFile.blockSize = o.blockSize := rfl
  rw [hsize] at hle
  rw [hwork, budget, Nat.sub_zero, Nat.sub_zero, Nat.zero_add]
  omega

theorem countP_advances_le (ho : o.Hashes W D) (hend : 0 < o.endBlockIdx)
    {es : List (ClientEvent W)}
    (h : run (restrict (hears inp) (step o D)) (new o W) es = some c) :
    es.countP (·.advances) ≤ budget o W inp.length + 3 * es.countP (!·.advances) := by
  have hstart := work_new o W inp
  have hle := run_countP_le (I := fun c => c.Attends o D inp) (fun c => c.work o inp) (·.advances)
    (!·.advances) 3
    (fun s e t hA ht => by
      obtain ⟨hh, ht⟩ := restrict_eq_some.mp ht
      exact hA.step ho hh ht)
    (fun s e t hA ht => by
      obtain ⟨hh, ht⟩ := restrict_eq_some.mp ht
      exact hA.work_step ho hh ht) (attends_new ho hend) h
  omega

/-- The second worker cannot open the source, when the first has put its hash into the slot. -/
def hungRun : List (ClientEvent 2) :=
  let first : Fin 2 := ⟨0, by decide⟩
  let second : Fin 2 := ⟨1, by decide⟩
  [.read (.ok ((writeString "x").take 8)), .read (.ok ((writeString "x").drop 8)),
    .recv .enter, .recv .poll, .worker first (.openFile (.ok ())),
    .worker first (.seekStart (.ok ())), .worker first .loopHead, .worker first (.read 1),
    .worker first .send, .worker first .sendStep,
    .worker second (.openFile (.error "no more files")), .worker second .publish,
    .recv .error, .dropLocals, .closeHasher]

end Client

end Deltasync
