import Deltasync.Server
import Deltasync.HashControl
import Deltasync.Framing

/-!
# What the server loop keeps true

The block being written to disk is the one received last, the writer has written
the first part of it, and the descriptor stands right behind that part.  A block is
behind when the last of it is written, or when a write fails: the branch that
follows does not look at the result of `write_all`.
-/

namespace Deltasync.Server

open HashStream Transition

variable {W : ℕ} {o : ProcessNewClient} {s s' : Server W}

/-! ## The pieces of a branch -/

/-- The state after a disk write of `chunk`. -/
def wrote (s : Server W) (chunk : List UInt8) : Server W :=
  { s with file := s.file.write chunk, received := logDisk s.file.cursor chunk s.received }

/-- What a ready disk write can lead to. -/
theorem disk_cases {r : Except String ℕ} (hs : s.disk r = some s') :
    ∃ w, s.writeToDisk = some w ∧ w.offset < s.writeBuffer.length ∧
      w.offset + bytesWritten r ≤ s.writeBuffer.length ∧
      ((∃ n, r = .ok n ∧ w.offset + n < s.writeBuffer.length ∧
          s' = { s.wrote ((s.writeBuffer.drop w.offset).take n) with
            writeToDisk := some { offset := w.offset + n } }) ∨
        ((∃ n, r = .ok n ∧ w.offset + n = s.writeBuffer.length ∧
            s' = { s.wrote ((s.writeBuffer.drop w.offset).take n) with
              writeToDisk := none }.nextIteration) ∨
          ∃ err, r = .error err ∧ s' = { s with
            received := logDisk s.file.cursor [] s.received
            writeToDisk := none }.nextIteration)) := by
  unfold disk at hs
  split at hs
  · cases hs
  · next w hw =>
    unfold ResumableAsyncWriteAll.enter at hs
    split_ifs at hs with hlt
    dsimp only at hs
    split_ifs at hs with hle
    rw [List.length_drop] at hle
    refine ⟨w, hw, hlt, by omega, ?_⟩
    cases r with
    | error err =>
      simp only [bytesWritten, List.take_zero, ResumableAsyncWriteAll.onWrite,
        Option.some.injEq] at hs
      exact .inr (.inr ⟨err, rfl, hs.symm⟩)
    | ok n =>
      simp only [bytesWritten] at hs hle
      simp only [ResumableAsyncWriteAll.onWrite, ResumableAsyncWriteAll.enter] at hs
      by_cases hmore : w.offset + n < s.writeBuffer.length
      · simp only [if_pos hmore, Option.some.injEq] at hs
        exact .inl ⟨n, rfl, hmore, hs.symm⟩
      · simp only [if_neg hmore, Option.some.injEq] at hs
        exact .inr (.inl ⟨n, rfl, by omega, hs.symm⟩)

theorem diskDone_cases (hs : s.diskDone = some s') :
    ∃ w, s.writeToDisk = some w ∧ s.writeBuffer.length ≤ w.offset ∧
      s' = { s with writeToDisk := none }.nextIteration := by
  unfold diskDone at hs
  split at hs
  · cases hs
  · next w hw =>
    unfold ResumableAsyncWriteAll.enter at hs
    split_ifs at hs with hlt
    exact ⟨w, hw, by omega, (Option.some.inj hs).symm⟩

/-- What a ready `read` can lead to. -/
theorem read_cases {r : Except String (List UInt8)} (hs : s.read o r = some s') :
    (bytesRead r).length ≤ s.readFileBlock.room o.bits s.receiveBuffer ∧
      ((∃ rb buf n, s.readFileBlock.poll o.bits s.receiveBuffer r = (rb, buf, .io n) ∧
          s' = { s with
            consumed := s.consumed ++ bytesRead r, readFileBlock := rb, receiveBuffer := buf }) ∨
        (∃ rb buf offset,
          s.readFileBlock.poll o.bits s.receiveBuffer r = (rb, buf, .done (.ok offset)) ∧
          s' = { s with
            consumed := s.consumed ++ bytesRead r
            readFileBlock := rb
            receiveBuffer := s.writeBuffer
            writeBuffer := buf
            received := { offset, data := buf, written := [] } :: s.received
            phase := .seeking offset }.nextIteration) ∨
        ∃ rb buf err,
          s.readFileBlock.poll o.bits s.receiveBuffer r = (rb, buf, .done (.error err)) ∧
          s' = { s with
            consumed := s.consumed ++ bytesRead r
            readFileBlock := rb
            receiveBuffer := buf
            phase := .flushing }.nextIteration) := by
  unfold read at hs
  split_ifs at hs with hle
  refine ⟨hle, ?_⟩
  dsimp only at hs
  split at hs
  · next rb buf n hp => exact .inl ⟨rb, buf, n, hp, (Option.some.inj hs).symm⟩
  · next rb buf off hp => exact .inr (.inl ⟨rb, buf, off, hp, (Option.some.inj hs).symm⟩)
  · next rb buf err hp => exact .inr (.inr ⟨rb, buf, err, hp, (Option.some.inj hs).symm⟩)

/-- What a ready write of a hash can lead to. -/
theorem hashOut_cases {r : Except String ℕ} (hs : s.hashOut r = some s') :
    ∃ w, s.writeHash = some w ∧ bytesWritten r ≤ w.slice.length ∧
      ((∃ w' t, w.poll r = (w', .io t) ∧
          s' = { s with
            sent := s.sent ++ w.slice.take (bytesWritten r), writeHash := some w' }) ∨
        ∃ w' res, w.poll r = (w', .done res) ∧
          s' = { s with
            sent := s.sent ++ w.slice.take (bytesWritten r)
            writeHash := none }.nextIteration) := by
  unfold hashOut at hs
  split at hs
  · cases hs
  · next w hw =>
    split_ifs at hs with hle
    refine ⟨w, hw, hle, ?_⟩
    dsimp only at hs
    split at hs
    · next w' t hp => exact .inl ⟨w', t, hp, (Option.some.inj hs).symm⟩
    · next w' res hp => exact .inr ⟨w', res, hp, (Option.some.inj hs).symm⟩

/-- What a poll of `hasher.recv()` can lead to. -/
theorem recv_cases {e : RecvEvent} (hs : s.recv e = some s') :
    ∃ h r, s.hasher.recvStep e = some (h, r) ∧
      ((r = none ∧ s' = { s with hasher := h }) ∨
        (∃ err, r = some (.error err) ∧
          s' = { s with hasher := h, phase := .leaving (.error err) }) ∨
        (r = some (.ok none) ∧ s' = { s with hasher := h, hashingDone := true }) ∨
        ∃ v, r = some (.ok (some v)) ∧ s' = { s with
          hasher := h.dropLoan v.2.data, writeHash := some (.new v.2.hash) }) := by
  unfold recv at hs
  split at hs
  · cases hs
  · next h hrec => exact ⟨h, _, hrec, .inl ⟨rfl, (Option.some.inj hs).symm⟩⟩
  · next h err hrec => exact ⟨h, _, hrec, .inr (.inl ⟨err, rfl, (Option.some.inj hs).symm⟩)⟩
  · next h hrec => exact ⟨h, _, hrec, .inr (.inr (.inl ⟨rfl, (Option.some.inj hs).symm⟩))⟩
  · next h v hrec => exact ⟨h, _, hrec, .inr (.inr (.inr ⟨v, rfl, (Option.some.inj hs).symm⟩))⟩

/-- Everything a step can do, with what it found. -/
inductive Move (o : ProcessNewClient) (s : Server W) : ServerEvent W → Server W → Prop where
  | disk {r t} (hrun : s.phase = .running) (hfree : s.hasher.busy = false)
      (h : s.disk r = some t) : Move o s (.disk r) t
  | diskDone {t} (hrun : s.phase = .running) (hfree : s.hasher.busy = false)
      (h : s.diskDone = some t) : Move o s .diskDone t
  | read {r t} (hrun : s.phase = .running) (hfree : s.hasher.busy = false)
      (hdisk : s.writeToDisk = none) (h : s.read o r = some t) : Move o s (.read r) t
  | seekOk {offset u} (hph : s.phase = .seeking offset) :
      Move o s (.seek (.ok u)) { s with
        file := { s.file with cursor := offset }, writeToDisk := some .new, phase := .running }
  | seekError {offset err} (hph : s.phase = .seeking offset) :
      Move o s (.seek (.error err)) { s with phase := .leaving (.error err) }
  | hashOut {r t} (hrun : s.phase = .running) (hfree : s.hasher.busy = false)
      (h : s.hashOut r = some t) : Move o s (.hashOut r) t
  | recv {e t} (hrun : s.phase = .running) (hhash : s.writeHash = none)
      (hdone : s.hashingDone = false) (hne : e ≠ .cancel) (h : s.recv e = some t) :
      Move o s (.recv e) t
  | worker {i e g} (h : s.hasher.workerStep o.hashFile s.file.content i e = some g) :
      Move o s (.worker i e) { s with hasher := g }
  | flushOk {u} (hph : s.phase = .flushing) : Move o s (.flush (.ok u)) { s with phase := .syncing }
  | flushError {err} (hph : s.phase = .flushing) :
      Move o s (.flush (.error err)) { s with phase := .leaving (.error err) }
  | syncOk {u} (hph : s.phase = .syncing) :
      Move o s (.sync (.ok u)) { s with phase := .leaving (.ok .ack) }
  | syncError {err} (hph : s.phase = .syncing) :
      Move o s (.sync (.error err)) { s with phase := .leaving (.error err) }
  | closeHasher {r g} (hph : s.phase = .leaving r) (h : s.hasher.close = some g) :
      Move o s .closeHasher { s with hasher := g }
  | join {r g} (hph : s.phase = .leaving r) (h : s.hasher.join = some g) :
      Move o s .join { s with hasher := g }
  | finish {r} (hph : s.phase = .leaving r) (h : s.hasher.phase = .dropped) :
      Move o s .finish { s with phase := .returned r }

theorem move_of_step {e : ServerEvent W} (hs : s.step o e = some s') : Move o s e s' := by
  cases e with
  | disk r =>
    simp only [step, Option.ite_none_right_eq_some] at hs
    exact .disk hs.1.1 hs.1.2 hs.2
  | diskDone =>
    simp only [step, Option.ite_none_right_eq_some] at hs
    exact .diskDone hs.1.1 hs.1.2 hs.2
  | read r =>
    simp only [step, Option.ite_none_right_eq_some] at hs
    exact .read hs.1.1 hs.1.2.1 hs.1.2.2 hs.2
  | seek r =>
    simp only [step, seek] at hs
    split at hs
    · next hph =>
      obtain rfl := Option.some.inj hs
      exact .seekOk hph
    · next hph =>
      obtain rfl := Option.some.inj hs
      exact .seekError hph
    · cases hs
  | hashOut r =>
    simp only [step, Option.ite_none_right_eq_some] at hs
    exact .hashOut hs.1.1 hs.1.2 hs.2
  | recv e =>
    simp only [step, Option.ite_none_right_eq_some] at hs
    exact .recv hs.1.1 hs.1.2.1 hs.1.2.2.1 hs.1.2.2.2 hs.2
  | worker i e =>
    obtain ⟨h, hh, rfl⟩ := Option.map_eq_some_iff.mp hs
    exact .worker hh
  | flush r =>
    simp only [step] at hs
    split at hs
    · next hph =>
      obtain rfl := Option.some.inj hs
      exact .flushOk hph
    · next hph =>
      obtain rfl := Option.some.inj hs
      exact .flushError hph
    · cases hs
  | sync r =>
    simp only [step] at hs
    split at hs
    · next hph =>
      obtain rfl := Option.some.inj hs
      exact .syncOk hph
    · next hph =>
      obtain rfl := Option.some.inj hs
      exact .syncError hph
    · cases hs
  | closeHasher =>
    simp only [step] at hs
    split at hs
    · next hph =>
      obtain ⟨h, hh, rfl⟩ := Option.map_eq_some_iff.mp hs
      exact .closeHasher hph hh
    · cases hs
  | join =>
    simp only [step] at hs
    split at hs
    · next hph =>
      obtain ⟨h, hh, rfl⟩ := Option.map_eq_some_iff.mp hs
      exact .join hph hh
    · cases hs
  | finish =>
    simp only [step] at hs
    split at hs
    · next hph =>
      simp only [Option.ite_none_right_eq_some, Option.some.injEq] at hs
      obtain ⟨hd, rfl⟩ := hs
      exact .finish hph hd
    · cases hs

/-! ## The block on its way to the disk -/

@[simp] theorem cursor_write (f : DestFile) (chunk : List UInt8) :
    (f.write chunk).cursor = f.cursor + chunk.length := by
  cases chunk <;> rfl

/-- The function returns, or is about to return, an error. -/
def Failed (s : Server W) : Prop := ∃ err, s.phase.result = some (.error err)

/-- The block being written, or about to be, is the one received last. -/
structure Writes (s : Server W) : Prop where
  writing : ∀ w, s.writeToDisk = some w → (s.phase = .running ∨ s.Failed) ∧
    ∃ b rest, s.received = b :: rest ∧ b.data = s.writeBuffer ∧ w.offset ≤ b.data.length ∧
      s.file.cursor = b.offset + w.offset ∧ b.written = (b.data.take w.offset).zipIdx b.offset
  seeking : ∀ offset, s.phase = .seeking offset → s.writeToDisk = none ∧
    ∃ b rest, s.received = b :: rest ∧ b.offset = offset ∧ b.data = s.writeBuffer ∧ b.written = []

theorem writes_new (dest : List UInt8) : (new o W dest).Writes := ⟨by simp [new], by simp [new]⟩

/-- A change that concerns neither the disk nor the blocks. -/
theorem Writes.of_eq (hw : s.Writes) (hd : s'.writeToDisk = s.writeToDisk)
    (hr : s'.received = s.received) (hb : s'.writeBuffer = s.writeBuffer) (hf : s'.file = s.file)
    (hph : s'.phase = s.phase ∨
      ((s.writeToDisk = none ∨ s'.Failed) ∧ ∀ off, s'.phase ≠ .seeking off)) :
    s'.Writes := by
  refine ⟨fun w h => ?_, fun off h => ?_⟩
  · rw [hd] at h
    rw [hr, hb, hf]
    refine ⟨?_, (hw.writing w h).2⟩
    rcases hph with hph | ⟨hnone | hfail, -⟩
    · rw [Failed, hph]
      exact (hw.writing w h).1
    · rw [hnone] at h
      cases h
    · exact .inr hfail
  · rw [hd, hr, hb]
    rcases hph with hph | ⟨-, hne⟩
    · exact hw.seeking off (by rw [← hph]; exact h)
    · exact absurd h (hne off)

/-- Past the loop nothing is being written, except after a failure. -/
theorem Writes.disk_none (hw : s.Writes) (hph : s.phase ≠ .running) (hok : ¬ s.Failed) :
    s.writeToDisk = none := by
  cases hd : s.writeToDisk with
  | none => rfl
  | some w =>
    rcases (hw.writing w hd).1 with h | h
    · exact absurd h hph
    · exact absurd h hok

/-- A write of `n` bytes more of the block. -/
theorem written_append {b : ReceivedBlock} {off n : ℕ} (hle : off + n ≤ b.data.length)
    (hb : b.written = (b.data.take off).zipIdx b.offset) :
    b.written ++ ((b.data.drop off).take n).zipIdx (b.offset + off) =
      (b.data.take (off + n)).zipIdx b.offset := by
  have hlen : (b.data.take off).length = off := by rw [List.length_take]; omega
  rw [hb, List.take_add, List.zipIdx_append, hlen]

theorem Writes.step (hw : s.Writes) {e : ServerEvent W} (hs : s.step o e = some s') :
    s'.Writes := by
  cases move_of_step hs with
  | disk hrun hfree h =>
    obtain ⟨w, hwr, hlt, hle, hcases⟩ := disk_cases h
    obtain ⟨-, b, rest, hrec, hdata, hoff, hcur, hwritten⟩ := hw.writing w hwr
    rcases hcases with ⟨n, rfl, hmore, rfl⟩ | ⟨n, -, -, rfl⟩ | ⟨err, -, rfl⟩
    · -- a short write: the rest of the block stays to be written
      refine ⟨?_, by simp [wrote, hrun]⟩
      rintro w' hw'
      obtain rfl := Option.some.inj hw'
      refine ⟨.inl hrun, { b with written := b.written ++
        ((s.writeBuffer.drop w.offset).take n).zipIdx s.file.cursor }, rest, ?_, hdata, ?_, ?_, ?_⟩
      · simp [wrote, hrec, logDisk]
      · dsimp only
        rw [hdata]
        omega
      · simp only [wrote, cursor_write, List.length_take, List.length_drop, hcur]
        omega
      · dsimp only
        rw [hcur, ← hdata]
        exact written_append (by rw [hdata]; omega) hwritten
    · exact ⟨by simp [nextIteration], by simp [nextIteration, wrote, hrun]⟩
    · exact ⟨by simp [nextIteration], by simp [nextIteration, hrun]⟩
  | diskDone hrun hfree h =>
    obtain ⟨w, -, -, rfl⟩ := diskDone_cases h
    exact ⟨by simp [nextIteration], by simp [nextIteration, hrun]⟩
  | read hrun hfree hdisk h =>
    obtain ⟨-, ⟨rb, buf, n, -, rfl⟩ | ⟨rb, buf, off, -, rfl⟩ | ⟨rb, buf, err, -, rfl⟩⟩ :=
      read_cases h
    · exact hw.of_eq rfl rfl rfl rfl (.inl rfl)
    · -- a whole block: the buffers are swapped, and the seek comes next
      refine ⟨by simp [nextIteration, hdisk], ?_⟩
      rintro off' hoff'
      obtain rfl : off = off' := by simpa [nextIteration] using hoff'
      exact ⟨hdisk, _, _, rfl, rfl, rfl, rfl⟩
    · exact hw.of_eq rfl rfl rfl rfl (.inr ⟨.inl hdisk, by simp [nextIteration]⟩)
  | @seekOk offset u hph =>
    obtain ⟨-, b, rest, hrec, hoff, hdata, hwritten⟩ := hw.seeking offset hph
    refine ⟨?_, by simp⟩
    rintro w hw'
    obtain rfl := Option.some.inj hw'
    exact ⟨.inl rfl, b, rest, hrec, hdata, Nat.zero_le _, by rw [hoff]; rfl, by rw [hwritten]; rfl⟩
  | seekError hph =>
    exact hw.of_eq rfl rfl rfl rfl (.inr ⟨.inl (hw.seeking _ hph).1, by simp⟩)
  | hashOut hrun hfree h =>
    obtain ⟨w, -, -, ⟨w', t, -, rfl⟩ | ⟨w', res, -, rfl⟩⟩ := hashOut_cases h <;>
      exact hw.of_eq rfl rfl rfl rfl (.inl rfl)
  | recv hrun hhash hdone hne h =>
    obtain ⟨g, r, -, ⟨-, rfl⟩ | ⟨err, -, rfl⟩ | ⟨-, rfl⟩ | ⟨v, -, rfl⟩⟩ := recv_cases h
    · exact hw.of_eq rfl rfl rfl rfl (.inl rfl)
    · exact hw.of_eq rfl rfl rfl rfl (.inr ⟨.inr ⟨err, rfl⟩, by simp⟩)
    · exact hw.of_eq rfl rfl rfl rfl (.inl rfl)
    · exact hw.of_eq rfl rfl rfl rfl (.inl rfl)
  | worker h => exact hw.of_eq rfl rfl rfl rfl (.inl rfl)
  | flushOk hph | flushError hph | syncOk hph | syncError hph =>
    -- the loop is left at a read, for which the disk has to be idle
    have hnone := hw.disk_none (by simp [hph]) (by simp [Failed, hph, ServerPhase.result])
    exact hw.of_eq rfl rfl rfl rfl (.inr ⟨.inl hnone, by simp⟩)
  | closeHasher hph h => exact hw.of_eq rfl rfl rfl rfl (.inl rfl)
  | join hph h => exact hw.of_eq rfl rfl rfl rfl (.inl rfl)
  | @finish r hph h =>
    refine hw.of_eq rfl rfl rfl rfl (.inr ⟨?_, by simp⟩)
    cases r with
    | ok code =>
      exact .inl (hw.disk_none (by simp [hph]) (by simp [Failed, hph, ServerPhase.result]))
    | error err => exact .inr ⟨err, rfl⟩

/-! ## Success of the server -/

/-- The blocks received that are not on their way to the disk any more. -/
def finished (s : Server W) : List ReceivedBlock :=
  match s.phase with
  | .seeking _ => s.received.tail
  | _ => if s.writeToDisk.isSome then s.received.tail else s.received

/-- The result does not change once it is known. -/
theorem result_step {r : Except String StatusCode} (hr : s.phase.result = some r)
    {e : ServerEvent W} (hs : s.step o e = some s') : s'.phase.result = some r := by
  cases move_of_step hs with
  | worker h => exact hr
  | closeHasher hph h => exact hr
  | join hph h => exact hr
  | finish hph h =>
    rw [hph] at hr
    exact hr
  | disk hrun | diskDone hrun | read hrun | hashOut hrun | recv hrun =>
    simp [hrun, ServerPhase.result] at hr
  | seekOk hph | seekError hph | flushOk hph | flushError hph | syncOk hph | syncError hph =>
    simp [hph, ServerPhase.result] at hr

/-- A block is behind when it is complete, or when a write of it has failed. -/
theorem Writes.finished_step (hw : s.Writes) {e : ServerEvent W} (hs : s.step o e = some s') :
    s'.Failed ∨ (s'.finished = s.finished ∧ ∀ err, e ≠ .disk (.error err)) ∨
      ∃ b, s'.finished = b :: s.finished ∧ (b.Complete ↔ ∀ err, e ≠ .disk (.error err)) := by
  cases move_of_step hs with
  | disk hrun hfree h =>
    right
    obtain ⟨w, hwr, hlt, hle, hcases⟩ := disk_cases h
    obtain ⟨-, b, rest, hrec, hdata, hoff, hcur, hwritten⟩ := hw.writing w hwr
    have hfin : s.finished = rest := by simp [finished, hrun, hwr, hrec]
    rcases hcases with ⟨n, rfl, hmore, rfl⟩ | ⟨n, rfl, hlast, rfl⟩ | ⟨err, rfl, rfl⟩
    · left
      refine ⟨?_, by simp⟩
      rw [hfin]
      simp [finished, wrote, hrun, hrec, logDisk]
    · right
      refine ⟨{ b with written := b.written ++
        ((s.writeBuffer.drop w.offset).take n).zipIdx s.file.cursor }, ?_, ?_⟩
      · rw [hfin]
        simp [finished, nextIteration, wrote, hrun, hrec, logDisk]
      · refine iff_of_true ?_ (by simp)
        have happ := written_append (n := n) (by rw [hdata]; omega) hwritten
        unfold ReceivedBlock.Complete
        dsimp only
        rw [hcur, ← hdata, happ, List.take_of_length_le (by rw [hdata]; omega)]
    · right
      refine ⟨b, ?_, ?_⟩
      · rw [hfin]
        simp [finished, nextIteration, hrun, hrec, logDisk]
      · -- the write that failed had something left to write
        refine iff_of_false ?_ (by simp)
        intro hcomplete
        have hlen := congrArg List.length (hwritten.symm.trans hcomplete)
        simp only [List.length_zipIdx, List.length_take, hdata] at hlen
        omega
  | diskDone hrun hfree h =>
    right; right
    obtain ⟨w, hwr, hge, rfl⟩ := diskDone_cases h
    obtain ⟨-, b, rest, hrec, hdata, -, -, hwritten⟩ := hw.writing w hwr
    refine ⟨b, by simp [finished, nextIteration, hrun, hwr, hrec], iff_of_true ?_ (by simp)⟩
    rw [ReceivedBlock.Complete, hwritten, List.take_of_length_le (by rw [hdata]; exact hge)]
  | read hrun hfree hdisk h =>
    right; left
    obtain ⟨-, ⟨rb, buf, n, -, rfl⟩ | ⟨rb, buf, off, -, rfl⟩ | ⟨rb, buf, err, -, rfl⟩⟩ :=
      read_cases h <;> simp [finished, nextIteration, hrun, hdisk]
  | seekOk hph =>
    right; left
    simp [finished, hph]
  | seekError hph => exact .inl ⟨_, rfl⟩
  | hashOut hrun hfree h =>
    right; left
    obtain ⟨w, -, -, ⟨w', t, -, rfl⟩ | ⟨w', res, -, rfl⟩⟩ := hashOut_cases h <;>
      exact ⟨rfl, by simp⟩
  | recv hrun hhash hdone hne h =>
    obtain ⟨g, r, -, ⟨-, rfl⟩ | ⟨err, -, rfl⟩ | ⟨-, rfl⟩ | ⟨v, -, rfl⟩⟩ := recv_cases h
    · exact .inr (.inl ⟨rfl, by simp⟩)
    · exact .inl ⟨err, rfl⟩
    · exact .inr (.inl ⟨rfl, by simp⟩)
    · exact .inr (.inl ⟨rfl, by simp⟩)
  | worker h => exact .inr (.inl ⟨rfl, by simp⟩)
  | flushOk hph | syncOk hph | finish hph => exact .inr (.inl (by simp [finished, hph]))
  | flushError hph | syncError hph => exact .inl ⟨_, rfl⟩
  | closeHasher hph h => exact .inr (.inl ⟨rfl, by simp⟩)
  | join hph h => exact .inr (.inl ⟨rfl, by simp⟩)

/-- Success of the server is sound exactly when no disk write failed.  In every run that
ends with `Ok(StatusCode::Ack)`, whatever was received: every block received in full has
been written in full at its offset, if and only if no write to the file failed. -/
theorem ack_sound_iff {dest : List UInt8} {es : List (ServerEvent W)}
    (h : run (step o) (new o W dest) es = some s) (hret : s.phase = .returned (.ok .ack)) :
    (∀ b ∈ s.received, b.Complete) ↔ ∀ err, .disk (.error err) ∉ es := by
  obtain ⟨hw, hiff⟩ : s.Writes ∧
      (s.Failed ∨ ((∀ b ∈ s.finished, b.Complete) ↔ ∀ err, .disk (.error err) ∉ es)) := by
    refine run_induction (P := fun es s => s.Writes ∧
      (s.Failed ∨ ((∀ b ∈ s.finished, b.Complete) ↔ ∀ err, .disk (.error err) ∉ es))) ?_ ?_ h
    · exact ⟨writes_new dest, .inr (by simp [new, finished])⟩
    · rintro es u e t - ⟨hw, hiff⟩ ht
      refine ⟨hw.step ht, ?_⟩
      rcases hiff with ⟨err, herr⟩ | hiff
      · exact .inl ⟨err, result_step herr ht⟩
      · rw [forall_not_mem_concat]
        rcases hw.finished_step ht with hfail | ⟨hfin, hne⟩ | ⟨b, hfin, hb⟩
        · exact .inl hfail
        · right
          rw [hfin, hiff]
          exact (and_iff_left hne).symm
        · right
          rw [hfin, List.forall_mem_cons, hiff, and_comm]
          exact and_congr_right fun _ => hb
  have hok : ¬ s.Failed := by simp [Failed, hret, ServerPhase.result]
  have hnone := hw.disk_none (by simp [hret]) hok
  -- at the end every block received is behind
  have hfin : s.finished = s.received := by simp [finished, hret, hnone]
  rw [hfin] at hiff
  exact hiff.resolve_left hok

/-- A destination of two bytes, in blocks of one byte. -/
def twoBytes : ProcessNewClient := .onFile 64 crcDigests .crc32 1 [5, 6]

/-- The first block is received and written; the second one is received, `disk` is what
becomes of it, and the client closes. -/
def twoBlockRun (disk : List (ServerEvent 1)) : List (ServerEvent 1) :=
  [.read (.ok [0, 0, 0, 0, 0, 0, 0, 0]), .read (.ok [7]), .seek (.ok ()), .disk (.ok 1),
    .read (.ok [0, 0, 0, 0, 0, 0, 0, 1]), .read (.ok [8]), .seek (.ok ())] ++ disk ++
  [.read (.ok []), .flush (.ok ()), .sync (.ok ()), .closeHasher,
    .worker solo (.openFile (.ok ())), .worker solo (.seekStart (.ok ())), .worker solo .loopHead,
    .worker solo (.read 1), .worker solo .send, .worker solo .sendStep, .worker solo .exit, .join,
    .join, .finish]

theorem ack_sound_iff_written :
    ∃ s, run (step twoBytes) (new twoBytes 1 [5, 6]) (twoBlockRun [.disk (.ok 1)]) = some s ∧
      s.received.length = 2 ∧ ∀ b ∈ s.received, b.Complete := by
  have hrun : (run (step twoBytes) (new twoBytes 1 [5, 6]) (twoBlockRun [.disk (.ok 1)])).map
      (fun s => (s.phase, s.received.length)) = some (.returned (.ok .ack), 2) := by rfl
  obtain ⟨s, hs, heq⟩ := Option.map_eq_some_iff.mp hrun
  simp only [Prod.mk.injEq] at heq
  exact ⟨s, hs, heq.2, (ack_sound_iff hs heq.1).mpr (by simp [twoBlockRun])⟩

/-- The disk is full, and the server reports success.  The error is the result of the write of
the second block.  With the file of tokio it is the write of the first one that has failed by
then: where the model has the content `[7, 6]`, the real file has still `[5, 6]`. -/
theorem ack_unsound_of_disk_error :
    ¬ ∀ (es : List (ServerEvent 1)) s, run (step twoBytes) (new twoBytes 1 [5, 6]) es = some s →
      s.phase = .returned (.ok .ack) → ∀ b ∈ s.received, b.Complete := by
  intro hall
  have hrun : (run (step twoBytes) (new twoBytes 1 [5, 6])
      (twoBlockRun [.disk (.error "no space left on device")])).map
      (fun s => (s.phase, s.received)) =
      some (.returned (.ok .ack), [{ offset := 1, data := [8], written := [] },
        { offset := 0, data := [7], written := [(7, 0)] }]) := by rfl
  obtain ⟨s, hs, heq⟩ := Option.map_eq_some_iff.mp hrun
  simp only [Prod.mk.injEq] at heq
  have hb := hall _ s hs heq.1 { offset := 1, data := [8], written := [] } (by simp [heq.2])
  cases hb

end Deltasync.Server
