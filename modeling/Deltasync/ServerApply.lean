import Deltasync.ServerLoop

/-!
# What the server makes of the bytes it reads

The bytes read are the frames of the blocks received, and the beginning of one
more.  When no disk write fails, the destination is the original one with the
blocks received written over it, except for the last block while it is on its
way: a frame of which a part is missing has no effect on the file.
-/

namespace Deltasync

/-- The bytes that the server reads in a step. -/
@[simp] def ServerEvent.incoming {W : ℕ} : ServerEvent W → List UInt8
  | .read r => bytesRead r
  | _ => []

namespace Server

open Blocks Transition

variable {W : ℕ} {o : ProcessNewClient} {s s' : Server W} {dest : List UInt8}

/-! ## The frames read -/

/-- The offsets and the data of blocks received, oldest first. -/
def writesOf (received : List ReceivedBlock) : List (ℕ × List UInt8) :=
  received.reverse.map fun b => (b.offset, b.data)

def blocks (s : Server W) : List (ℕ × List UInt8) := writesOf s.received

theorem writesOf_cons (b : ReceivedBlock) (rest : List ReceivedBlock) :
    writesOf (b :: rest) = writesOf rest ++ [(b.offset, b.data)] := by
  simp [writesOf]

theorem writesOf_logDisk (cursor : ℕ) (chunk : List UInt8) (received : List ReceivedBlock) :
    writesOf (logDisk cursor chunk received) = writesOf received := by
  cases received <;> simp [logDisk, writesOf]

/-- The reader at the start of a frame. -/
def frameReader (o : ProcessNewClient) : ResumableReadFileBlock :=
  .new o.blockSize (usize o.bits o.filesize)

/-- The loop is on, or in the seek of one of its branches. -/
def InLoop (s : Server W) : Prop := s.phase = .running ∨ ∃ off, s.phase = .seeking off

/-- `got` is what has been read of the next frame, by a reader for the file of the session. -/
def Reading (o : ProcessNewClient) (s : Server W) (got : List UInt8) : Prop :=
  ResumableReadFileBlock.Partial o.bits s.readFileBlock s.receiveBuffer got ∧
    s.readFileBlock.blockSize = (frameReader o).blockSize ∧
    s.readFileBlock.fileSize = (frameReader o).fileSize

/-- The reader takes `f` for the block `b`. -/
def IsFrame (o : ProcessNewClient) (f : List UInt8) (b : ℕ × List UInt8) : Prop :=
  (frameReader o).ReadsAs o.bits f b

theorem isPrefixCode_isFrame (o : ProcessNewClient) : PrefixCode.IsPrefixCode (IsFrame o) :=
  ResumableReadFileBlock.isPrefixCode_readsAs _ _

/-- No whole frame begins `got`. -/
def Incomplete (o : ProcessNewClient) (got : List UInt8) : Prop :=
  ∀ f b rest, IsFrame o f b → f ++ rest ≠ got

/-- The bytes read are the frames of the blocks received and the beginning of the next one. -/
def Reads (o : ProcessNewClient) (s : Server W) : Prop :=
  ∃ frames got, List.Forall₂ (IsFrame o) frames s.blocks ∧ s.consumed = frames.flatten ++ got ∧
    s.Reading o got

theorem Reading.incomplete {got : List UInt8} (hr : s.Reading o got) : Incomplete o got :=
  fun _ _ rest hf =>
    hr.1.ne_append (ResumableReadFileBlock.readsAs_congr hr.2.1.symm hr.2.2.symm hf) rest

theorem reads_new (dest : List UInt8) : (new o W dest).Reads o :=
  ⟨[], [], .nil, rfl, ResumableReadFileBlock.partial_new _ _ _ _, rfl, rfl⟩

/-- One ready `read`, when `got` has been read of the next frame: inside a frame, at the end of
a frame, or at the end of it all. -/
theorem Reading.read {got : List UInt8} (hr : s.Reading o got) (hrun : s.phase = .running)
    {r : Except String (List UInt8)} (hs : s.read o r = some s') :
    s'.consumed = s.consumed ++ bytesRead r ∧
      ((s'.blocks = s.blocks ∧ s'.phase = .running ∧ bytesRead r ≠ [] ∧
          s'.Reading o (got ++ bytesRead r)) ∨
        (∃ b, s'.blocks = s.blocks ++ [b] ∧ s'.phase = .seeking b.1 ∧ bytesRead r ≠ [] ∧
          IsFrame o (got ++ bytesRead r) b ∧ s'.Reading o []) ∨
        (s'.blocks = s.blocks ∧ s'.phase = .flushing ∧ bytesRead r = [] ∧ s'.Reading o got)) := by
  obtain ⟨hp, hsize⟩ := hr
  obtain ⟨hle, hcases⟩ := read_cases hs
  by_cases hnil : bytesRead r = []
  · obtain ⟨buf', e, hpoll, hp'⟩ := ResumableReadFileBlock.poll_error hp hnil
    rw [hpoll] at hcases
    rcases hcases with ⟨rb, buf, n, heq, -⟩ | ⟨rb, buf, off, heq, -⟩ | ⟨rb, buf, err, heq, rfl⟩
    · cases heq
    · cases heq
    · obtain ⟨rfl, hbuf⟩ := Prod.mk.inj heq
      obtain ⟨rfl, -⟩ := Prod.mk.inj hbuf
      exact ⟨rfl, .inr (.inr ⟨rfl, rfl, hnil, hp', hsize⟩)⟩
  · have hok : r = .ok (bytesRead r) := by
      cases r with
      | ok bytes => rfl
      | error e => exact absurd rfl hnil
    have hout := ResumableReadFileBlock.poll_outcome hp hnil
      (ResumableReadFileBlock.room_pos hp).1 hle
    rw [← hok] at hout
    rcases hcases with ⟨rb, buf, n, heq, rfl⟩ | ⟨rb, buf, off, heq, rfl⟩ | ⟨rb, buf, err, heq, rfl⟩
    · rw [heq] at hout
      obtain ⟨h1, h2, h3⟩ := hout
      exact ⟨rfl, .inl ⟨rfl, hrun, hnil, h1, h2.trans hsize.1, h3.trans hsize.2⟩⟩
    · rw [heq] at hout
      obtain ⟨h1, rfl⟩ := hout
      exact ⟨rfl, .inr (.inl ⟨(off, buf), writesOf_cons _ _, rfl, hnil,
        ResumableReadFileBlock.readsAs_congr hsize.1 hsize.2 h1,
        ResumableReadFileBlock.partial_new _ _ _ _, hsize⟩)⟩
    · rw [heq] at hout
      -- the reader of blocks has no error of its own
      exact hout.elim

/-- Only the read branch touches what `Reads` is about. -/
structure SameReader (s s' : Server W) : Prop where
  readFileBlock : s'.readFileBlock = s.readFileBlock
  receiveBuffer : s'.receiveBuffer = s.receiveBuffer
  consumed : s'.consumed = s.consumed
  blocks : s'.blocks = s.blocks

theorem sameReader_step {e : ServerEvent W} (hs : s.step o e = some s') (he : ∀ r, e ≠ .read r) :
    SameReader s s' := by
  cases move_of_step hs with
  | read hrun hfree hdisk h => exact absurd rfl (he _)
  | disk hrun hfree h =>
    obtain ⟨w, -, -, -, ⟨n, -, -, rfl⟩ | ⟨n, -, -, rfl⟩ | ⟨err, -, rfl⟩⟩ := disk_cases h <;>
      exact ⟨rfl, rfl, rfl, writesOf_logDisk _ _ _⟩
  | diskDone hrun hfree h =>
    obtain ⟨w, -, -, rfl⟩ := diskDone_cases h
    exact ⟨rfl, rfl, rfl, rfl⟩
  | hashOut hrun hfree h =>
    obtain ⟨w, -, -, ⟨w', t, -, rfl⟩ | ⟨w', res, -, rfl⟩⟩ := hashOut_cases h <;>
      exact ⟨rfl, rfl, rfl, rfl⟩
  | recv hrun hhash hdone hne h =>
    obtain ⟨g, r, -, ⟨-, rfl⟩ | ⟨err, -, rfl⟩ | ⟨-, rfl⟩ | ⟨v, -, rfl⟩⟩ := recv_cases h <;>
      exact ⟨rfl, rfl, rfl, rfl⟩
  | _ => exact ⟨rfl, rfl, rfl, rfl⟩

theorem consumed_step {e : ServerEvent W} (hs : s.step o e = some s') :
    s'.consumed = s.consumed ++ e.incoming := by
  by_cases he : ∀ r, e ≠ .read r
  · rw [(sameReader_step hs he).consumed]
    cases e with
    | read r => exact absurd rfl (he r)
    | _ => exact (List.append_nil _).symm
  · push Not at he
    obtain ⟨r, rfl⟩ := he
    cases move_of_step hs with
    | read hrun hfree hdisk h =>
    obtain ⟨-, ⟨rb, buf, n, -, rfl⟩ | ⟨rb, buf, off, -, rfl⟩ | ⟨rb, buf, err, -, rfl⟩⟩ :=
      read_cases h <;> rfl

theorem Reads.step (hr : s.Reads o) {e : ServerEvent W} (hs : s.step o e = some s') :
    s'.Reads o := by
  obtain ⟨frames, got, hframes, hcon, hread⟩ := hr
  by_cases he : ∀ r, e ≠ .read r
  · have hk := sameReader_step hs he
    refine ⟨frames, got, by rw [hk.blocks]; exact hframes, by rw [hk.consumed]; exact hcon, ?_⟩
    rw [Reading, hk.readFileBlock, hk.receiveBuffer]
    exact hread
  · push Not at he
    obtain ⟨r, rfl⟩ := he
    cases move_of_step hs with
    | read hrun hfree hdisk h =>
    obtain ⟨hcon', hcases⟩ := hread.read hrun h
    rw [hcon, List.append_assoc] at hcon'
    rcases hcases with ⟨hb, -, -, hp⟩ | ⟨b, hb, -, -, hframe, hp⟩ | ⟨hb, -, hnil, hp⟩
    · exact ⟨frames, _, by rw [hb]; exact hframes, hcon', hp⟩
    · refine ⟨frames ++ [got ++ bytesRead r], [], ?_, by simpa using hcon', hp⟩
      rw [hb]
      exact List.rel_append hframes (.cons hframe .nil)
    · rw [hnil, List.append_nil] at hcon'
      exact ⟨frames, got, by rw [hb]; exact hframes, hcon', hp⟩

/-- The loop is left when a read comes to the end of the stream, or with an error. -/
theorem Reads.inLoop_step (hr : s.Reads o) (hin : s.InLoop) {e : ServerEvent W}
    (hs : s.step o e = some s') :
    s'.InLoop ∨ s'.Failed ∨ ∃ r, e = .read r ∧ bytesRead r = [] := by
  cases move_of_step hs with
  | disk hrun hfree h =>
    obtain ⟨w, -, -, -, ⟨n, -, -, rfl⟩ | ⟨n, -, -, rfl⟩ | ⟨err, -, rfl⟩⟩ := disk_cases h <;>
      exact .inl (.inl hrun)
  | diskDone hrun hfree h =>
    obtain ⟨w, -, -, rfl⟩ := diskDone_cases h
    exact .inl (.inl hrun)
  | @read r t hrun hfree hdisk h =>
    obtain ⟨frames, got, -, -, hread⟩ := hr
    obtain ⟨-, ⟨-, hph, -⟩ | ⟨b, -, hph, -⟩ | ⟨-, -, hnil, -⟩⟩ := hread.read hrun h
    · exact .inl (.inl hph)
    · exact .inl (.inr ⟨b.1, hph⟩)
    · exact .inr (.inr ⟨r, rfl, hnil⟩)
  | seekOk hph => exact .inl (.inl rfl)
  | seekError hph => exact .inr (.inl ⟨_, rfl⟩)
  | hashOut hrun hfree h =>
    obtain ⟨w, -, -, ⟨w', t, -, rfl⟩ | ⟨w', res, -, rfl⟩⟩ := hashOut_cases h <;>
      exact .inl (.inl hrun)
  | recv hrun hhash hdone hne h =>
    obtain ⟨g, r, -, ⟨-, rfl⟩ | ⟨err, -, rfl⟩ | ⟨-, rfl⟩ | ⟨v, -, rfl⟩⟩ := recv_cases h
    · exact .inl (.inl hrun)
    · exact .inr (.inl ⟨err, rfl⟩)
    · exact .inl (.inl hrun)
    · exact .inl (.inl hrun)
  | worker h => exact .inl hin
  | closeHasher hph h => exact .inl hin
  | join hph h => exact .inl hin
  | flushOk hph | flushError hph | syncOk hph | syncError hph | finish hph =>
    simp [InLoop, hph] at hin

/-! ## The effect on the file -/

/-- The blocks behind are in the file, and of the block being written the first part. -/
structure Applies (dest : List UInt8) (s : Server W) : Prop where
  idle : s.writeToDisk = none → s.file.content = overwrite 0 dest (writesOf s.finished)
  writing : ∀ w b rest, s.writeToDisk = some w → s.received = b :: rest →
    s.file.content = patch 0 (overwrite 0 dest (writesOf rest)) b.offset (b.data.take w.offset)

theorem applies_new (o : ProcessNewClient) (W : ℕ) (dest : List UInt8) :
    (new o W dest).Applies dest :=
  ⟨fun _ => rfl, by simp [new]⟩

/-- A change that concerns neither the disk nor the blocks. -/
theorem Applies.of_eq (hA : s.Applies dest) (hd : s'.writeToDisk = s.writeToDisk)
    (hr : s'.received = s.received) (hf : s'.file = s.file)
    (hfin : s.writeToDisk = none → s'.finished = s.finished) : s'.Applies dest := by
  refine ⟨fun h => ?_, fun w b rest hw hb => ?_⟩
  · rw [hd] at h
    rw [hf, hfin h]
    exact hA.idle h
  · rw [hd] at hw
    rw [hr] at hb
    rw [hf]
    exact hA.writing w b rest hw hb

theorem writesOf_finished_prefix (s : Server W) : writesOf s.finished <+: s.blocks := by
  have htail : writesOf s.received.tail <+: s.blocks := by
    cases hrec : s.received with
    | nil => exact List.nil_prefix
    | cons b rest =>
      rw [blocks, hrec, writesOf_cons]
      exact List.prefix_append _ _
  unfold finished
  split
  · exact htail
  · split_ifs
    · exact htail
    · exact List.prefix_rfl

/-- Every block received lies inside the file. -/
def InRange (n : ℕ) (s : Server W) : Prop := ∀ b ∈ s.blocks, b.1 + b.2.length ≤ n

/-- The block received last lies inside the file that those before it leave. -/
theorem InRange.last (hin : s.InRange dest.length) {b : ReceivedBlock} {rest : List ReceivedBlock}
    (hrec : s.received = b :: rest) : b.offset + b.data.length ≤ dest.length ∧
      (overwrite 0 dest (writesOf rest)).length = dest.length := by
  have hblocks : s.blocks = writesOf rest ++ [(b.offset, b.data)] := by
    rw [blocks, hrec, writesOf_cons]
  exact ⟨hin (b.offset, b.data) (by simp [hblocks]),
    length_overwrite fun x hx => hin x (by simp [hblocks, hx])⟩

theorem content_write {f : DestFile} (h : f.cursor ≤ f.content.length) (chunk : List UInt8) :
    (f.write chunk).content = patch 0 f.content f.cursor chunk := by
  cases chunk with
  | nil => exact (patch_nil h).symm
  | cons b bs => rfl

/-- A write of `n` bytes more of the block received last. -/
theorem Applies.content_wrote (hw : s.Writes) (hA : s.Applies dest) (hin : s.InRange dest.length)
    {w : ResumableAsyncWriteAll} (hwr : s.writeToDisk = some w) {b : ReceivedBlock}
    {rest : List ReceivedBlock} (hrec : s.received = b :: rest) (n : ℕ) :
    (s.wrote ((s.writeBuffer.drop w.offset).take n)).file.content =
      patch 0 (overwrite 0 dest (writesOf rest)) b.offset (b.data.take (w.offset + n)) := by
  obtain ⟨-, b', rest', hrec', hdata, hoff, hcur, -⟩ := hw.writing w hwr
  obtain ⟨rfl, rfl⟩ : b = b' ∧ rest = rest' := by simpa [hrec] using hrec'
  have hcon := hA.writing w b rest hwr hrec
  obtain ⟨hb, hlen⟩ := hin.last hrec
  have htake : (b.data.take w.offset).length = w.offset := by rw [List.length_take]; omega
  have hlen' := congrArg List.length hcon
  rw [length_patch (by rw [hlen, htake]; omega), hlen] at hlen'
  calc (s.wrote ((s.writeBuffer.drop w.offset).take n)).file.content
      = patch 0 s.file.content s.file.cursor ((s.writeBuffer.drop w.offset).take n) :=
        content_write (by rw [hlen', hcur]; omega) _
    _ = patch 0 (overwrite 0 dest (writesOf rest)) b.offset
          (b.data.take w.offset ++ (b.data.drop w.offset).take n) := by
        rw [hcon, hcur, ← hdata, ← patch_append (by rw [hlen, htake]; omega), htake]
    _ = patch 0 (overwrite 0 dest (writesOf rest)) b.offset (b.data.take (w.offset + n)) := by
        rw [List.take_add]

/-- A step that neither fails a disk write nor makes the function fail. -/
theorem Applies.step (hw : s.Writes) (hA : s.Applies dest) (hin : s.InRange dest.length)
    {e : ServerEvent W} (hdisk : ∀ err, e ≠ .disk (.error err)) (hs : s.step o e = some s')
    (hok : ¬ s'.Failed) : s'.Applies dest := by
  cases move_of_step hs with
  | disk hrun hfree h =>
    obtain ⟨w, hwr, hlt, hle, hcases⟩ := disk_cases h
    obtain ⟨-, b, rest, hrec, hdata, hoff, hcur, -⟩ := hw.writing w hwr
    rcases hcases with ⟨n, rfl, hmore, rfl⟩ | ⟨n, rfl, hlast, rfl⟩ | ⟨err, rfl, -⟩
    · refine ⟨by simp, ?_⟩
      intro w' b' rest' hw' hb'
      obtain rfl := Option.some.inj hw'
      simp only [wrote, hrec, logDisk, List.cons.injEq] at hb'
      obtain ⟨rfl, rfl⟩ := hb'
      exact hA.content_wrote hw hin hwr hrec n
    · refine ⟨fun _ => ?_, by simp [nextIteration]⟩
      have hfin : finished ({ s.wrote ((s.writeBuffer.drop w.offset).take n) with
          writeToDisk := none }.nextIteration) =
          logDisk s.file.cursor ((s.writeBuffer.drop w.offset).take n) s.received := by
        simp [finished, nextIteration, wrote, hrun]
      rw [hfin, writesOf_logDisk, hrec, writesOf_cons, overwrite_concat]
      refine (hA.content_wrote hw hin hwr hrec n).trans ?_
      rw [List.take_of_length_le (by rw [hdata]; exact hlast.ge)]
    · exact absurd rfl (hdisk err)
  | diskDone hrun hfree h =>
    -- a block of no byte is behind at once
    obtain ⟨w, hwr, hge, rfl⟩ := diskDone_cases h
    obtain ⟨-, b, rest, hrec, hdata, -⟩ := hw.writing w hwr
    refine ⟨fun _ => ?_, by simp [nextIteration]⟩
    have hfin : finished ({ s with writeToDisk := none }.nextIteration) = b :: rest := by
      simp [finished, nextIteration, hrun, hrec]
    rw [hfin, writesOf_cons, overwrite_concat]
    refine (hA.writing w b rest hwr hrec).trans ?_
    rw [List.take_of_length_le (by rw [hdata]; exact hge)]
  | read hrun hfree hd h =>
    have hfin : s.finished = s.received := by simp [finished, hrun, hd]
    obtain ⟨-, ⟨rb, buf, n, -, rfl⟩ | ⟨rb, buf, off, -, rfl⟩ | ⟨rb, buf, err, -, rfl⟩⟩ :=
      read_cases h
    · exact hA.of_eq rfl rfl rfl fun _ => rfl
    · refine ⟨fun _ => ?_, by simp [nextIteration, hd]⟩
      refine (hA.idle hd).trans ?_
      rw [hfin]
      rfl
    · exact hA.of_eq rfl rfl rfl fun _ => by simp [finished, nextIteration, hd, hrun]
  | @seekOk offset u hph =>
    obtain ⟨hnone, b, rest, hrec, hoff, -, -⟩ := hw.seeking offset hph
    refine ⟨by simp, ?_⟩
    intro w b' rest' hw' hb'
    obtain rfl := Option.some.inj hw'
    obtain ⟨rfl, rfl⟩ : b = b' ∧ rest = rest' := by simpa [hrec] using hb'
    have hfin : s.finished = rest := by simp [finished, hph, hrec]
    obtain ⟨hb, hlen⟩ := hin.last hrec
    have hcon := hA.idle hnone
    rw [hfin] at hcon
    rw [ResumableAsyncWriteAll.new, List.take_zero, patch_nil (by omega)]
    exact hcon
  | hashOut hrun hfree h =>
    obtain ⟨w, -, -, ⟨w', t, -, rfl⟩ | ⟨w', res, -, rfl⟩⟩ := hashOut_cases h <;>
      exact hA.of_eq rfl rfl rfl fun _ => rfl
  | recv hrun hhash hdone hne h =>
    obtain ⟨g, r, -, ⟨-, rfl⟩ | ⟨err, -, rfl⟩ | ⟨-, rfl⟩ | ⟨v, -, rfl⟩⟩ := recv_cases h
    · exact hA.of_eq rfl rfl rfl fun _ => rfl
    · exact absurd ⟨err, rfl⟩ hok
    · exact hA.of_eq rfl rfl rfl fun _ => rfl
    · exact hA.of_eq rfl rfl rfl fun _ => rfl
  | worker h => exact hA.of_eq rfl rfl rfl fun _ => rfl
  | flushOk hph | syncOk hph | finish hph =>
    exact hA.of_eq rfl rfl rfl fun _ => by simp [finished, hph]
  | seekError hph | flushError hph | syncError hph => exact absurd ⟨_, rfl⟩ hok
  | closeHasher hph h => exact hA.of_eq rfl rfl rfl fun _ => rfl
  | join hph h => exact hA.of_eq rfl rfl rfl fun _ => rfl

/-- Past the loop all blocks received are in the file, and nothing else. -/
theorem Applies.content_eq (hw : s.Writes) (hA : s.Applies dest) (hloop : ¬ s.InLoop)
    (hok : ¬ s.Failed) : s.file.content = overwrite 0 dest s.blocks := by
  have hne : s.phase ≠ .running := fun h => hloop (.inl h)
  have hnone := hw.disk_none hne hok
  rw [hA.idle hnone]
  cases hph : s.phase with
  | seeking off => exact absurd (.inr ⟨off, hph⟩) hloop
  | _ => simp [finished, hph, hnone, blocks]

end Server

end Deltasync
