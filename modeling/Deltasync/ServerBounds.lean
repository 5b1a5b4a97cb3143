import Deltasync.ServerApply

/-!
# Where the server writes

A frame says where its block goes, and `read_on` believes it: a header beyond
the end of the file makes `file_size - offset` wrap around, and the block is
written there.  `headers` cuts a byte stream into frames as they are meant to be
read; as long as no header in it lies beyond the end of the file, neither does
any write.
-/

namespace Deltasync

open BigEndian Blocks Transition

/-- The offsets announced in a stream of frames, for a file of `fileSize` bytes. -/
def headers (bits blockSize fileSize : ℕ) (inp : List UInt8) : List ℕ :=
  if inp.length < 8 then []
  else
    let offset := ofBytes bits (inp.take 8)
    offset :: headers bits blockSize fileSize (inp.drop (8 + min blockSize (fileSize - offset)))
termination_by inp.length
decreasing_by rw [List.length_drop]; omega

section Headers

variable {bits blockSize fileSize : ℕ} {inp : List UInt8}

theorem headers_of_lt (h : inp.length < 8) : headers bits blockSize fileSize inp = [] := by
  rw [headers, if_pos h]

theorem headers_of_le (h : 8 ≤ inp.length) : headers bits blockSize fileSize inp =
    ofBytes bits (inp.take 8) :: headers bits blockSize fileSize
      (inp.drop (8 + min blockSize (fileSize - ofBytes bits (inp.take 8)))) := by
  rw [headers, if_neg (by omega)]

/-- A whole frame announces its offset; what follows it comes next, if the block lies
inside the file. -/
theorem headers_append {r : ResumableReadFileBlock} {f : List UInt8} {b : ℕ × List UInt8}
    (hf : r.ReadsAs bits f b) (blockSize fileSize : ℕ) (rest : List UInt8) :
    ∃ l, headers bits blockSize fileSize (f ++ rest) = b.1 :: l ∧
      (b.2.length = min blockSize (fileSize - b.1) →
        l = headers bits blockSize fileSize rest) := by
  have h8 := hf.header
  have htake : (f ++ rest).take 8 = f.take 8 := List.take_append_of_le_length h8
  rw [headers_of_le (by rw [List.length_append]; omega), htake, ← hf.offset]
  refine ⟨_, rfl, fun hb => ?_⟩
  have hlen : f.length = 8 + b.2.length := by
    rw [hf.data, List.length_drop]
    omega
  rw [← hb, ← hlen, List.drop_left]

end Headers

namespace Server

variable {W : ℕ} {o : ProcessNewClient} {s s' : Server W} {dest : List UInt8}

/-- No block reaches beyond the end of the file, and no subtraction for the length of one wraps
around, that of the block being received included. -/
structure Inside (o : ProcessNewClient) (s : Server W) : Prop where
  received : ∀ b ∈ s.received, b.offset ≤ usize o.bits o.filesize ∧
    b.offset + b.data.length ≤ o.filesize
  header : 8 ≤ s.readFileBlock.bufOffset → s.readFileBlock.offset ≤ usize o.bits o.filesize
  length : s.file.content.length = o.filesize

/-- Where the reader is, `got` having been read of the next frame. -/
theorem Reading.head {got : List UInt8} (h : s.Reading o got) :
    s.readFileBlock.bufOffset = got.length ∧
      (8 ≤ got.length → s.readFileBlock.offset = ofBytes o.bits (got.take 8)) := by
  cases h.1 with
  | header hlt hoff hzero hbuf => exact ⟨hoff, fun hle => by omega⟩
  | payload hle hoff hval hlen hlt hbuf => exact ⟨hoff, fun _ => hval⟩

/-! ## The length of the file -/

theorem length_write {f : DestFile} {chunk : List UInt8}
    (h : f.cursor + chunk.length ≤ f.content.length) :
    (f.write chunk).content.length = f.content.length := by
  cases chunk with
  | nil => rfl
  | cons b bs => exact length_patch h

/-- What a step does to the file: nothing, or a write of the next part of the block received
last. -/
theorem Writes.file_cases (hw : s.Writes) {e : ServerEvent W} (hs : s.step o e = some s') :
    (s'.file.content = s.file.content ∧
        (s'.received = s.received ∨ ∃ b, s'.received = b :: s.received ∧ b.written = [])) ∨
      ∃ b rest m chunk, s.received = b :: rest ∧ m + chunk.length ≤ b.data.length ∧
        s.file.cursor = b.offset + m ∧ s'.file = s.file.write chunk ∧
        s'.received = { b with written := b.written ++ chunk.zipIdx (b.offset + m) } :: rest := by
  cases move_of_step hs with
  | disk hrun hfree h =>
    obtain ⟨w, hwr, hlt, hle, hcases⟩ := disk_cases h
    obtain ⟨-, b, rest, hrec, hdata, hoff, hcur, -⟩ := hw.writing w hwr
    have hchunk : ∀ m, w.offset + m ≤ s.writeBuffer.length →
        w.offset + ((s.writeBuffer.drop w.offset).take m).length ≤ b.data.length := by
      intro m hm
      rw [List.length_take, List.length_drop, hdata]
      omega
    rcases hcases with ⟨m, rfl, hmore, rfl⟩ | ⟨m, rfl, hlast, rfl⟩ | ⟨err, -, rfl⟩
    · refine .inr ⟨b, rest, w.offset, _, hrec, hchunk m (by omega), hcur, rfl, ?_⟩
      simp [wrote, hrec, logDisk, hcur]
    · refine .inr ⟨b, rest, w.offset, _, hrec, hchunk m (by omega), hcur, rfl, ?_⟩
      simp [wrote, nextIteration, hrec, logDisk, hcur]
    · exact .inl ⟨rfl, .inl (by simp [nextIteration, hrec, logDisk])⟩
  | diskDone hrun hfree h =>
    obtain ⟨w, -, -, rfl⟩ := diskDone_cases h
    exact .inl ⟨rfl, .inl rfl⟩
  | read hrun hfree hd h =>
    obtain ⟨-, ⟨rb, buf, m, -, rfl⟩ | ⟨rb, buf, off, -, rfl⟩ | ⟨rb, buf, err, -, rfl⟩⟩ :=
      read_cases h
    · exact .inl ⟨rfl, .inl rfl⟩
    · exact .inl ⟨rfl, .inr ⟨_, rfl, rfl⟩⟩
    · exact .inl ⟨rfl, .inl rfl⟩
  | hashOut hrun hfree h =>
    obtain ⟨w, -, -, ⟨w', t, -, rfl⟩ | ⟨w', res, -, rfl⟩⟩ := hashOut_cases h <;>
      exact .inl ⟨rfl, .inl rfl⟩
  | recv hrun hhash hdone hne h =>
    obtain ⟨g, r, -, ⟨-, rfl⟩ | ⟨err, -, rfl⟩ | ⟨-, rfl⟩ | ⟨v, -, rfl⟩⟩ := recv_cases h <;>
      exact .inl ⟨rfl, .inl rfl⟩
  | seekOk | seekError | worker | flushOk | flushError | syncOk | syncError | closeHasher | join
  | finish => exact .inl ⟨rfl, .inl rfl⟩

theorem mem_blocks_of_received {b : ReceivedBlock} {rest : List ReceivedBlock}
    (hrec : s.received = b :: rest) : (b.offset, b.data) ∈ s.blocks := by
  rw [blocks, hrec, writesOf_cons]
  simp

/-- Writing blocks that lie inside the file does not change its length, whichever of the
writes fail. -/
theorem Writes.length_step (hw : s.Writes) {n : ℕ} (hin : s.InRange n)
    (hlen : s.file.content.length = n) {e : ServerEvent W} (hs : s.step o e = some s') :
    s'.file.content.length = n := by
  rcases hw.file_cases hs with ⟨heq, -⟩ | ⟨b, rest, m, chunk, hrec, hle, hcur, hfile, -⟩
  · rw [heq, hlen]
  · have hb := hin _ (mem_blocks_of_received hrec)
    dsimp only at hb
    rw [hfile, length_write (by omega), hlen]

theorem blocks_prefix_step (hr : s.Reads o) {e : ServerEvent W} (hs : s.step o e = some s') :
    s.blocks <+: s'.blocks := by
  by_cases he : ∀ r, e ≠ .read r
  · rw [(sameReader_step hs he).blocks]
  · push Not at he
    obtain ⟨r, rfl⟩ := he
    cases move_of_step hs with
    | read hrun hfree hdisk h =>
    obtain ⟨frames, got, -, -, hread⟩ := hr
    obtain ⟨-, ⟨hb, -⟩ | ⟨b, hb, -⟩ | ⟨hb, -⟩⟩ := hread.read hrun h
    · rw [hb]
    · rw [hb]
      exact List.prefix_append _ _
    · rw [hb]

/-! ## Headers and blocks -/

/-- A block inside the file has the length by which the stream is cut. -/
theorem currentBlockSize_frameReader {off : ℕ} (hle : off ≤ usize o.bits o.filesize) :
    (frameReader o).currentBlockSize o.bits off =
      min o.blockSize (usize o.bits o.filesize - off) :=
  ResumableReadFileBlock.currentBlockSize_eq (r := frameReader o)
    (Nat.mod_lt _ (Nat.two_pow_pos o.bits)) hle

/-- The headers of a stream of whole frames and a rest. -/
theorem headers_le_iff {frames : List (List UInt8)} {l : List (ℕ × List UInt8)}
    (hl : List.Forall₂ (IsFrame o) frames l) (got : List UInt8) :
    let m := usize o.bits o.filesize
    (∀ off ∈ headers o.bits o.blockSize m (frames.flatten ++ got), off ≤ m) ↔
      (∀ b ∈ l, b.1 ≤ m) ∧ ∀ off ∈ headers o.bits o.blockSize m got, off ≤ m := by
  dsimp only
  induction hl with
  | nil => simp
  | @cons f b frames l hf _ ih =>
    obtain ⟨t, ht, hrest⟩ := headers_append hf o.blockSize (usize o.bits o.filesize)
      (frames.flatten ++ got)
    rw [List.flatten_cons, List.append_assoc, ht, List.forall_mem_cons, List.forall_mem_cons,
      and_assoc]
    refine and_congr_right fun hle => ?_
    rw [hrest (hf.length.trans (currentBlockSize_frameReader hle))]
    exact ih

/-- What has been read of the last frame announces one block at most. -/
theorem Reading.headers_le_iff {got : List UInt8} (hr : s.Reading o got) :
    let m := usize o.bits o.filesize
    (∀ off ∈ headers o.bits o.blockSize m got, off ≤ m) ↔
      (8 ≤ got.length → ofBytes o.bits (got.take 8) ≤ m) := by
  dsimp only
  obtain ⟨hp, hb, hf⟩ := hr
  cases hp with
  | header hlt hoff hzero hbuf =>
    rw [headers_of_lt hlt]
    simp only [List.not_mem_nil, false_imp_iff, implies_true, true_iff]
    omega
  | payload hle hoff hval hlen hlt hbuf =>
    rw [headers_of_le hle, forall_prop_of_true hle, List.forall_mem_cons]
    refine and_iff_left_of_imp fun hin => ?_
    -- a part of the payload is missing
    rw [ResumableReadFileBlock.currentBlockSize_congr hb hf, hval,
      currentBlockSize_frameReader hin] at hlen
    rw [List.drop_eq_nil_of_le (by omega), headers_of_lt (by simp)]
    simp

theorem forall_received_iff {P : ℕ × List UInt8 → Prop} :
    (∀ b ∈ s.received, P (b.offset, b.data)) ↔ ∀ b ∈ s.blocks, P b := by
  simp [blocks, writesOf]

/-- The blocks received and the file, along a run. -/
structure Bounds (o : ProcessNewClient) (n : ℕ) (s : Server W) : Prop where
  reads : s.Reads o
  writes : s.Writes
  length : s.InRange n → s.file.content.length = n

theorem bounds_new (o : ProcessNewClient) (dest : List UInt8) :
    (new o W dest).Bounds o dest.length :=
  ⟨reads_new dest, writes_new dest, fun _ => rfl⟩

theorem Bounds.step {n : ℕ} (hB : s.Bounds o n) {e : ServerEvent W} (hs : s.step o e = some s') :
    s'.Bounds o n where
  reads := hB.reads.step hs
  writes := hB.writes.step hs
  length hin := by
    have hpre := blocks_prefix_step hB.reads hs
    have hin' : s.InRange n := fun b hb => hin b (hpre.subset hb)
    exact hB.writes.length_step hin' (hB.length hin') hs

/-- Blocks that begin inside the file as the reader knows it end inside the file. -/
theorem Reads.inRange (hr : s.Reads o)
    (hle : ∀ b ∈ s.blocks, b.1 ≤ usize o.bits o.filesize) : s.InRange o.filesize := by
  obtain ⟨frames, got, hframes, -⟩ := hr
  intro b hb
  obtain ⟨f, hf⟩ := PrefixCode.exists_codeword hframes hb
  have hoff := hle b hb
  have hmod : usize o.bits o.filesize ≤ o.filesize := Nat.mod_le _ _
  rw [hf.length, currentBlockSize_frameReader hoff]
  omega

/-- The server stays inside the file exactly as long as every header that it has been sent
lies inside, all as a `usize` takes them.  In every run, whatever the client sends and whatever
fails: no block received reaches beyond the end of the file, `file_size - offset` has not
wrapped around, and the file has its length, if and only if no offset announced in the
bytes read so far is greater than the size of the file. -/
theorem inside_iff_headers (bits : ℕ) (d : Digests) (alg : HashAlgorithm) (blockSize : ℕ)
    {D : List UInt8} {es : List (ServerEvent W)}
    (h : run (step (.onFile bits d alg blockSize D)) (new (.onFile bits d alg blockSize D) W D)
      es = some s) :
    s.Inside (.onFile bits d alg blockSize D) ↔
      ∀ off ∈ headers bits blockSize (usize bits D.length) s.consumed,
        off ≤ usize bits D.length := by
  have hB : s.Bounds (.onFile bits d alg blockSize D) D.length :=
    run_invariant (fun _ _ _ h hs => h.step hs) (bounds_new _ D) h
  obtain ⟨frames, got, hframes, hcon, hread⟩ := hB.reads
  have hiff := headers_le_iff hframes got
  have hhead := hread.head
  rw [hcon]
  refine Iff.trans ?_ (hiff.trans (and_congr_right' hread.headers_le_iff)).symm
  constructor
  · intro hI
    refine ⟨forall_received_iff.mp fun b hb => (hI.received b hb).1, fun h8 => ?_⟩
    rw [← hhead.2 h8]
    exact hI.header (by rw [hhead.1]; exact h8)
  · rintro ⟨hblocks, hgot⟩
    have hin := hB.reads.inRange hblocks
    refine ⟨forall_received_iff (P := fun b => b.1 ≤ _ ∧ b.1 + b.2.length ≤ _).mpr
      fun b hb => ⟨hblocks b hb, hin b hb⟩, fun h8 => ?_, hB.length hin⟩
    rw [hhead.1] at h8
    rw [hhead.2 h8]
    exact hgot h8

/-- Three frames for a file of three bytes in blocks of two.  The header of the first one is
`2 ^ 32`, which a 32-bit `usize` takes for zero; the last one is of an empty block. -/
def threeFramesRun : List (ServerEvent 1) :=
  [.read (.ok [0, 0, 0, 1, 0, 0, 0, 0]), .read (.ok [7]), .read (.ok [8]), .seek (.ok ()),
    .disk (.ok 2), .read (.ok [0, 0, 0, 0, 0, 0, 0, 2]), .read (.ok [9]), .seek (.ok ()),
    .disk (.ok 1), .read (.ok [0, 0, 0, 0, 0, 0, 0, 3]), .seek (.ok ()), .diskDone]

theorem inside_iff_headers_three :
    ∃ s, run (step (.onFile 32 crcDigests .crc32 2 [5, 6, 4]))
        (new (.onFile 32 crcDigests .crc32 2 [5, 6, 4]) 1 [5, 6, 4]) threeFramesRun = some s ∧
      s.file.content = [7, 8, 9] ∧ s.Inside (.onFile 32 crcDigests .crc32 2 [5, 6, 4]) := by
  have hrun : (run (step (.onFile 32 crcDigests .crc32 2 [5, 6, 4]))
      (new (.onFile 32 crcDigests .crc32 2 [5, 6, 4]) 1 [5, 6, 4]) threeFramesRun).map
        (fun s => (s.consumed, s.file.content)) =
      some ([0, 0, 0, 1, 0, 0, 0, 0, 7, 8, 0, 0, 0, 0, 0, 0, 0, 2, 9, 0, 0, 0, 0, 0, 0, 0, 3],
        [7, 8, 9]) := by rfl
  obtain ⟨s, hs, heq⟩ := Option.map_eq_some_iff.mp hrun
  obtain ⟨hcon, hfile⟩ := Prod.mk.inj heq
  refine ⟨s, hs, hfile, (inside_iff_headers 32 crcDigests .crc32 2 hs).mpr ?_⟩
  rw [hcon, headers_of_le (by decide), headers_of_le (by decide), headers_of_le (by decide),
    headers_of_lt (by decide)]
  decide

/-- A block announced one byte beyond the end of a file of one byte is written there. -/
theorem outside_of_header :
    ¬ ∀ (es : List (ServerEvent 1)) s, run (step (.onFile 64 crcDigests .crc32 1 [5]))
        (new (.onFile 64 crcDigests .crc32 1 [5]) 1 [5]) es = some s →
      s.Inside (.onFile 64 crcDigests .crc32 1 [5]) := by
  intro hall
  have hrun : (run (step (.onFile 64 crcDigests .crc32 1 [5]))
      (new (.onFile 64 crcDigests .crc32 1 [5]) 1 [5])
      [.read (.ok [0, 0, 0, 0, 0, 0, 0, 2]), .read (.ok [7]), .seek (.ok ()), .disk (.ok 1)]).map
        (fun s => s.file.content) = some [5, 0, 7] := by rfl
  obtain ⟨s, hs, hfile⟩ := Option.map_eq_some_iff.mp hrun
  have hlen := (hall _ s hs).length
  rw [hfile] at hlen
  cases hlen

end Server

end Deltasync
