import Deltasync.ServerBounds

/-!
# The server loop applies the blocks that it is sent

The client's stream is a list of frames, a part of one more, and the end of
file.  Whatever the order in which the branches of the loop are ready, and however
the reads and the disk writes are cut, the loop is left with the frames of the list
written to the file one after the other.
-/

namespace Deltasync.Server

open Blocks HashStream PrefixCode Transition

variable {W : ℕ} {o : ProcessNewClient} {s s' : Server W} {dest inp : List UInt8}

/-- The reads bring the bytes of `inp` one after the other, and then the end of file. -/
def fedBy (inp : List UInt8) (s : Server W) : ServerEvent W → Bool
  | .read (.ok bytes) =>
    if bytes = [] then s.consumed = inp else (s.consumed ++ bytes).isPrefixOf inp
  | .read (.error _) => false
  | _ => true

/-- Neither the disk nor the hash stream reports an error. -/
def undisturbed (inp : List UInt8) (s : Server W) (e : ServerEvent W) : Bool :=
  s.fedBy inp e &&
    match e with
    | .disk (.error _) | .seek (.error _) | .flush (.error _) | .sync (.error _) => false
    | .recv e =>
      match s.hasher.recvStep e with
      | some (_, some (.error _)) => false
      | _ => true
    | _ => true

/-- The frame of a block of a file of `n` bytes. -/
def FitsFile (blockSize n : ℕ) (b : ℕ × List UInt8) : Prop :=
  b.1 ≤ n ∧ b.2.length = min blockSize (n - b.1)

/-- A part of a frame: of its header, or of the frame of a block of the file. -/
def PartOfFrame (blockSize n : ℕ) (tail : List UInt8) : Prop :=
  tail.length < 8 ∨ ∃ b, FitsFile blockSize n b ∧ tail <+: blockFrame b ∧ tail ≠ blockFrame b

theorem FitsFile.isFrame {n : ℕ} (hbits : o.bits ≤ 64) (hn : n < 2 ^ o.bits)
    (hsize : o.filesize = n) {b : ℕ × List UInt8} (hb : FitsFile o.blockSize n b) :
    IsFrame o (blockFrame b) b := by
  have hmod : usize o.bits o.filesize = n := by rw [hsize, usize_of_lt hn]
  refine ResumableReadFileBlock.readsAs_blockFrame hbits (lt_of_le_of_lt hb.1 hn) ?_
  rw [currentBlockSize_frameReader (by rw [hmod]; exact hb.1), hmod, hb.2]

theorem PartOfFrame.incomplete {n : ℕ} (hbits : o.bits ≤ 64) (hn : n < 2 ^ o.bits)
    (hsize : o.filesize = n) {tail : List UInt8} (ht : PartOfFrame o.blockSize n tail) :
    Incomplete o tail := by
  rintro f b rest hf rfl
  rcases ht with hlt | ⟨b', hfit, ⟨t, heq⟩, hne⟩
  · have h8 := hf.header
    rw [List.length_append] at hlt
    omega
  · rw [List.append_assoc] at heq
    obtain ⟨rfl, -⟩ := (isPrefixCode_isFrame o).eq_of_append _ _ _ _ _ [] hf
      (hfit.isFrame hbits hn hsize) (by rw [heq, List.append_nil])
    have hnil : rest ++ t = [] := List.append_right_eq_self.mp heq
    rw [(List.append_eq_nil_iff.mp hnil).1, List.append_nil] at hne
    exact hne rfl

/-! ## A run that is not disturbed -/

/-- Nothing fails, and the loop is left at the end of the stream. -/
structure Applied (o : ProcessNewClient) (dest inp : List UInt8) (s : Server W) : Prop where
  reads : s.Reads o
  writes : s.Writes
  applies : s.Applies dest
  sound : ¬ s.Failed
  consumed : s.consumed <+: inp
  ended : ¬ s.InLoop → s.consumed = inp

theorem applied_new (o : ProcessNewClient) (dest inp : List UInt8) :
    (new o W dest).Applied o dest inp :=
  ⟨reads_new dest, writes_new dest, applies_new o W dest, by simp [new, Failed, ServerPhase.result],
    List.nil_prefix, fun h => absurd (.inl rfl) h⟩

/-- Only the disk and the hash stream can make the function fail. -/
theorem sound_step (hok : ¬ s.Failed) {e : ServerEvent W} (hu : s.undisturbed inp e = true)
    (hs : s.step o e = some s') : ¬ s'.Failed := by
  rintro ⟨err, herr⟩
  cases move_of_step hs with
  | disk hrun hfree h =>
    obtain ⟨w, -, -, -, ⟨n, -, -, rfl⟩ | ⟨n, -, -, rfl⟩ | ⟨err', -, rfl⟩⟩ := disk_cases h <;>
      simp [wrote, nextIteration, hrun, ServerPhase.result] at herr
  | diskDone hrun hfree h =>
    obtain ⟨w, -, -, rfl⟩ := diskDone_cases h
    simp [nextIteration, hrun, ServerPhase.result] at herr
  | read hrun hfree hd h =>
    obtain ⟨-, ⟨rb, buf, m, -, rfl⟩ | ⟨rb, buf, off, -, rfl⟩ | ⟨rb, buf, err', -, rfl⟩⟩ :=
      read_cases h <;> simp [nextIteration, hrun, ServerPhase.result] at herr
  | hashOut hrun hfree h =>
    obtain ⟨w, -, -, ⟨w', t, -, rfl⟩ | ⟨w', res, -, rfl⟩⟩ := hashOut_cases h <;>
      simp [nextIteration, hrun, ServerPhase.result] at herr
  | recv hrun hhash hdone hne h =>
    obtain ⟨g, r, hrec, ⟨rfl, rfl⟩ | ⟨err', rfl, rfl⟩ | ⟨rfl, rfl⟩ | ⟨v, rfl, rfl⟩⟩ := recv_cases h
    · simp [hrun, ServerPhase.result] at herr
    · simp [undisturbed, hrec] at hu
    · simp [hrun, ServerPhase.result] at herr
    · simp [hrun, ServerPhase.result] at herr
  | seekOk => simp [ServerPhase.result] at herr
  | seekError | flushError | syncError => simp [undisturbed] at hu
  | flushOk => simp [ServerPhase.result] at herr
  | syncOk => simp [ServerPhase.result] at herr
  | finish hph => exact hok ⟨err, by rw [hph]; exact herr⟩
  | worker h => exact hok ⟨err, herr⟩
  | closeHasher hph h => exact hok ⟨err, herr⟩
  | join hph h => exact hok ⟨err, herr⟩

theorem Applied.step (hin : s.InRange dest.length) (hA : s.Applied o dest inp)
    {e : ServerEvent W} (hu : s.undisturbed inp e = true) (hs : s.step o e = some s') :
    s'.Applied o dest inp := by
  have hok := sound_step hA.sound hu hs
  have hcon := consumed_step hs
  have hdisk : ∀ err, e ≠ .disk (.error err) := by
    rintro err rfl
    simp [undisturbed] at hu
  have hfed : s.fedBy inp e = true := by
    simp only [undisturbed, Bool.and_eq_true] at hu
    exact hu.1
  refine ⟨hA.reads.step hs, hA.writes.step hs, hA.applies.step hA.writes hin hdisk hs hok,
    hok, ?_, fun hloop => ?_⟩
  · rw [hcon]
    cases e with
    | read r =>
      cases r with
      | error err => simp [fedBy] at hfed
      | ok bytes =>
        by_cases hnil : bytes = []
        · simpa [bytesRead, hnil] using hA.consumed
        · simpa [fedBy, hnil, bytesRead] using hfed
    | _ => simpa using hA.consumed
  · by_cases hbefore : s.InLoop
    · rcases hA.reads.inLoop_step hbefore hs with h | h | ⟨r, rfl, hnil⟩
      · exact absurd h hloop
      · exact absurd h hok
      · -- the end of file comes after the last byte of the stream
        cases r with
        | error err => simp [fedBy] at hfed
        | ok bytes =>
          obtain rfl : bytes = [] := hnil
          rw [hcon]
          simpa [fedBy, bytesRead] using hfed
    · have hrest := hA.ended hbefore
      cases e with
      | read r =>
        cases move_of_step hs with
        | read hrun hfree hd h => exact absurd (.inl hrun) hbefore
      | _ => rw [hcon]; simpa using hrest

/-- The blocks received are the first ones of the stream. -/
theorem Applied.blocks_prefix {frames : List (ℕ × List UInt8)} {tail : List UInt8}
    (hframes : ∀ b ∈ frames, IsFrame o (blockFrame b) b) (htail : Incomplete o tail)
    (hA : s.Applied o dest (frames.flatMap blockFrame ++ tail)) : s.blocks <+: frames := by
  obtain ⟨fs, got, hfs, hcon, -⟩ := hA.reads
  have hpre := hA.consumed
  rw [hcon, List.flatMap_def] at hpre
  exact ((isPrefixCode_isFrame o).prefix_of_append hfs (forall₂_map_enc hframes)
    (fun c b x hb => htail c b x hb) hpre).2

/-- The server loop refines the application of the blocks in the order of their arrival, on a
file whose size fits a `usize`.  When it is left, in a run without an error of the disk or
of the hash stream, no block is being written and the file is the original one with the
payloads of all complete frames written over it. -/
theorem content_eq_overwrite {bits : ℕ} (d : Digests) (alg : HashAlgorithm) (blockSize : ℕ)
    {D : List UInt8} (hbits : bits ≤ 64) (hD : D.length < 2 ^ bits)
    {frames : List (ℕ × List UInt8)} (hframes : ∀ b ∈ frames, FitsFile blockSize D.length b)
    {tail : List UInt8} (htail : PartOfFrame blockSize D.length tail) {es : List (ServerEvent W)}
    (h : run (restrict (undisturbed (frames.flatMap blockFrame ++ tail))
        (step (.onFile bits d alg blockSize D))) (new (.onFile bits d alg blockSize D) W D) es =
      some s)
    (hloop : ¬ s.InLoop) :
    s.writeToDisk = none ∧ s.file.content = overwrite 0 D frames := by
  have hacc : ∀ b ∈ frames, IsFrame (.onFile bits d alg blockSize D) (blockFrame b) b :=
    fun b hb => (hframes b hb).isFrame (o := .onFile bits d alg blockSize D) hbits hD rfl
  have hinc : Incomplete (.onFile bits d alg blockSize D) tail :=
    htail.incomplete (o := .onFile bits d alg blockSize D) hbits hD rfl
  have hA : s.Applied (.onFile bits d alg blockSize D) D (frames.flatMap blockFrame ++ tail) := by
    refine run_invariant (fun u e t hu ht => ?_) (applied_new _ D _) h
    obtain ⟨hok, ht⟩ := restrict_eq_some.mp ht
    refine hu.step (fun b hb => ?_) hok ht
    obtain ⟨hle, hlen⟩ := hframes b ((hu.blocks_prefix hacc hinc).subset hb)
    rw [hlen]
    omega
  have hblocks : s.blocks = frames := by
    obtain ⟨fs, got, hfs, hcon, hread⟩ := hA.reads
    rw [hA.ended hloop, List.flatMap_def] at hcon
    exact ((isPrefixCode_isFrame _).eq_of_append_eq hfs (forall₂_map_enc hacc)
      (fun c b x hb => hread.incomplete c b x hb) (fun c b x hb => hinc c b x hb) hcon.symm).2
  refine ⟨hA.writes.disk_none (fun h => hloop (.inl h)) hA.sound, ?_⟩
  rw [hA.applies.content_eq hA.writes hloop hA.sound, hblocks]

/-- Two blocks of which the second one overlaps the first, and the first bytes of a third. -/
theorem content_eq_overwrite_overlap :
    ∃ s, run (restrict (undisturbed (W := 1) ([(0, [7, 8]), (1, [9, 9])].flatMap blockFrame ++ [0]))
        (step (.onFile 64 crcDigests .crc32 2 [5, 6, 4])))
        (new (.onFile 64 crcDigests .crc32 2 [5, 6, 4]) 1 [5, 6, 4])
        [.read (.ok [0, 0, 0, 0, 0, 0, 0, 0]), .read (.ok [7, 8]), .seek (.ok ()), .disk (.ok 1),
          .disk (.ok 1), .read (.ok [0, 0, 0, 0, 0, 0, 0, 1]), .read (.ok [9]), .read (.ok [9]),
          .seek (.ok ()), .disk (.ok 2), .read (.ok [0]), .read (.ok [])] = some s ∧
      s.writeToDisk = none ∧ s.file.content = [7, 9, 9] := by
  have hrun : (run (restrict
      (undisturbed (W := 1) ([(0, [7, 8]), (1, [9, 9])].flatMap blockFrame ++ [0]))
      (step (.onFile 64 crcDigests .crc32 2 [5, 6, 4])))
      (new (.onFile 64 crcDigests .crc32 2 [5, 6, 4]) 1 [5, 6, 4])
      [.read (.ok [0, 0, 0, 0, 0, 0, 0, 0]), .read (.ok [7, 8]), .seek (.ok ()), .disk (.ok 1),
        .disk (.ok 1), .read (.ok [0, 0, 0, 0, 0, 0, 0, 1]), .read (.ok [9]), .read (.ok [9]),
        .seek (.ok ()), .disk (.ok 2), .read (.ok [0]), .read (.ok [])]).map (·.phase) =
      some .flushing := by rfl
  obtain ⟨s, hs, hph⟩ := Option.map_eq_some_iff.mp hrun
  refine ⟨s, hs, content_eq_overwrite crcDigests .crc32 2 (D := [5, 6, 4]) (by decide) (by decide)
    ?_ (.inl (by decide)) hs (by simp [InLoop, hph])⟩
  intro b hb
  simp only [List.mem_cons, List.not_mem_nil, or_false] at hb
  rcases hb with rfl | rfl
  · exact ⟨by decide, by decide⟩
  · exact ⟨by decide, by decide⟩

/-- What a 32-bit server takes a destination of four gigabytes for, in blocks of two bytes. -/
def emptied : ProcessNewClient where
  bits := 32
  blockSize := 2
  filesize := 2 ^ 32
  fileSize := 0
  hash data := hashData crcDigests data .crc32

theorem onFile_fourGigabytes :
    ProcessNewClient.onFile 32 crcDigests .crc32 2 fourGigabytes = emptied := by
  rw [ProcessNewClient.onFile, length_fourGigabytes]
  rfl

/-- The server reads no payload, and takes that of the first frame for the beginning of a
header. -/
theorem content_ne_overwrite_of_wrapped_size :
    ¬ ∀ frames : List (ℕ × List UInt8), (∀ b ∈ frames, FitsFile 2 fourGigabytes.length b) →
      ∀ (es : List (ServerEvent 1)) s,
        run (restrict (undisturbed (frames.flatMap blockFrame ++ []))
            (step (.onFile 32 crcDigests .crc32 2 fourGigabytes)))
          (new (.onFile 32 crcDigests .crc32 2 fourGigabytes) 1 fourGigabytes) es = some s →
        ¬ s.InLoop → s.writeToDisk = none ∧ s.file.content = overwrite 0 fourGigabytes frames := by
  intro hall
  have hfit : ∀ b ∈ [(0, [7, 8])], FitsFile 2 fourGigabytes.length b := by
    intro b hb
    rw [List.mem_singleton.mp hb, length_fourGigabytes]
    exact ⟨by norm_num, by norm_num⟩
  have hrun : (run (restrict (undisturbed (W := 1) ([(0, [7, 8])].flatMap blockFrame ++ []))
      (step emptied)) (new emptied 1 fourGigabytes)
      [.read (.ok [0, 0, 0, 0, 0, 0, 0, 0]), .seek (.ok ()), .diskDone, .read (.ok [7, 8]),
        .read (.ok [])]).map (fun s => (s.phase, s.file.content[0]?)) =
      some (.flushing, some 0) := by decide +kernel
  obtain ⟨s, hs, heq⟩ := Option.map_eq_some_iff.mp hrun
  obtain ⟨hph, hfirst⟩ := Prod.mk.inj heq
  have hcontent := (hall [(0, [7, 8])] hfit _ s (by rw [onFile_fourGigabytes]; exact hs)
    (by simp [InLoop, hph])).2
  rw [hcontent, overwrite, List.foldl_cons, List.foldl_nil,
    getElem?_patch (by rw [length_fourGigabytes]; norm_num)] at hfirst
  revert hfirst
  decide

end Deltasync.Server
