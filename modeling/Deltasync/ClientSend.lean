import Deltasync.ClientLoop
import Deltasync.HashContent

/-!
# What the client sends

`D` is the content of the source.  The blocks whose frames were begun, then those
queued, are the diverging ones among the blocks compared, in order; of each frame
begun the socket has accepted a first part, and the writer holds the rest.

When no hash worker fails, the loop is left only with every block compared and the
queue empty.  Every frame is then complete unless one of the writes failed: the
branch that follows a write does not look at its result.
-/

namespace Deltasync

open Blocks HashStream

/-- `hash_file` reads `D`, of a size for which nothing wraps around. -/
structure NewProcess.Hashes (o : NewProcess) (W : ℕ) (D : List UInt8) : Prop where
  fits : Fits o.hashFile W D
  bits : 16 ≤ o.bits ∧ o.bits ≤ 64

namespace NewProcess.Hashes

variable {W : ℕ} {o : NewProcess} {D : List UInt8}

theorem blockSize_pos (ho : o.Hashes W D) : 0 < o.blockSize := ho.fits.blockSize_pos

theorem length_lt (ho : o.Hashes W D) : D.length < 2 ^ o.bits :=
  ho.fits.offsets.size_lt ho.fits.blockSize_pos ho.fits.workers_pos

end NewProcess.Hashes

theorem NewProcess.endBlockIdx_of_lt {o : NewProcess} (hsize : o.srcSize < 2 ^ o.bits) :
    o.endBlockIdx = divCeil o.srcSize o.blockSize := by
  rw [endBlockIdx, usize_of_lt hsize]

/-- `D` is the source, also of the size that was sent. -/
structure NewProcess.Reads (o : NewProcess) (W : ℕ) (D : List UInt8) : Prop where
  fits : Fits o.hashFile W D
  bits : 16 ≤ o.bits ∧ o.bits ≤ 64
  size : o.srcSize = D.length
  nonempty : D ≠ []

namespace NewProcess.Reads

variable {W : ℕ} {o : NewProcess} {D : List UInt8}

theorem blockSize_pos (ho : o.Reads W D) : 0 < o.blockSize := ho.fits.blockSize_pos

theorem hashes (ho : o.Reads W D) : o.Hashes W D := ⟨ho.fits, ho.bits⟩

theorem length_lt (ho : o.Reads W D) : D.length < 2 ^ o.bits := ho.hashes.length_lt

theorem endBlockIdx_eq (ho : o.Reads W D) : o.endBlockIdx = divCeil D.length o.blockSize := by
  rw [NewProcess.endBlockIdx_of_lt (by rw [ho.size]; exact ho.length_lt), ho.size]

theorem endBlockIdx_pos (ho : o.Reads W D) : 0 < o.endBlockIdx := by
  rw [ho.endBlockIdx_eq]
  exact divCeil_pos ho.blockSize_pos (List.length_pos_iff.mpr ho.nonempty)

end NewProcess.Reads

/-- The sizes for which a session is meant: blocks of up to a gigabyte, a `u8` of workers,
and a source on which no counter wraps around. -/
theorem NewProcess.reads_onFile {bits : ℕ} (d : Digests) (alg : HashAlgorithm) {blockSize W : ℕ}
    {D : List UInt8} (hbits : 16 ≤ bits ∧ bits ≤ 64) (hb : 1 ≤ blockSize ∧ blockSize ≤ 2 ^ 30)
    (hW : 1 ≤ W ∧ W ≤ 255) (hne : D ≠ []) (hfit : OffsetsFit bits blockSize D.length W) :
    (onFile bits d alg blockSize D).Reads W D where
  fits := fits_of_offsets _ hb hW hfit
  bits := hbits
  size := rfl
  nonempty := hne

namespace Client

open Transition

variable {W : ℕ} {o : NewProcess} {D : List UInt8} {c c' : Client W} {m : ℕ}

/-- The frame of block `k` of the source. -/
def frame (o : NewProcess) (D : List UInt8) (k : ℕ) : List UInt8 :=
  blockFrame (k * o.blockSize, block o.blockSize D k)

/-- The diverging blocks among the first `m`. -/
def diverging (o : NewProcess) (D : List UInt8) (decoded : List String) (m : ℕ) : List ℕ :=
  (List.range m).filter fun k => decoded[k]? ≠ some (o.hash (block o.blockSize D k))

theorem mem_diverging {decoded : List String} {k : ℕ} :
    k ∈ diverging o D decoded m ↔
      k < m ∧ decoded[k]? ≠ some (o.hash (block o.blockSize D k)) := by
  simp [diverging]

theorem nodup_diverging (decoded : List String) : (diverging o D decoded m).Nodup :=
  List.nodup_range.filter _

theorem diverging_succ (decoded : List String) :
    diverging o D decoded (m + 1) = diverging o D decoded m ++
      if decoded[m]? ≠ some (o.hash (block o.blockSize D m)) then [m] else [] := by
  rw [diverging, List.range_succ, List.filter_append, ← diverging]
  congr 1
  split_ifs with h <;> simp [h]

/-- A hash decoded later says nothing about the blocks compared before. -/
theorem diverging_append {decoded : List String} (hm : m ≤ decoded.length) (hash : String) :
    diverging o D (decoded ++ [hash]) m = diverging o D decoded m := by
  apply List.filter_congr
  intro k hk
  rw [List.getElem?_append_left (by have := List.mem_range.mp hk; omega)]

/-- The frames begun and the blocks queued, after `m` blocks were compared. -/
structure Frames (o : NewProcess) (D : List UInt8) (m : ℕ) (c : Client W) : Prop where
  begun : c.phase = .running ∨ (∃ r, c.phase = .leaving r) →
    c.accepted.reverse.map Prod.fst ++ c.blocksIdxToSend.map Prod.fst =
      diverging o D c.decoded m
  queue : ∀ x ∈ c.blocksIdxToSend, x.1 < m ∧ x.2.value = block o.blockSize D x.1
  accepted : ∀ x ∈ c.accepted, x.1 < m ∧ x.2 <+: frame o D x.1
  writer : ∀ w, c.writeBlock = some w → ∃ k bytes rest, c.accepted = (k, bytes) :: rest ∧
    w.Writing ∧ w.remaining ≠ [] ∧ bytes ++ w.remaining = frame o D k

/-- The frames do not depend on the hash stream, on the counters or on the reader. -/
theorem Frames.of_eq (hf : Frames o D m c)
    (hph : c'.phase = .running ∨ (∃ r, c'.phase = .leaving r) →
      c.phase = .running ∨ ∃ r, c.phase = .leaving r)
    (hacc : c'.accepted = c.accepted) (hq : c'.blocksIdxToSend = c.blocksIdxToSend)
    (hd : diverging o D c'.decoded m = diverging o D c.decoded m)
    (hw : c'.writeBlock = c.writeBlock ∨ c'.writeBlock = none) : Frames o D m c' := by
  refine ⟨?_, by rw [hq]; exact hf.queue, by rw [hacc]; exact hf.accepted, ?_⟩
  · rw [hacc, hq, hd]
    exact fun h => hf.begun (hph h)
  · rw [hacc]
    rcases hw with hw | hw <;> rw [hw]
    · exact hf.writer
    · simp

theorem remaining_ne_nil (off : ℕ) (l : Loan (Fin W) (List UInt8)) :
    (ResumableWriteFileBlock.new off l).remaining ≠ [] := by
  rw [ResumableWriteFileBlock.remaining_new, blockFrame]
  intro h
  exact BigEndian.toBytes_ne_nil (by norm_num) _ (List.append_eq_nil_iff.mp h).1

/-- The next block queued becomes the one to write. -/
theorem Frames.prepareNextWriteBlock (ho : o.Hashes W D) (hm : m ≤ divCeil D.length o.blockSize)
    (hf : Frames o D m c) : Frames o D m (c.prepareNextWriteBlock o) := by
  rcases prepareNextWriteBlock_cases o c with ⟨h, -⟩ | ⟨idx, data, rest, h1, h2, h⟩
  · rwa [h]
  · rw [h]
    obtain ⟨hidx, hdata⟩ := hf.queue (idx, data) (by simp [h2])
    dsimp only at hidx hdata
    have hlt : idx * o.blockSize < D.length := by
      rw [← lt_divCeil_iff ho.blockSize_pos]
      omega
    -- the offset of a block inside the file does not wrap around
    have hno : usize o.bits (idx * o.blockSize) = idx * o.blockSize :=
      usize_of_lt (hlt.trans ho.length_lt)
    refine ⟨fun hph => ?_, fun x hx => hf.queue x (by rw [h2]; exact List.mem_cons_of_mem _ hx),
      ?_, ?_⟩
    · rw [← hf.begun hph, h2]
      simp
    · intro x hx
      rcases List.mem_cons.mp hx with rfl | hx
      · exact ⟨hidx, List.nil_prefix⟩
      · exact hf.accepted x hx
    · rintro w hw
      obtain rfl := Option.some.inj hw
      refine ⟨idx, [], c.accepted, rfl, ResumableWriteFileBlock.writing_new _ _,
        remaining_ne_nil _ _, ?_⟩
      rw [List.nil_append, ResumableWriteFileBlock.remaining_new, hno, hdata]
      rfl

/-- What one ready `write` does to the frame begun last: the writer goes on with the rest;
or it ends, having written the whole frame if and only if the write succeeded. -/
theorem Frames.write (hf : Frames o D m c) {r : Except String ℕ} (hs : c.write o r = some c') :
    ∃ k bytes rest w, c.accepted = (k, bytes) :: rest ∧ c.writeBlock = some w ∧
      ∃ bytes', bytes' <+: frame o D k ∧
        ((∃ w', c' = { c with writeBlock := some w', accepted := (k, bytes') :: rest } ∧
            (∃ n, r = .ok n) ∧ w'.Writing ∧ w'.remaining ≠ [] ∧
            bytes' ++ w'.remaining = frame o D k) ∨
          ∃ w', c' = ({ c with accepted := (k, bytes') :: rest }.blockWritten o w').nextIteration ∧
            w'.buf = w.buf ∧ (bytes' = frame o D k ↔ ∃ n, r = .ok n)) ∧
        bytes' = bytes ++ w.slice.take (bytesWritten r) := by
  obtain ⟨w, hw, hle, hcases⟩ := write_cases hs
  obtain ⟨k, bytes, rest, hacc, hwr, hrem, hframe⟩ := hf.writer w hw
  obtain ⟨hslice, -⟩ := ResumableWriteFileBlock.slice_prefix hwr
  have hlog : logWrite w r c.accepted =
      (k, bytes ++ w.slice.take (bytesWritten r)) :: rest := by rw [hacc]; rfl
  -- the bytes accepted are the first ones still to be written
  have htake : w.slice.take (bytesWritten r) = w.remaining.take (bytesWritten r) := by
    obtain ⟨t, ht⟩ := hslice
    rw [← ht, List.take_append_of_le_length hle]
  have hsplit : bytes ++ w.slice.take (bytesWritten r) ++ w.remaining.drop (bytesWritten r) =
      frame o D k := by
    rw [htake, List.append_assoc, List.take_append_drop, hframe]
  refine ⟨k, bytes, rest, w, hacc, hw, _, ⟨_, hsplit⟩, ?_, rfl⟩
  rw [hlog] at hcases
  cases r with
  | error err =>
    obtain ⟨w', hpoll⟩ := ResumableWriteFileBlock.poll_error hwr hrem err
    rcases hcases with ⟨_, s, hp, -⟩ | ⟨w'', res, hp, rfl⟩
    · rw [hpoll] at hp
      cases hp
    · refine .inr ⟨w'', rfl, by rw [← ResumableWriteFileBlock.poll_buf w, hp], ?_⟩
      -- nothing of the rest was accepted, and the rest is not empty
      refine iff_of_false ?_ (by simp)
      intro heq
      simp only [bytesWritten, List.take_zero, List.append_nil] at heq
      rw [heq] at hframe
      exact hrem (by simpa using hframe)
  | ok n =>
    obtain ⟨h1, -, -, h4, h5⟩ := ResumableWriteFileBlock.poll_ok (n := n) hwr hrem hle
    rcases hcases with ⟨w', s, hp, rfl⟩ | ⟨w', res, hp, rfl⟩
    · rw [hp] at h1 h4 h5
      dsimp only at h1 h4 h5
      simp only [bytesWritten] at hsplit ⊢
      refine .inl ⟨w', rfl, ⟨n, rfl⟩, h4, ?_, by rw [h1]; exact hsplit⟩
      rcases h5 with ⟨-, hd⟩ | ⟨s', t, hst, hs', -, -, -⟩
      · cases hd
      · rw [h1, hst]
        simp [hs']
    · rw [hp] at h5
      rcases h5 with ⟨hnil, -⟩ | ⟨_, _, -, -, hd, -, -⟩
      · simp only [bytesWritten] at hsplit ⊢
        rw [hnil, List.append_nil] at hsplit
        exact .inr ⟨w', rfl, by rw [← ResumableWriteFileBlock.poll_buf w, hp],
          iff_of_true hsplit ⟨n, rfl⟩⟩
      · cases hd

theorem frames_blockWritten (ho : o.Hashes W D) (hm : m ≤ divCeil D.length o.blockSize)
    (hrun : c.phase = .running) (hf : Frames o D m { c with writeBlock := none })
    (w : ResumableWriteFileBlock (Fin W)) : Frames o D m (c.blockWritten o w) := by
  unfold Client.blockWritten
  dsimp only
  split_ifs
  · exact hf.of_eq (fun _ => .inl hrun) rfl rfl rfl (.inl rfl)
  · refine Frames.prepareNextWriteBlock ho hm ?_
    exact hf.of_eq id rfl rfl rfl (.inl rfl)

theorem Frames.advance (hrun : c.phase = .running) (hf : Frames o D m c) :
    Frames o D m (c.advance o) := by
  rcases advance_cases o c with ⟨-, h⟩ | ⟨-, -, h⟩ | ⟨-, -, h⟩ <;> rw [h] <;>
    exact hf.of_eq (fun _ => .inl hrun) rfl rfl rfl (.inl rfl)

/-- One block more is compared; it is queued if its hash differs from the remote one. -/
theorem Frames.compare (ho : o.Hashes W D) (hm : c.blockIdx < divCeil D.length o.blockSize)
    (hrun : c.phase = .running) (hf : Frames o D c.blockIdx c) {remoteHash : String}
    (hremote : c.decoded[c.blockIdx]? = some remoteHash) {d : FileBlockData (Fin W)}
    (hhash : d.hash = o.hash (block o.blockSize D c.blockIdx))
    (hdata : d.data.value = block o.blockSize D c.blockIdx) :
    Frames o D (c.blockIdx + 1) (c.compare o d remoteHash) := by
  have hacc : ∀ x ∈ c.accepted, x.1 < c.blockIdx + 1 ∧ x.2 <+: frame o D x.1 := fun x hx =>
    ⟨(hf.accepted x hx).1.trans (Nat.lt_succ_self _), (hf.accepted x hx).2⟩
  have hqueue : ∀ x ∈ c.blocksIdxToSend, x.1 < c.blockIdx + 1 ∧
      x.2.value = block o.blockSize D x.1 := fun x hx =>
    ⟨(hf.queue x hx).1.trans (Nat.lt_succ_self _), (hf.queue x hx).2⟩
  have hsucc := diverging_succ (o := o) (D := D) (m := c.blockIdx) c.decoded
  unfold Client.compare
  split_ifs with hne
  · -- the block diverges, and is queued behind the others
    rw [if_pos (by rw [hremote, ← hhash]; simpa using hne.symm)] at hsucc
    have hq : Frames o D (c.blockIdx + 1)
        { c with blocksIdxToSend := c.blocksIdxToSend ++ [(c.blockIdx, d.data)] } := by
      refine ⟨fun hph => ?_, ?_, hacc, hf.writer⟩
      · rw [hsucc, ← hf.begun hph]
        simp
      · intro x hx
        rcases List.mem_append.mp hx with hx | hx
        · exact hqueue x hx
        · obtain rfl : x = (c.blockIdx, d.data) := by simpa using hx
          exact ⟨Nat.lt_succ_self _, hdata⟩
    refine (hq.prepareNextWriteBlock ho hm).advance ?_
    rw [(prepareNextWriteBlock_keeps o _).phase]
    exact hrun
  · -- the hashes agree, and the loan is dropped
    rw [if_neg (by simp [hremote, ← hhash, not_not.mp hne])] at hsucc
    refine Frames.advance hrun ⟨fun hph => ?_, hqueue, hacc, hf.writer⟩
    rw [hsucc, List.append_nil]
    exact hf.begun hph

/-! ## The client and the source -/

/-- The hash stream delivers the blocks of the source, and the frames are theirs. -/
structure Sends (o : NewProcess) (D : List UInt8) (c : Client W) : Prop where
  counts : c.Counts o
  owns : c.Owns o
  content : c.hasher.Content o.hashFile D
  delivered : c.blockIdx = c.hasher.chan.delivered.length
  frames : Frames o D c.blockIdx c

theorem sends_new (ho : o.Hashes W D) (hend : 0 < o.endBlockIdx) : (new o W).Sends o D :=
  ⟨counts_new hend, owns_new, content_hashFile ho.blockSize_pos, rfl,
    fun _ => rfl, by simp [new], by simp [new], by simp [new]⟩

/-- No more blocks are compared than the file has. -/
theorem Sends.blockIdx_le (ho : o.Hashes W D) (hS : c.Sends o D) :
    c.blockIdx ≤ divCeil D.length o.blockSize := by
  have hle := (hS.content.delivered_prefix ho.blockSize_pos hS.owns.control).length_le
  rw [List.length_map, length_sequential] at hle
  rw [hS.delivered]
  exact hle

/-- The block that `recv` returns is the one of `block_idx`. -/
theorem Sends.received (ho : o.Hashes W D) (hS : c.Sends o D) {e : RecvEvent} {g : HashStream W}
    {v : Item W} (hrec : c.hasher.recvStep e = some (g, some (.ok (some v)))) :
    c.blockIdx < divCeil D.length o.blockSize ∧
      v.2.hash = o.hash (block o.blockSize D c.blockIdx) ∧
      v.2.data.value = block o.blockSize D c.blockIdx ∧
      g.chan.delivered.length = c.blockIdx + 1 := by
  have hf := recvStep_frame hrec
  have hg := hS.owns.control.recvStep hrec
  have hCg := hS.content.recvStep hrec
  have hdel : g.chan.delivered = c.hasher.chan.delivered ++ [v] := by
    simpa [RecvResult.blocks] using hf.delivered
  have hplaced : g.chan.placed[c.blockIdx]? = some v := by
    rw [hg.chan.placed_eq, hdel, hS.delivered]
    simp
  have hview := hCg.placed_view ho.blockSize_pos hg hplaced
  simp only [sequential, List.getElem?_map, Option.map_eq_some_iff, Item.view, Prod.mk.injEq]
    at hview
  obtain ⟨k, hk, -, h1, h2⟩ := hview
  obtain ⟨hlt, hk⟩ := List.getElem?_eq_some_iff.mp hk
  obtain rfl : c.blockIdx = k := by simpa using hk
  rw [List.length_range] at hlt
  exact ⟨hlt, h1.symm, h2.symm, by rw [hdel, hS.delivered]; simp⟩

/-- The end of the compare branch counts the block. -/
theorem compare_blockIdx (hb : 0 < o.blockSize) (hlt : c.blockIdx < o.endBlockIdx)
    (d : FileBlockData (Fin W)) (remoteHash : String) :
    (c.compare o d remoteHash).blockIdx = c.blockIdx + 1 := by
  have hno : usize o.bits (c.blockIdx + 1) = c.blockIdx + 1 :=
    usize_of_lt (by have := endBlockIdx_lt hb; omega)
  have hidx : ∀ m : Client W, m.blockIdx = c.blockIdx →
      (m.advance o).blockIdx = c.blockIdx + 1 := by
    intro m hm
    rcases advance_cases o m with ⟨-, h⟩ | ⟨heq, -, h⟩ | ⟨heq, -, h⟩ <;> rw [h] <;> dsimp only
    · rw [hm, hno]
    · rw [← heq, hm, hno]
    · rw [← heq, hm, hno]
  unfold compare
  split_ifs
  · exact hidx _ (prepareNextWriteBlock_keeps o _).blockIdx
  · exact hidx _ rfl

theorem Sends.content_step (ho : o.Hashes W D) (hS : c.Sends o D) {e : ClientEvent W}
    (hs : c.step o D e = some c') : c'.hasher.Content o.hashFile D := by
  rcases hasher_step hs with ⟨i, e', -, h⟩ | h
  · exact hS.content.workerStep ho.fits hS.owns.control (fun _ _ => rfl) h
  · exact hS.content.consumes h

/-- Each block that `recv` returns is compared in the same step. -/
theorem Sends.delivered_step (ho : o.Hashes W D) (hS : c.Sends o D) {e : ClientEvent W}
    (hs : c.step o D e = some c') : c'.blockIdx = c'.hasher.chan.delivered.length := by
  have hd := hS.delivered
  have hcancel : c.blockIdx = c.hasher.cancelRecv.chan.delivered.length := by
    rwa [delivered_cancelRecv]
  cases move_of_step hs with
  | tick => exact hcancel
  | write hrun hfree h =>
    rw [(write_keeps h).1, (write_keeps h).2]
    exact hd
  | read hrun hfree hdone h =>
    obtain ⟨-, ⟨rs, n, -, rfl⟩ | ⟨rs, hash, -, rfl⟩ | ⟨rs, err, -, rfl⟩⟩ := read_cases h
    · exact hd
    · exact hcancel
    · exact hcancel
  | recv hrun hover hne h =>
    obtain ⟨remoteHash, rest, g, r, -, hrec, hcases⟩ := recv_cases h
    have hdel := (recvStep_frame hrec).delivered
    rcases hcases with ⟨rfl, rfl⟩ | ⟨err, rfl, rfl⟩ | ⟨rfl, rfl⟩ | ⟨v, rfl, rfl⟩
    · simpa [hdel] using hd
    · simpa [hdel, RecvResult.blocks] using hd
    · simpa [hdel, RecvResult.blocks] using hd
    · obtain ⟨-, -, -, hlen⟩ := hS.received ho hrec
      rw [compare_blockIdx (c := { c with hasher := g, remoteHashes := rest }) ho.blockSize_pos
        (hS.counts.comparing hrun hover)]
      rcases compare_hasher o { c with hasher := g, remoteHashes := rest } v.2 remoteHash
        with hh | hh <;> rw [hh]
      · exact hlen.symm
      · exact hlen.symm
  | worker h =>
    dsimp only
    rw [(hS.owns.control.workerStep_frame h).delivered]
    exact hd
  | dropLocals hph =>
    dsimp only
    rw [(foldl_dropLoan_frame _ _).1]
    exact hd
  | closeHasher hph h =>
    dsimp only
    rw [(close_frame h).1.delivered]
    exact hd
  | join hph h =>
    dsimp only
    rw [(join_frame h).1.delivered]
    exact hd
  | finish hph h => exact hd

/-- The frame being written stays the one of its block, and is behind once the write ends,
complete or not. -/
theorem Frames.step_write (ho : o.Hashes W D) (hm : m ≤ divCeil D.length o.blockSize)
    (hrun : c.phase = .running) (hf : Frames o D m c) {r : Except String ℕ}
    (hs : c.write o r = some c') : Frames o D m c' := by
  obtain ⟨k, bytes, rest, w, hacc, hw, bytes', hpre, hcases, -⟩ := hf.write hs
  have hk := (hf.accepted (k, bytes) (by simp [hacc])).1
  have hacc' : ∀ x ∈ (k, bytes') :: rest, x.1 < m ∧ x.2 <+: frame o D x.1 := by
    intro x hx
    rcases List.mem_cons.mp hx with rfl | hx
    · exact ⟨hk, hpre⟩
    · exact hf.accepted x (by rw [hacc]; exact List.mem_cons_of_mem _ hx)
  have hbegun : ∀ l : List ℕ, ((k, bytes') :: rest).reverse.map Prod.fst ++ l =
      c.accepted.reverse.map Prod.fst ++ l := by
    intro l
    simp [hacc]
  rcases hcases with ⟨w', rfl, -, h1, h2, h3⟩ | ⟨w', rfl, -⟩
  · refine ⟨fun hph => ?_, hf.queue, hacc', ?_⟩
    · rw [hbegun]
      exact hf.begun hph
    · rintro w'' hw''
      obtain rfl := Option.some.inj hw''
      exact ⟨k, bytes', rest, rfl, h1, h2, h3⟩
  · have hmid : Frames o D m { c with accepted := (k, bytes') :: rest, writeBlock := none } :=
      ⟨fun hph => by rw [hbegun]; exact hf.begun hph, hf.queue, hacc', by simp⟩
    have hdone := frames_blockWritten (c := { c with accepted := (k, bytes') :: rest }) ho hm
      hrun hmid w'
    exact hdone.of_eq id rfl rfl rfl (.inl rfl)

theorem Sends.frames_step (ho : o.Hashes W D) (hS : c.Sends o D) {e : ClientEvent W}
    (hs : c.step o D e = some c') : Frames o D c'.blockIdx c' := by
  have hf := hS.frames
  cases move_of_step hs with
  | tick | worker h => exact hf.of_eq id rfl rfl rfl (.inl rfl)
  | write hrun hfree h =>
    rw [(write_keeps h).1]
    exact hf.step_write ho (hS.blockIdx_le ho) hrun h
  | read hrun hfree hdone h =>
    have hle := hS.counts.le_decoded
    obtain ⟨-, ⟨rs, n, -, rfl⟩ | ⟨rs, hash, -, rfl⟩ | ⟨rs, err, -, rfl⟩⟩ := read_cases h
    · exact hf.of_eq id rfl rfl rfl (.inl rfl)
    · exact hf.of_eq id rfl rfl (diverging_append hle hash) (.inl rfl)
    · exact hf.of_eq id rfl rfl rfl (.inl rfl)
  | recv hrun hover hne h =>
    obtain ⟨remoteHash, rest, g, r, hrem, hrec, hcases⟩ := recv_cases h
    rcases hcases with ⟨rfl, rfl⟩ | ⟨err, rfl, rfl⟩ | ⟨rfl, rfl⟩ | ⟨v, rfl, rfl⟩
    · exact hf.of_eq id rfl rfl rfl (.inl rfl)
    · exact hf.of_eq (fun _ => .inl hrun) rfl rfl rfl (.inl rfl)
    · exact hf.of_eq (fun _ => .inl hrun) rfl rfl rfl (.inl rfl)
    · obtain ⟨hlt, hhash, hdata, -⟩ := hS.received ho hrec
      rw [compare_blockIdx (c := { c with hasher := g, remoteHashes := rest }) ho.blockSize_pos
        (hS.counts.comparing hrun hover)]
      refine Frames.compare (c := { c with hasher := g, remoteHashes := rest }) ho hlt hrun ?_
        (hS.counts.popped hrem).1 hhash hdata
      exact hf.of_eq id rfl rfl rfl (.inl rfl)
  | dropLocals hph => exact ⟨by simp, by simp, hf.accepted, by simp⟩
  | closeHasher hph h | join hph h => exact hf.of_eq id rfl rfl rfl (.inl rfl)
  | finish hph h => exact hf.of_eq (by simp) rfl rfl rfl (.inl rfl)

/-- Every step of the client, whichever operations fail. -/
theorem Sends.step (ho : o.Hashes W D) (hS : c.Sends o D) {e : ClientEvent W}
    (hs : c.step o D e = some c') : c'.Sends o D where
  counts := hS.counts.step ho.blockSize_pos hs
  owns := hS.owns.step hs
  content := hS.content_step ho hs
  delivered := hS.delivered_step ho hs
  frames := hS.frames_step ho hs

/-! ## Leaving the loop -/

/-- No hash worker fails in this step. -/
def workersSucceed (_ : Client W) : ClientEvent W → Bool
  | .worker _ e => e.succeeds
  | _ => true

/-- The loop is left with everything compared, and with nothing left to send. -/
structure Finishes (o : NewProcess) (D : List UInt8) (c : Client W) : Prop where
  healthy : c.hasher.Healthy
  ended : ∀ r, c.phase.result = some r → r = .ok () ∧ c.hashComparisonOver = true ∧
    c.writeBlock = none ∧ c.blocksIdxToSend = [] ∧
    c.accepted.reverse.map Prod.fst = diverging o D c.decoded c.blockIdx

theorem finishes_new : (new o W).Finishes o D :=
  ⟨healthy_hashFile, by simp [new, ClientPhase.result]⟩

/-- A step of the loop in which no worker fails keeps the workers healthy. -/
theorem healthy_step (hS : c.Sends o D) (hh : c.hasher.Healthy) {e : ClientEvent W}
    (hok : c.workersSucceed e = true) (hs : c.step o D e = some c') : c'.hasher.Healthy := by
  rcases hasher_step hs with ⟨i, e', rfl, h⟩ | h
  · exact hh.workerStep hS.owns.control hS.content (fun _ _ => rfl) hok h
  · exact hh.consumes h

/-- The loop runs on, or is left with everything compared and no block in hand. -/
def OnOrOver (c : Client W) : Prop :=
  c.phase = .running ∨
    (c.phase = .leaving (.ok ()) ∧ c.hashComparisonOver = true ∧ c.writeBlock = none)

theorem OnOrOver.nextIteration (h : c.OnOrOver) : c.nextIteration.OnOrOver := h

theorem onOrOver_blockWritten (hrun : c.phase = .running) (w : ResumableWriteFileBlock (Fin W)) :
    (c.blockWritten o w).OnOrOver := by
  unfold blockWritten
  dsimp only
  split_ifs with hlast
  · exact .inr ⟨rfl, hlast.1, rfl⟩
  · exact .inl (by rw [(prepareNextWriteBlock_keeps o _).phase]; exact hrun)

theorem onOrOver_advance (hrun : c.phase = .running) : (c.advance o).OnOrOver := by
  rcases advance_cases o c with ⟨-, h⟩ | ⟨-, hw, h⟩ | ⟨-, -, h⟩ <;> rw [h]
  · exact .inl hrun
  · exact .inr ⟨rfl, rfl, hw⟩
  · exact .inl hrun

theorem onOrOver_compare (hrun : c.phase = .running) (d : FileBlockData (Fin W))
    (remoteHash : String) : (c.compare o d remoteHash).OnOrOver := by
  unfold compare
  split_ifs
  · exact onOrOver_advance (by rw [(prepareNextWriteBlock_keeps o _).phase]; exact hrun)
  · exact onOrOver_advance hrun

/-- When the loop is left so, all diverging blocks have been begun. -/
theorem OnOrOver.finishes (hS : c.Sends o D) (hh : c.hasher.Healthy) (hon : c.OnOrOver) :
    c.Finishes o D := by
  refine ⟨hh, fun r hr => ?_⟩
  rcases hon with hrun | ⟨hph, hover, hw⟩
  · simp [hrun, ClientPhase.result] at hr
  · rw [hph] at hr
    have hq := hS.counts.queued hw
    have hbegun := hS.frames.begun (.inr ⟨_, hph⟩)
    rw [hq, List.map_nil, List.append_nil] at hbegun
    exact ⟨(Option.some.inj hr).symm, hover, hw, hq, hbegun⟩

/-- When no worker fails, only a step with all blocks compared leaves the loop. -/
theorem Finishes.step (ho : o.Reads W D) (hS : c.Sends o D) (hF : c.Finishes o D)
    {e : ClientEvent W} (hok : c.workersSucceed e = true) (hs : c.step o D e = some c') :
    c'.Finishes o D := by
  have hS' := hS.step ho.hashes hs
  have hh := healthy_step hS hF.healthy hok hs
  cases move_of_step hs with
  | tick hrun hfree => exact OnOrOver.finishes hS' hh (.inl hrun)
  | write hrun hfree h =>
    obtain ⟨w, -, -, ⟨w', s, -, rfl⟩ | ⟨w', res, -, rfl⟩⟩ := write_cases h
    · exact OnOrOver.finishes hS' hh (.inl hrun)
    · refine OnOrOver.finishes hS' hh (onOrOver_blockWritten ?_ w').nextIteration
      exact hrun
  | read hrun hfree hdone h =>
    obtain ⟨-, ⟨rs, n, -, rfl⟩ | ⟨rs, hash, -, rfl⟩ | ⟨rs, err, -, rfl⟩⟩ := read_cases h <;>
      exact OnOrOver.finishes hS' hh (.inl hrun)
  | recv hrun hover hne h =>
    obtain ⟨remoteHash, rest, g, r, hrem, hrec, hcases⟩ := recv_cases h
    have hfr := recvStep_frame hrec
    rcases hcases with ⟨-, rfl⟩ | ⟨err, rfl, rfl⟩ | ⟨rfl, rfl⟩ | ⟨v, -, rfl⟩
    · exact OnOrOver.finishes hS' hh (.inl hrun)
    · exact absurd hF.healthy.error (hfr.failed err rfl)
    · -- the stream cannot end before the last block
      exfalso
      obtain rfl := hfr.ended rfl
      have hall := hS.owns.control.recvNone_complete ho.fits.workers_pos ho.blockSize_pos
        hF.healthy.error hrec
      have hlt := hS.counts.comparing hrun hover
      rw [hS.delivered, ho.endBlockIdx_eq] at hlt
      rw [ho.fits.size] at hall
      exact absurd hlt (Nat.not_lt.mpr hall)
    · refine OnOrOver.finishes hS' hh (onOrOver_compare ?_ _ _)
      exact hrun
  | worker h => exact ⟨hh, hF.ended⟩
  | dropLocals hph =>
    refine ⟨hh, fun r' hr' => ?_⟩
    obtain ⟨h1, h2, -, -, h5⟩ := hF.ended r' (by rw [hph]; exact hr')
    exact ⟨h1, h2, rfl, rfl, h5⟩
  | closeHasher hph h => exact ⟨hh, hF.ended⟩
  | join hph h => exact ⟨hh, hF.ended⟩
  | finish hph h => exact ⟨hh, fun r' hr' => hF.ended r' (by rw [hph]; exact hr')⟩

/-! ## The frames behind -/

/-- The frames that were begun and are not being written any more. -/
def finished (c : Client W) : List (ℕ × List UInt8) :=
  if c.writeBlock.isSome then c.accepted.tail else c.accepted

theorem finished_prepareNextWriteBlock (o : NewProcess) (c : Client W) :
    (c.prepareNextWriteBlock o).finished = c.finished := by
  rcases prepareNextWriteBlock_cases o c with ⟨h, -⟩ | ⟨idx, data, rest, h1, -, h⟩
  · rw [h]
  · rw [h]
    simp [finished, h1]

theorem finished_blockWritten (o : NewProcess) (c : Client W)
    (w : ResumableWriteFileBlock (Fin W)) : (c.blockWritten o w).finished = c.accepted := by
  unfold blockWritten
  dsimp only
  split_ifs
  · rfl
  · rw [finished_prepareNextWriteBlock]
    rfl

theorem finished_advance (o : NewProcess) (c : Client W) :
    (c.advance o).finished = c.finished := by
  rcases advance_cases o c with ⟨-, h⟩ | ⟨-, -, h⟩ | ⟨-, -, h⟩ <;> rw [h] <;> rfl

/-- A frame is finished by the write that completes it, or by one that fails. -/
theorem Sends.finished_step (hS : c.Sends o D) {e : ClientEvent W}
    (hdrop : e = .dropLocals → c.writeBlock = none) (hs : c.step o D e = some c') :
    (c'.finished = c.finished ∧ ∀ err, e ≠ .write (.error err)) ∨
      ∃ k bytes, c'.finished = (k, bytes) :: c.finished ∧
        (bytes = frame o D k ↔ ∀ err, e ≠ .write (.error err)) := by
  cases move_of_step hs with
  | @write r _ hrun hfree h =>
    obtain ⟨k, bytes, rest, w, hacc, hw, bytes', -, hcases, -⟩ := hS.frames.write h
    have hfin : c.finished = rest := by simp [finished, hw, hacc]
    rcases hcases with ⟨w', rfl, ⟨n, rfl⟩, -⟩ | ⟨w', rfl, -, hiff⟩
    · exact .inl ⟨by rw [hfin]; rfl, by simp⟩
    · -- the write was the last one of its frame
      refine .inr ⟨k, bytes', ?_, hiff.trans ?_⟩
      · change (Client.blockWritten o _ w').finished = _
        rw [finished_blockWritten, hfin]
      · constructor
        · rintro ⟨n, rfl⟩
          simp
        · intro hne
          cases r with
          | ok n => exact ⟨n, rfl⟩
          | error err => exact absurd rfl (hne err)
  | read hrun hfree hdone h =>
    left
    obtain ⟨-, ⟨rs, n, -, rfl⟩ | ⟨rs, hash, -, rfl⟩ | ⟨rs, err, -, rfl⟩⟩ := read_cases h <;>
      exact ⟨rfl, by simp⟩
  | recv hrun hover hne h =>
    left
    obtain ⟨remoteHash, rest, g, r, -, -, ⟨-, rfl⟩ | ⟨err, -, rfl⟩ | ⟨-, rfl⟩ | ⟨v, -, rfl⟩⟩ :=
      recv_cases h
    · exact ⟨rfl, by simp⟩
    · exact ⟨rfl, by simp⟩
    · exact ⟨rfl, by simp⟩
    · refine ⟨?_, by simp⟩
      unfold compare
      split_ifs
      · rw [finished_advance, finished_prepareNextWriteBlock]
        rfl
      · rw [finished_advance]
        rfl
  | dropLocals hph => exact .inl ⟨by simp [finished, hdrop rfl], by simp⟩
  | _ => exact .inl ⟨rfl, by simp⟩

/-- In a run without failures of the workers, nothing is being written at the end. -/
theorem Finishes.dropLocals (hF : c.Finishes o D) {e : ClientEvent W}
    (hs : c.step o D e = some c') (he : e = .dropLocals) : c.writeBlock = none := by
  subst he
  cases move_of_step hs with
  | dropLocals hph => exact (hF.ended _ (by rw [hph]; rfl)).2.2.1

/-! ## The bytes accepted -/

/-- The blocks whose frame was begun, oldest first. -/
def begun (c : Client W) : List ℕ := c.accepted.reverse.map Prod.fst

/-- All bytes that the socket accepted. -/
def sent (c : Client W) : List UInt8 := c.accepted.reverse.flatMap Prod.snd

/-- Frames may have been begun, of which nothing is accepted. -/
structure Begins (c c' : Client W) : Prop where
  sent : c'.sent = c.sent
  begun : c.begun <+: c'.begun

theorem begins_of_eq (h : c'.accepted = c.accepted) : Begins c c' := by
  refine ⟨?_, ?_⟩
  · rw [Client.sent, Client.sent, h]
  · rw [Client.begun, Client.begun, h]

theorem begins_prepareNextWriteBlock (o : NewProcess) (c : Client W) :
    Begins c (c.prepareNextWriteBlock o) := by
  rcases prepareNextWriteBlock_cases o c with ⟨h, -⟩ | ⟨idx, data, rest, -, -, h⟩
  · rw [h]
    exact begins_of_eq rfl
  · rw [h]
    exact ⟨by simp [sent], by simp [begun]⟩

theorem accepted_advance (o : NewProcess) (c : Client W) :
    (c.advance o).accepted = c.accepted := by
  rcases advance_cases o c with ⟨-, h⟩ | ⟨-, -, h⟩ | ⟨-, -, h⟩ <;> rw [h]

theorem Begins.trans {c₁ c₂ c₃ : Client W} (h : Begins c₁ c₂) (h' : Begins c₂ c₃) :
    Begins c₁ c₃ :=
  ⟨h'.sent.trans h.sent, h.begun.trans h'.begun⟩

theorem Begins.nextIteration (h : Begins c c') : Begins c c'.nextIteration :=
  h.trans (begins_of_eq rfl)

theorem begins_blockWritten (o : NewProcess) (c : Client W) (w : ResumableWriteFileBlock (Fin W)) :
    Begins c (c.blockWritten o w) := by
  unfold blockWritten
  dsimp only
  split_ifs
  · exact begins_of_eq rfl
  · refine Begins.trans ?_ (begins_prepareNextWriteBlock o _)
    exact begins_of_eq rfl

/-- A step that writes nothing. -/
theorem begins_step {e : ClientEvent W} (hs : c.step o D e = some c') (he : ∀ r, e ≠ .write r) :
    Begins c c' := by
  cases move_of_step hs with
  | write hrun hfree h => exact absurd rfl (he _)
  | read hrun hfree hdone h =>
    obtain ⟨-, ⟨rs, n, -, rfl⟩ | ⟨rs, hash, -, rfl⟩ | ⟨rs, err, -, rfl⟩⟩ := read_cases h <;>
      exact begins_of_eq rfl
  | recv hrun hover hne h =>
    obtain ⟨remoteHash, rest, g, r, -, -, ⟨-, rfl⟩ | ⟨err, -, rfl⟩ | ⟨-, rfl⟩ | ⟨v, -, rfl⟩⟩ :=
      recv_cases h
    · exact begins_of_eq rfl
    · exact begins_of_eq rfl
    · exact begins_of_eq rfl
    · unfold compare
      split_ifs
      · refine Begins.trans ?_ (begins_of_eq (accepted_advance o _))
        refine Begins.trans ?_ (begins_prepareNextWriteBlock o _)
        exact begins_of_eq rfl
      · exact begins_of_eq (accepted_advance o _)
  | _ => exact begins_of_eq rfl

/-- A write sends what the socket accepts of the bytes offered. -/
theorem Sends.sent_write (hS : c.Sends o D) {r : Except String ℕ}
    (hs : c.step o D (.write r) = some c') :
    c'.sent = c.sent ++ c.offered.take (bytesWritten r) ∧ c.begun <+: c'.begun := by
  cases move_of_step hs with
  | write hrun hfree h =>
    obtain ⟨k, bytes, rest, w, hacc, hw, bytes', -, hcases, hbytes⟩ := hS.frames.write h
    have hoff : c.offered = w.slice := by rw [offered, hw]
    have hsent : sent { c with accepted := (k, bytes') :: rest } =
        c.sent ++ c.offered.take (bytesWritten r) := by
      simp [sent, hacc, hoff, hbytes]
    have hbegun : begun { c with accepted := (k, bytes') :: rest } = c.begun := by
      simp [begun, hacc]
    rcases hcases with ⟨w', rfl, -⟩ | ⟨w', rfl, -⟩
    · exact ⟨hsent, by rw [← hbegun]; exact List.prefix_rfl⟩
    · have hb := (begins_blockWritten o { c with accepted := (k, bytes') :: rest } w').nextIteration
      exact ⟨hb.sent.trans hsent, by rw [← hbegun]; exact hb.begun⟩

/-- The bytes of frames that are whole. -/
theorem flatMap_of_whole {l : List (ℕ × List UInt8)} (hl : ∀ x ∈ l, x.2 = frame o D x.1) :
    l.reverse.flatMap Prod.snd = (l.reverse.map Prod.fst).flatMap (frame o D) := by
  rw [List.flatMap_map]
  exact List.flatMap_congr fun x hx => hl x (List.mem_reverse.mp hx)

/-- While the frames behind are whole, the bytes accepted begin the frames begun. -/
theorem Sends.sent_prefix (hS : c.Sends o D) (hfin : ∀ x ∈ c.finished, x.2 = frame o D x.1) :
    c.sent <+: c.begun.flatMap (frame o D) := by
  unfold finished at hfin
  split_ifs at hfin
  · cases hacc : c.accepted with
    | nil => simp [sent, hacc]
    | cons x rest =>
      rw [hacc, List.tail_cons] at hfin
      obtain ⟨t, ht⟩ := (hS.frames.accepted x (by simp [hacc])).2
      refine ⟨t, ?_⟩
      simp [sent, begun, hacc, flatMap_of_whole hfin, ht]
  · rw [sent, begun, flatMap_of_whole hfin]

/-! ## Success of the client -/

/-- At the end of a run, the frames are all complete if and only if no write failed. -/
theorem finished_iff (ho : o.Reads W D) {es : List (ClientEvent W)}
    (h : run (restrict workersSucceed (step o D)) (new o W) es = some c) :
    c.Sends o D ∧ c.Finishes o D ∧
      ((∀ x ∈ c.finished, x.2 = frame o D x.1) ↔ ∀ err, .write (.error err) ∉ es) := by
  refine run_induction (P := fun es c => c.Sends o D ∧ c.Finishes o D ∧
    ((∀ x ∈ c.finished, x.2 = frame o D x.1) ↔ ∀ err, .write (.error err) ∉ es)) ?_ ?_ h
  · exact ⟨sends_new ho.hashes ho.endBlockIdx_pos, finishes_new, by simp [new, finished]⟩
  · rintro es u e t - ⟨hS, hF, hiff⟩ ht
    obtain ⟨hok, ht⟩ := restrict_eq_some.mp ht
    refine ⟨hS.step ho.hashes ht, hF.step ho hS hok ht, ?_⟩
    rw [forall_not_mem_concat]
    rcases hS.finished_step (hF.dropLocals ht) ht with ⟨hfin, hne⟩ | ⟨k, bytes, hfin, hk⟩
    · rw [hfin, hiff]
      exact (and_iff_left hne).symm
    · rw [hfin, List.forall_mem_cons, hiff, and_comm]
      exact and_congr_right fun _ => hk

/-- With all diverging blocks begun, the frames are complete if and only if each of them
has been accepted. -/
theorem all_accepted_iff (hover : c.blockIdx = o.endBlockIdx)
    (hall : c.accepted.reverse.map Prod.fst = diverging o D c.decoded c.blockIdx) :
    (∀ k, k < o.endBlockIdx → c.decoded[k]? ≠ some (o.hash (block o.blockSize D k)) →
        (k, frame o D k) ∈ c.accepted) ↔ ∀ x ∈ c.accepted, x.2 = frame o D x.1 := by
  constructor
  · -- every block begun is one of the diverging ones, and appears once
    intro hframes x hx
    have hmem : x.1 ∈ diverging o D c.decoded c.blockIdx := by
      rw [← hall]
      exact List.mem_map.mpr ⟨x, List.mem_reverse.mpr hx, rfl⟩
    obtain ⟨hlt, hdiv⟩ := mem_diverging.mp hmem
    have hx' := hframes x.1 (by rw [← hover]; exact hlt) hdiv
    have hnodup : (c.accepted.reverse.map Prod.fst).Nodup := by
      rw [hall]
      exact nodup_diverging _
    exact congrArg Prod.snd (List.inj_on_of_nodup_map hnodup (List.mem_reverse.mpr hx)
      (List.mem_reverse.mpr hx') rfl)
  · intro hfull k hk hdiv
    have hmem : k ∈ c.accepted.reverse.map Prod.fst := by
      rw [hall]
      exact mem_diverging.mpr ⟨by rw [hover]; exact hk, hdiv⟩
    obtain ⟨⟨k', bytes⟩, hx, rfl⟩ := List.mem_map.mp hmem
    have hx' := List.mem_reverse.mp hx
    rwa [show bytes = frame o D k' from hfull _ hx'] at hx'

/-- Success of the client is sound exactly when no write failed, on a source of which the
counters do not wrap around.  In every run in which no hash worker fails and which ends with
`Ok(())`, whatever hashes were received: all blocks have been compared and the socket has
accepted the whole frame of every block that diverges, if and only if no write of the
run returned an error. -/
theorem success_sound_iff {bits : ℕ} (d : Digests) (alg : HashAlgorithm) {blockSize : ℕ}
    (hbits : 16 ≤ bits ∧ bits ≤ 64) (hb : 1 ≤ blockSize ∧ blockSize ≤ 2 ^ 30)
    (hW : 1 ≤ W ∧ W ≤ 255) (hne : D ≠ []) (hfit : OffsetsFit bits blockSize D.length W)
    {es : List (ClientEvent W)}
    (h : run (restrict workersSucceed (step (.onFile bits d alg blockSize D) D))
      (new (.onFile bits d alg blockSize D) W) es = some c)
    (hret : c.phase = .returned (.ok ())) :
    (c.blockIdx = divCeil D.length blockSize ∧ ∀ k, k < divCeil D.length blockSize →
      c.decoded[k]? ≠ some (hashData d (block blockSize D k) alg) →
        (k, blockFrame (k * blockSize, block blockSize D k)) ∈ c.accepted) ↔
      ∀ err, .write (.error err) ∉ es := by
  have ho := NewProcess.reads_onFile d alg hbits hb hW hne hfit
  obtain ⟨hS, hF, hiff⟩ := finished_iff ho h
  obtain ⟨-, hover, hw, -, hall⟩ := hF.ended (.ok ()) (by rw [hret]; rfl)
  have hfin : c.finished = c.accepted := by simp [finished, hw]
  have hidx := hS.counts.compared hover
  have hiff' := all_accepted_iff hidx hall
  rw [ho.endBlockIdx_eq] at hiff' hidx
  rw [← hiff, hfin, ← hiff']
  exact and_iff_right hidx

/-- A source of one byte whose hash differs from the remote one; `write` is what becomes of
its frame. -/
def oneBlockRun (write : List (ClientEvent 1)) : List (ClientEvent 1) :=
  [.read (.ok ((writeString "x").take 8)), .read (.ok ((writeString "x").drop 8)),
    .recv .enter, .recv .poll, .worker solo (.openFile (.ok ())),
    .worker solo (.seekStart (.ok ())), .worker solo .loopHead, .worker solo (.read 1),
    .worker solo .send, .worker solo .sendStep, .recv .take, .recv .finish] ++ write ++
  [.dropLocals, .closeHasher, .worker solo .reclaim, .worker solo (.seekNext (.ok ())),
    .worker solo .loopHead, .worker solo .exit, .join, .join, .finish]

theorem success_sound_iff_written :
    ∃ c, run (restrict workersSucceed (step (.onFile 64 crcDigests .crc32 1 [7]) [7]))
        (new (.onFile 64 crcDigests .crc32 1 [7]) 1)
        (oneBlockRun [.write (.ok 8), .write (.ok 1)]) = some c ∧
      c.decoded = ["x"] ∧ (0, blockFrame (0, [7])) ∈ c.accepted := by
  have hrun : (run (restrict workersSucceed
      (step (.onFile 64 crcDigests .crc32 1 [7]) [7]))
      (new (.onFile 64 crcDigests .crc32 1 [7]) 1)
      (oneBlockRun [.write (.ok 8), .write (.ok 1)])).map (fun c => (c.phase, c.decoded)) =
      some (.returned (.ok ()), ["x"]) := by rfl
  obtain ⟨c, hc, heq⟩ := Option.map_eq_some_iff.mp hrun
  simp only [Prod.mk.injEq] at heq
  refine ⟨c, hc, heq.2, ?_⟩
  have hsound := (success_sound_iff (D := [7]) (W := 1) crcDigests .crc32 (by decide) (by decide)
    (by decide) (by decide) (by decide) hc heq.1).mpr (by simp [oneBlockRun])
  exact hsound.2 0 (by decide) (by rw [heq.2]; decide)

/-- The only frame is lost with the first write of it, and the client reports success. -/
theorem success_unsound_of_write_error :
    ¬ ∀ (es : List (ClientEvent 1)) c,
      run (restrict workersSucceed (step (.onFile 64 crcDigests .crc32 1 [7]) [7]))
        (new (.onFile 64 crcDigests .crc32 1 [7]) 1) es = some c →
      c.phase = .returned (.ok ()) → c.blockIdx = 1 ∧ ∀ k, k < 1 →
        c.decoded[k]? ≠ some (hashData crcDigests (block 1 [7] k) .crc32) →
        (k, blockFrame (k * 1, block 1 [7] k)) ∈ c.accepted := by
  intro hall
  have hrun : (run (restrict workersSucceed
      (step (.onFile 64 crcDigests .crc32 1 [7]) [7]))
      (new (.onFile 64 crcDigests .crc32 1 [7]) 1)
      (oneBlockRun [.write (.error "broken pipe")])).map
        (fun c => (c.phase, c.decoded, c.accepted)) =
      some (.returned (.ok ()), ["x"], [(0, [])]) := by rfl
  obtain ⟨c, hc, heq⟩ := Option.map_eq_some_iff.mp hrun
  simp only [Prod.mk.injEq] at heq
  obtain ⟨hph, hdec, hacc⟩ := heq
  have hmem := (hall _ c hc hph).2 0 (by decide) (by rw [hdec]; decide)
  rw [hacc] at hmem
  revert hmem
  decide

end Client

end Deltasync
