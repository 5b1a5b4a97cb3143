import Deltasync.ClientSend
import Deltasync.RoundTrip

/-!
# A source whose size changes

`new_process` measures the source and sends its size; `hash_file` opens the file
again and measures it anew.  The first size tells the server how long each frame
is, the second one tells the workers.  The two lengths of a block differ when the
sizes do and the smaller one ends inside of the block.
-/

namespace Deltasync

open Blocks HashStream PrefixCode Transition

/-- A client that has sent `srcSize`, on a source with content `D` when `hash_file` opens it. -/
def NewProcess.onSizes (bits : ℕ) (d : Digests) (alg : HashAlgorithm) (blockSize srcSize : ℕ)
    (D : List UInt8) : NewProcess where
  bits := bits
  blockSize := blockSize
  srcSize := srcSize
  fileSize := usize bits D.length
  hash := fun data => hashData d data alg

theorem NewProcess.hashes_onSizes {bits : ℕ} (d : Digests) (alg : HashAlgorithm)
    {blockSize W srcSize : ℕ} {D : List UInt8} (hbits : 16 ≤ bits ∧ bits ≤ 64)
    (hb : 1 ≤ blockSize ∧ blockSize ≤ 2 ^ 30) (hW : 1 ≤ W ∧ W ≤ 255)
    (hfit : OffsetsFit bits blockSize D.length W) :
    (onSizes bits d alg blockSize srcSize D).Hashes W D where
  fits := fits_of_offsets _ hb hW hfit
  bits := hbits

/-! ## What a reader makes of a stream of frames -/

/-- The values that a reader has returned. -/
def Receiver.values {σ β γ : Type} (r : Receiver σ β γ) : List γ :=
  r.outcomes.filterMap (Option.map Prod.fst)

section Decoding

variable {bits : ℕ} {q : ResumableReadFileBlock} {inp : List UInt8}
  {blocks : List (ℕ × List UInt8)}

/-- A stream is cut into frames, as the reader reads them, and a rest that holds no whole one. -/
theorem decodeBlocks_cut (bits : ℕ) (q : ResumableReadFileBlock) (inp : List UInt8) :
    ∃ frames blocks rest, inp = frames.flatten ++ rest ∧
      List.Forall₂ (q.ReadsAs bits) frames blocks ∧ decodeBlock bits q rest = none ∧
      (decodeBlocks bits q inp).filterMap (Option.map Prod.fst) = blocks := by
  induction hn : inp.length using Nat.strongRecOn generalizing inp with
  | ind n ih =>
    rw [decodeBlocks_iterates bits q]
    cases hd : decodeBlock bits q inp with
    | none => exact ⟨[], [], inp, rfl, .nil, hd, rfl⟩
    | some x =>
      obtain ⟨b, rest⟩ := x
      obtain ⟨f, rfl, hf⟩ := decodeBlock_eq_some.mp hd
      have hlt : rest.length < n := by
        have h8 := hf.header
        rw [← hn, List.length_append]
        omega
      obtain ⟨frames, blocks, tail, rfl, hall, hnone, hcut⟩ := ih _ hlt rest rfl
      refine ⟨f :: frames, b :: blocks, tail, by simp, .cons hf hall, hnone, ?_⟩
      simp [hcut]

/-- A reader of the beginning of a stream of frames returns the first blocks of them, and at the
end of the stream every block of which it holds the whole frame. -/
theorem values_of_prefix (hacc : ∀ b ∈ blocks, q.ReadsAs bits (blockFrame b) b)
    (hinp : inp <+: blocks.flatMap blockFrame) {r : Receiver ResumableReadFileBlock (List UInt8)
      (ℕ × List UInt8)} {buf : List UInt8} {es : List (ReceiverEvent (List UInt8))}
    (hrun : run (Receiver.step (ResumableReadFileBlock.readOn bits))
      (.new (.new q.blockSize q.fileSize) buf inp) es = some r) :
    r.values <+: blocks ∧
      (r.call = .failed → ∀ m, m <+: blocks → m.flatMap blockFrame <+: inp → m <+: r.values) ∧
      ∃ es' r', run (Receiver.step (ResumableReadFileBlock.readOn bits)) r es' = some r' ∧
        r'.call = .failed := by
  obtain ⟨hout, hall, hend⟩ := Receiver.receives_run (ResumableReadFileBlock.readOn_spec bits q)
    (decodeBlocks_iterates bits q)
    (fun b => ⟨ResumableReadFileBlock.partial_new _ _ _ b, rfl, rfl⟩) hrun
  obtain ⟨frames, m, rest, rfl, hm, hnone, hcut⟩ := decodeBlocks_cut bits q inp
  have hcode := ResumableReadFileBlock.isPrefixCode_readsAs bits q
  refine ⟨?_, ?_, hend⟩
  · rw [List.flatMap_def] at hinp
    obtain ⟨-, m', -, rfl, -⟩ := hcode.exists_tail hm (forall₂_map_enc hacc) hinp
    refine List.IsPrefix.trans ?_ (List.prefix_append m m')
    rw [← hcut]
    exact hout.filterMap _
  · intro hfail m' hpre hframes
    rw [Receiver.values, hall hfail, hcut]
    -- a frame at the beginning of the rest would have been decoded
    have htail : ∀ f b x, q.ReadsAs bits f b → f ++ x ≠ rest := by
      intro f b x hf heq
      rw [decodeBlock_eq_some.mpr ⟨f, heq.symm, hf⟩] at hnone
      cases hnone
    rw [List.flatMap_def, ← List.append_nil (List.flatten _)] at hframes
    exact (hcode.prefix_of_append (forall₂_map_enc fun b hb => hacc b (hpre.mem hb)) hm htail
      hframes).2

end Decoding

namespace Client

variable {W : ℕ} {o : NewProcess} {D : List UInt8} {c c' u : Client W}
  {es : List (ClientEvent W)}

/-! ## The stream of the client -/

theorem running_of_step {e : ClientEvent W} (hs : c.step o D e = some c')
    (hrun : c'.phase = .running) : c.phase = .running ∧ e ≠ .dropLocals := by
  cases move_of_step hs with
  | tick h | write h | read h | recv h => exact ⟨h, by simp⟩
  | worker h => exact ⟨hrun, by simp⟩
  | dropLocals hph => cases hrun
  | closeHasher hph h => exact absurd (hph.symm.trans hrun) (by simp)
  | join hph h => exact absurd (hph.symm.trans hrun) (by simp)
  | finish hph h => cases hrun

/-- The frames behind are whole, and the bytes accepted begin the frames begun. -/
structure Unbroken (o : NewProcess) (D : List UInt8) (c : Client W) : Prop where
  behind : c.phase = .running → ∀ x ∈ c.finished, x.2 = frame o D x.1
  sent : c.sent <+: c.begun.flatMap (frame o D)

theorem Begins.sent_within (hb : Begins c c') (h : c.sent <+: c.begun.flatMap (frame o D)) :
    c'.sent <+: c'.begun.flatMap (frame o D) := by
  obtain ⟨t, ht⟩ := hb.begun
  rw [hb.sent, ← ht, List.flatMap_append]
  exact h.trans (List.prefix_append _ _)

theorem Unbroken.step (hS : c.Sends o D) (hS' : c'.Sends o D) (h : c.Unbroken o D)
    {e : ClientEvent W} (he : ∀ err, e ≠ .write (.error err)) (hs : c.step o D e = some c') :
    c'.Unbroken o D := by
  have hbehind : c.phase = .running → e ≠ .dropLocals → ∀ x ∈ c'.finished, x.2 = frame o D x.1 := by
    intro hrun hdrop
    rcases hS.finished_step (fun h => absurd h hdrop) hs with ⟨heq, -⟩ | ⟨k, bytes, heq, hk⟩
    · rw [heq]
      exact h.behind hrun
    · rw [heq]
      exact List.forall_mem_cons.mpr ⟨hk.mpr he, h.behind hrun⟩
  refine ⟨fun hrun => (running_of_step hs hrun).elim hbehind, ?_⟩
  by_cases hw : ∃ r, e = .write r
  · obtain ⟨r, rfl⟩ := hw
    cases move_of_step hs with
    | write hrun => exact Sends.sent_prefix hS' (hbehind hrun (by simp))
  · exact (begins_step hs fun r hr => hw ⟨r, hr⟩).sent_within h.sent

theorem sends_of_run (ho : o.Hashes W D) (hend : 0 < o.endBlockIdx)
    (h : run (step o D) (new o W) es = some c) : c.Sends o D :=
  run_invariant (fun _ _ _ hS hs => hS.step ho hs) (sends_new ho hend) h

theorem unbroken_of_run (ho : o.Hashes W D) (hend : 0 < o.endBlockIdx)
    (h : run (step o D) (new o W) es = some c) (hok : ∀ err, .write (.error err) ∉ es) :
    c.Unbroken o D := by
  refine run_induction (P := fun es c => (∀ err, .write (.error err) ∉ es) → c.Unbroken o D)
    (fun _ => ⟨by simp [new, finished], List.nil_prefix⟩) ?_ h hok
  intro es u e t hu ih ht hok
  obtain ⟨hes, he⟩ := forall_not_mem_concat.mp hok
  have hS := sends_of_run ho hend hu
  exact (ih hes).step hS (hS.step ho ht) he ht

/-- A connection on which a write has failed takes no more bytes. -/
def StaysBroken (es : List (ClientEvent W)) : Prop :=
  ∃ es₁ es₂, es = es₁ ++ es₂ ∧ (∀ err, .write (.error err) ∉ es₁) ∧ ∀ n, .write (.ok n) ∉ es₂

/-- Steps in which no write succeeds. -/
theorem begins_of_run (ho : o.Hashes W D) (hS : u.Sends o D)
    (h : run (step o D) u es = some c) (hok : ∀ n, .write (.ok n) ∉ es) : Begins u c := by
  have hind : c.Sends o D ∧ ((∀ n, .write (.ok n) ∉ es) → Begins u c) := by
    refine run_induction (P := fun es c => c.Sends o D ∧ ((∀ n, .write (.ok n) ∉ es) → Begins u c))
      ⟨hS, fun _ => begins_of_eq rfl⟩ ?_ h
    rintro es v e t - ⟨hv, ih⟩ ht
    refine ⟨hv.step ho ht, fun hok => ?_⟩
    obtain ⟨hes, he⟩ := forall_not_mem_concat.mp hok
    refine (ih hes).trans ?_
    by_cases hw : ∃ r, e = .write r
    · obtain ⟨⟨err⟩ | n, rfl⟩ := hw
      · obtain ⟨hsent, hbegun⟩ := hv.sent_write ht
        exact ⟨by simpa [bytesWritten] using hsent, hbegun⟩
      · exact absurd rfl (he n)
    · exact begins_step ht fun r hr => hw ⟨r, hr⟩
  exact hind.2 hok

theorem sent_prefix_of_run (ho : o.Hashes W D) (hend : 0 < o.endBlockIdx)
    (h : run (step o D) (new o W) es = some c) (hbroken : StaysBroken es) :
    c.sent <+: c.begun.flatMap (frame o D) := by
  obtain ⟨es₁, es₂, rfl, hok, herr⟩ := hbroken
  rw [run_append, Option.bind_eq_some_iff] at h
  obtain ⟨u, hu, hrun⟩ := h
  have hbegins := begins_of_run ho (sends_of_run ho hend hu) hrun herr
  exact hbegins.sent_within (unbroken_of_run ho hend hu hok).sent

/-! ## Two sizes -/

/-- A block that was compared lies in the file that was sent the size of, and in the one that is
hashed. -/
theorem Sends.offset_lt (ho : o.Hashes W D) (hsize : o.srcSize < 2 ^ o.bits) (hS : c.Sends o D)
    {k : ℕ} (hk : k < c.blockIdx) : k * o.blockSize < D.length ∧ k * o.blockSize < o.srcSize := by
  have h1 := hS.blockIdx_le ho
  have h2 := hS.counts.bounded
  rw [NewProcess.endBlockIdx_of_lt hsize] at h2
  rw [← lt_divCeil_iff ho.blockSize_pos, ← lt_divCeil_iff ho.blockSize_pos]
  omega

/-- The server expects the payload that the client sends for a block, unless the two sizes differ
and the smaller one ends inside of the block. -/
theorem Sends.length_eq_iff (ho : o.Hashes W D) (hsize : o.srcSize < 2 ^ o.bits) (hS : c.Sends o D)
    {k : ℕ} (hk : k < c.blockIdx) :
    (block o.blockSize D k).length = min o.blockSize (o.srcSize - k * o.blockSize) ↔
      o.srcSize = D.length ∨ o.blockSize ∣ min o.srcSize D.length ∨
        k + 1 ≠ divCeil (min o.srcSize D.length) o.blockSize := by
  obtain ⟨h1, h2⟩ := hS.offset_lt ho hsize hk
  rw [length_block]
  exact blockLength_eq_iff ho.blockSize_pos h1 h2

/-- Then a server with a `usize` of `bits` reads every frame that was begun as it was meant. -/
theorem Sends.readsAs (ho : o.Hashes W D) (hsize : o.srcSize < 2 ^ o.bits) (hS : c.Sends o D)
    (hcond : o.srcSize = D.length ∨ o.blockSize ∣ min o.srcSize D.length) {bits : ℕ}
    (hbits : bits ≤ 64) (hserver : o.srcSize < 2 ^ bits) {k : ℕ} (hk : k < c.blockIdx) :
    (ResumableReadFileBlock.new o.blockSize o.srcSize).ReadsAs bits
      (blockFrame (k * o.blockSize, block o.blockSize D k))
      (k * o.blockSize, block o.blockSize D k) := by
  obtain ⟨-, h2⟩ := hS.offset_lt ho hsize hk
  refine ResumableReadFileBlock.readsAs_blockFrame hbits (h2.trans hserver) ?_
  rw [ResumableReadFileBlock.currentBlockSize_eq (r := .new _ _) hserver h2.le]
  exact (hS.length_eq_iff ho hsize hk).mpr (hcond.imp_right .inl)

/-- Frames are as long as the server expects as far as the size that was sent and the one that
was hashed agree on them, both of which fit the widths of the two sides.  In every run, the
frame of block `k` holds the block `k` of the file that is hashed; its payload is what the
server expects unless the sizes differ and the smaller one ends inside of the block.  When they
are equal, or the smaller one ends with a block, a reader of the bytes accepted returns the
blocks sent and nothing else. -/
theorem frames_in_step_iff {clientBits serverBits : ℕ} (d : Digests) (alg : HashAlgorithm)
    {blockSize srcSize : ℕ} (hclient : 16 ≤ clientBits ∧ clientBits ≤ 64)
    (hserver : serverBits ≤ 64) (hb : 1 ≤ blockSize ∧ blockSize ≤ 2 ^ 30)
    (hW : 1 ≤ W ∧ W ≤ 255)
    (hsize : 0 < srcSize ∧ srcSize < 2 ^ clientBits ∧ srcSize < 2 ^ serverBits)
    (hfit : OffsetsFit clientBits blockSize D.length W)
    (h : run (step (.onSizes clientBits d alg blockSize srcSize D) D)
      (new (.onSizes clientBits d alg blockSize srcSize D) W) es = some c) :
    (∀ x ∈ c.accepted, x.2 <+: blockFrame (x.1 * blockSize, block blockSize D x.1) ∧
      ((block blockSize D x.1).length = min blockSize (srcSize - x.1 * blockSize) ↔
        srcSize = D.length ∨ blockSize ∣ min srcSize D.length ∨
          x.1 + 1 ≠ divCeil (min srcSize D.length) blockSize)) ∧
    (∀ w, c.writeBlock = some w → ∃ k bytes rest, c.accepted = (k, bytes) :: rest ∧
      bytes ++ w.remaining = blockFrame (k * blockSize, block blockSize D k)) ∧
    (srcSize = D.length ∨ blockSize ∣ min srcSize D.length → StaysBroken es →
      ∀ buf es' r, run (Receiver.step (ResumableReadFileBlock.readOn serverBits))
          (.new (.new blockSize srcSize) buf c.sent) es' = some r →
        let blocks := fun ks : List ℕ => ks.map fun k => (k * blockSize, block blockSize D k)
        r.values <+: blocks c.begun ∧
        (r.call = .failed → ∀ ks, ks <+: c.begun → (blocks ks).flatMap blockFrame <+: c.sent →
          blocks ks <+: r.values) ∧
        ∃ es'' r', run (Receiver.step (ResumableReadFileBlock.readOn serverBits)) r es'' =
            some r' ∧ r'.call = .failed) := by
  have ho : (NewProcess.onSizes clientBits d alg blockSize srcSize D).Hashes W D :=
    NewProcess.hashes_onSizes d alg hclient hb hW hfit
  have hend : 0 < (NewProcess.onSizes clientBits d alg blockSize srcSize D).endBlockIdx := by
    rw [NewProcess.endBlockIdx_of_lt hsize.2.1]
    exact divCeil_pos hb.1 hsize.1
  have hS := sends_of_run ho hend h
  refine ⟨?_, ?_, ?_⟩
  · intro x hx
    obtain ⟨hk, hpre⟩ := hS.frames.accepted x hx
    exact ⟨hpre, hS.length_eq_iff ho hsize.2.1 hk⟩
  · intro w hw
    obtain ⟨k, bytes, rest, hacc, -, -, hframe⟩ := hS.frames.writer w hw
    exact ⟨k, bytes, rest, hacc, hframe⟩
  · intro hcond hbroken buf es' r hr
    dsimp only
    have hall : ∀ b ∈ c.begun.map fun k => (k * blockSize, block blockSize D k),
        (ResumableReadFileBlock.new blockSize srcSize).ReadsAs serverBits (blockFrame b) b := by
      intro b hmem
      obtain ⟨k, hk, rfl⟩ := List.mem_map.mp hmem
      obtain ⟨x, hx, rfl⟩ := List.mem_map.mp hk
      exact hS.readsAs ho hsize.2.1 hcond hserver hsize.2.2
        (hS.frames.accepted x (List.mem_reverse.mp hx)).1
    have hsent := sent_prefix_of_run ho hend h hbroken
    obtain ⟨h1, h2, h3⟩ := values_of_prefix hall (by rwa [List.flatMap_map]) hr
    refine ⟨h1, fun hfail ks hks hframes => h2 hfail _ (hks.map _) hframes, h3⟩

/-- The first block, of `n` bytes, differs from the remote one, and its frame is written. -/
def firstBlockRun (n : ℕ) : List (ClientEvent 1) :=
  [.read (.ok ((writeString "x").take 8)), .read (.ok ((writeString "x").drop 8)),
    .recv .enter, .recv .poll, .worker solo (.openFile (.ok ())),
    .worker solo (.seekStart (.ok ())), .worker solo .loopHead, .worker solo (.read n),
    .worker solo .send, .worker solo .sendStep, .recv .take, .recv .finish,
    .write (.ok 8), .write (.ok n)]

/-- The source has grown by a byte, behind the only block. -/
theorem frames_in_step_iff_grown :
    ∃ c es r, run (step (.onSizes 64 crcDigests .crc32 2 2 [7, 8, 9]) [7, 8, 9])
        (new (.onSizes 64 crcDigests .crc32 2 2 [7, 8, 9]) 1) (firstBlockRun 2) = some c ∧
      c.sent = blockFrame (0, [7, 8]) ∧
      run (Receiver.step (ResumableReadFileBlock.readOn 64)) (.new (.new 2 2) [] c.sent) es =
        some r ∧
      r.values = [(0, [7, 8])] := by
  have hrun : (run (step (.onSizes 64 crcDigests .crc32 2 2 [7, 8, 9]) [7, 8, 9])
      (new (.onSizes 64 crcDigests .crc32 2 2 [7, 8, 9]) 1) (firstBlockRun 2)).map
      (fun c => (c.sent, c.begun)) = some (blockFrame (0, [7, 8]), [0]) := by decide +kernel
  obtain ⟨c, hc, heq⟩ := Option.map_eq_some_iff.mp hrun
  obtain ⟨hsent, hbegun⟩ := Prod.mk.inj heq
  have hreads := (frames_in_step_iff crcDigests .crc32 (by decide) le_rfl (by decide) (by decide)
    (by decide) (by decide) hc).2.2 (.inr (by decide))
      ⟨firstBlockRun 2, [], by simp, by simp [firstBlockRun], by simp⟩
  obtain ⟨-, -, es, r, hr, hfail⟩ := hreads [] [] _ rfl
  obtain ⟨hpre, hwhole, -⟩ := hreads [] es r hr
  have hall := hwhole hfail [0] (by rw [hbegun]) (by rw [hsent]; exact List.prefix_rfl)
  rw [hbegun] at hpre
  exact ⟨c, es, r, hc, hsent, hr, hpre.eq_of_length (Nat.le_antisymm hpre.length_le hall.length_le)⟩

/-- The source of two bytes has grown to eleven, in one block: nine bytes of its frame are a
frame of their own for the server. -/
theorem frame_out_of_step :
    ∃ c es r, run (step (.onSizes 64 crcDigests .crc32 11 2 [7, 8, 0, 0, 0, 0, 0, 0, 0, 1, 9])
          [7, 8, 0, 0, 0, 0, 0, 0, 0, 1, 9])
        (new (.onSizes 64 crcDigests .crc32 11 2 [7, 8, 0, 0, 0, 0, 0, 0, 0, 1, 9]) 1)
        (firstBlockRun 11) = some c ∧
      c.accepted = [(0, blockFrame (0, [7, 8, 0, 0, 0, 0, 0, 0, 0, 1, 9]))] ∧
      [7, 8, 0, 0, 0, 0, 0, 0, 0, 1, 9].length ≠ min 11 (2 - 0 * 11) ∧
      run (Receiver.step (ResumableReadFileBlock.readOn 64)) (.new (.new 11 2) [] c.sent) es =
        some r ∧
      r.values = [(0, [7, 8]), (1, [9])] := by
  have hrun : ((run (step (.onSizes 64 crcDigests .crc32 11 2 [7, 8, 0, 0, 0, 0, 0, 0, 0, 1, 9])
        [7, 8, 0, 0, 0, 0, 0, 0, 0, 1, 9])
      (new (.onSizes 64 crcDigests .crc32 11 2 [7, 8, 0, 0, 0, 0, 0, 0, 0, 1, 9]) 1)
      (firstBlockRun 11)).bind fun c =>
      (run (Receiver.step (ResumableReadFileBlock.readOn 64)) (.new (.new 11 2) [] c.sent)
        [.invoke, .ready 8, .ready 2, .invoke, .ready 8, .ready 1]).map fun r =>
        (c.accepted, r.values)) =
      some ([(0, blockFrame (0, [7, 8, 0, 0, 0, 0, 0, 0, 0, 1, 9]))], [(0, [7, 8]), (1, [9])]) := by
    decide +kernel
  obtain ⟨c, hc, hrest⟩ := Option.bind_eq_some_iff.mp hrun
  obtain ⟨r, hr, heq⟩ := Option.map_eq_some_iff.mp hrest
  obtain ⟨hacc, hvalues⟩ := Prod.mk.inj heq
  exact ⟨c, _, r, hc, hacc, by decide, hr, hvalues⟩

end Client

end Deltasync
