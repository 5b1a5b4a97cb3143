import Deltasync.Framing
import Deltasync.HashControl
import Deltasync.Client

/-!
# Sizes and offsets on machines of different width

Sizes are 64 bits wide on the wire and `usize` in memory: `src_size as usize`,
`i * block_size`, `offset += workers * block_size` and the offset of a block
drop what does not fit.  Let `n` be the number of blocks of the file.  The
largest number that appears is the offset with which a worker leaves its loop,
at most `(n + workers - 1) * block_size`, and the worker of the last block does
get there.
-/

namespace Deltasync

open BigEndian Blocks HashStream Transition

/-! ## The numbers of the code -/

/-- A client of width `bits` on a source of `size` bytes. -/
def NewProcess.onWidth (bits blockSize size : ℕ) (hash : List UInt8 → String) : NewProcess where
  bits := bits
  blockSize := blockSize
  srcSize := size
  fileSize := usize bits size
  hash := hash

/-- The offset of worker `i` after `j` turns of its loop. -/
def loopOffset (p : HashFile) (W i : ℕ) : ℕ → ℕ
  | 0 => usize p.bits (i * p.blockSize)
  | j + 1 => usize p.bits (loopOffset p W i j + usize p.bits (W * p.blockSize))

/-- The header that `ResumableWriteFileBlock::write_to` offers first for block `k`. -/
def sentHeader (o : NewProcess) (k : ℕ) : List UInt8 :=
  (ResumableWriteFileBlock.new (usize o.bits (k * o.blockSize)) (⟨[], ()⟩ : Loan Unit _)).slice

/-- What `ResumableReadFileBlock::read_on` makes of a header, on a machine of width `bits`. -/
def decodedOffset (bits blockSize fileSize : ℕ) (header : List UInt8) : ℕ :=
  match (ResumableReadFileBlock.new blockSize fileSize).poll bits [] (.ok header) with
  | (r, _, .io _) => r.offset
  | (_, _, .done (.ok offset)) => offset
  | (_, _, .done (.error _)) => 0

/-- Nothing is truncated or wraps around: on a client of width `bits` with `W` workers, and
on the way to a server of width `bits'`. -/
structure ExactBlocks (bits bits' blockSize size W : ℕ) (hash : List UInt8 → String) : Prop where
  fileSize : (NewProcess.onWidth bits blockSize size hash).hashFile.fileSize = size
  endBlockIdx : (NewProcess.onWidth bits blockSize size hash).endBlockIdx = divCeil size blockSize
  stride : size ≠ 0 → usize bits (W * blockSize) = W * blockSize ∧
    asI64 (usize bits ((W - 1) * blockSize)) = ((W - 1) * blockSize : ℕ)
  loop : ∀ i < W, ∀ j,
    (∀ j' < j, loopOffset (NewProcess.onWidth bits blockSize size hash).hashFile W i j' < size) →
    loopOffset (NewProcess.onWidth bits blockSize size hash).hashFile W i j =
      (i + j * W) * blockSize
  ends : ∀ i < W, ∃ j,
    size ≤ loopOffset (NewProcess.onWidth bits blockSize size hash).hashFile W i j
  header : ∀ k < divCeil size blockSize,
    decodedOffset bits' blockSize size
      (sentHeader (NewProcess.onWidth bits blockSize size hash) k) = k * blockSize

/-! ## The wire -/

theorem sentHeader_eq (o : NewProcess) (k : ℕ) :
    sentHeader o k = toBytes 8 (usize o.bits (k * o.blockSize)) := by
  simp [sentHeader, ResumableWriteFileBlock.slice, ResumableWriteFileBlock.enter,
    ResumableWriteFileBlock.new, ResumableWriteFileBlock.header, List.take_of_length_le]

theorem decodedOffset_eq (bits blockSize fileSize : ℕ) {header : List UInt8}
    (h : header.length = 8) :
    decodedOffset bits blockSize fileSize header = ofBytes bits header := by
  obtain ⟨b, bs, rfl⟩ : ∃ b bs, header = b :: bs :=
    List.exists_cons_of_ne_nil (by rintro rfl; simp at h)
  have hpatch : (patch 0 (resize (0 : UInt8) [] 8) 0 (b :: bs)).take 8 = b :: bs := by
    rw [patch_of_le (by omega), List.take_zero, List.nil_append,
      List.take_append_of_le_length (by omega), List.take_of_length_le (by omega)]
  have h8 : ¬ 0 + (b :: bs).length < 8 := by omega
  have hpoll : (ResumableReadFileBlock.new blockSize fileSize).poll bits [] (.ok (b :: bs)) =
      ResumableReadFileBlock.header bits
        { ResumableReadFileBlock.new blockSize fileSize with bufOffset := 0 + (b :: bs).length }
        (patch 0 (resize 0 [] 8) 0 (b :: bs)) := rfl
  rw [decodedOffset, hpoll, ResumableReadFileBlock.header, if_neg h8]
  dsimp only
  rw [hpatch, ResumableReadFileBlock.payload]
  split_ifs <;> rfl

theorem ofBytes_lt_width {w : ℕ} (hw : 8 ≤ w) (bytes : List UInt8) : ofBytes w bytes < 2 ^ w := by
  rcases List.eq_nil_or_concat bytes with rfl | ⟨rest, b, rfl⟩
  · simp [ofBytes]
  · have hb : b.toNat < 256 := UInt8.toNat_lt b
    obtain ⟨v, rfl⟩ := Nat.exists_eq_add_of_le' hw
    have hpow : (2 : ℕ) ^ (v + 8) = 2 ^ v * 256 := by rw [pow_add]; norm_num
    rw [List.concat_eq_append, ofBytes_concat, shiftIn, hpow, Nat.mul_mod_mul_right]
    have hlt : ofBytes (v + 8) rest % 2 ^ v < 2 ^ v := Nat.mod_lt _ (by positivity)
    calc ofBytes (v + 8) rest % 2 ^ v * 256 + b.toNat
        < (ofBytes (v + 8) rest % 2 ^ v + 1) * 256 := by omega
      _ ≤ 2 ^ v * 256 := Nat.mul_le_mul_right _ hlt

/-- An offset survives the way from one machine to another if it fits both. -/
theorem decodedOffset_sentHeader {o : NewProcess} {bits' blockSize fileSize k : ℕ}
    (hbits : o.bits ≤ 64) (hbits' : 8 ≤ bits') (h : k * o.blockSize < 2 ^ o.bits) :
    decodedOffset bits' blockSize fileSize (sentHeader o k) = k * o.blockSize ↔
      k * o.blockSize < 2 ^ bits' := by
  rw [sentHeader_eq, decodedOffset_eq _ _ _ (length_toBytes _ _), usize_of_lt h]
  constructor
  · intro heq
    rw [← heq]
    exact ofBytes_lt_width hbits' _
  · intro hlt
    refine ofBytes_toBytes (lt_of_lt_of_le h ?_) hlt
    exact (Nat.pow_le_pow_right (by norm_num) hbits).trans (by norm_num)

/-! ## The loop of a worker -/

theorem loopOffset_eq (p : HashFile) (W i j : ℕ) :
    loopOffset p W i j = usize p.bits ((i + j * W) * p.blockSize) := by
  induction j with
  | zero => rw [loopOffset, Nat.zero_mul, Nat.add_zero]
  | succ j ih =>
    rw [loopOffset, ih, usize_add, ← Nat.add_mul, Nat.succ_mul, Nat.add_assoc]

/-- In every run the counters of a worker are those of its loop, whether they fit or not. -/
theorem offset_eq_loopOffset {W : ℕ} {p : HashFile} {F : List UInt8} {es : List (HashEvent W)}
    {s : HashSystem W} (h : run (HashSystem.step p F) (.new p W) es = some s) (i : Fin W) :
    (s.stream.worker i).offset = loopOffset p W i ((s.stream.worker i).blockIdx / W) := by
  have hc : s.stream.Control p s.held :=
    run_invariant (I := fun s : HashSystem W => s.stream.Control p s.held)
      (fun _ _ _ h hs => HashSystem.control_step h hs) (control_hashFile p) h
  have hw := hc.worker i
  rw [hw.offset_eq, loopOffset_eq, ← hw.residue, Nat.mul_comm _ W, Nat.mod_add_div]

section Loop

variable {p : HashFile} {W i j size : ℕ}

/-- A worker that has not left its loop is at most `W` blocks behind the last one. -/
theorem loopIdx_lt (hb : 0 < p.blockSize) (hi : i < W)
    (hfit : (divCeil size p.blockSize + W - 1) * p.blockSize < 2 ^ p.bits)
    (hin : ∀ j' < j, loopOffset p W i j' < size) : (i + j * W) * p.blockSize < 2 ^ p.bits := by
  induction j with
  | zero => exact lt_of_le_of_lt (Nat.mul_le_mul_right _ (by omega)) hfit
  | succ j ih =>
    have hprev := ih fun j' hj' => hin j' (Nat.lt_succ_of_lt hj')
    have hlt := hin j (Nat.lt_succ_self j)
    rw [loopOffset_eq, usize_of_lt hprev, ← lt_divCeil_iff hb] at hlt
    refine lt_of_le_of_lt (Nat.mul_le_mul_right _ ?_) hfit
    rw [Nat.succ_mul]
    omega

theorem loopOffset_exact (hb : 0 < p.blockSize) (hi : i < W)
    (hfit : (divCeil size p.blockSize + W - 1) * p.blockSize < 2 ^ p.bits)
    (hin : ∀ j' < j, loopOffset p W i j' < size) :
    loopOffset p W i j = (i + j * W) * p.blockSize := by
  rw [loopOffset_eq, usize_of_lt (loopIdx_lt hb hi hfit hin)]

theorem loop_ends (hb : 0 < p.blockSize) (hi : i < W)
    (hfit : (divCeil size p.blockSize + W - 1) * p.blockSize < 2 ^ p.bits) :
    ∃ j, size ≤ loopOffset p W i j := by
  by_contra hcon
  push Not at hcon
  have hlast := hcon size
  rw [loopOffset_exact hb hi hfit fun j _ => hcon j] at hlast
  have h1 : size * 1 ≤ size * W := Nat.mul_le_mul_left _ (by omega)
  have h2 : (i + size * W) * 1 ≤ (i + size * W) * p.blockSize := Nat.mul_le_mul_left _ hb
  omega

/-- If no counter wraps around, the worker of the last block leaves its loop with a number
that fits. -/
theorem last_offset_lt (hb : 0 < p.blockSize) (hW : 0 < W)
    (hexact : ∀ i < W, ∀ j, (∀ j' < j, loopOffset p W i j' < size) →
      loopOffset p W i j = (i + j * W) * p.blockSize) :
    (divCeil size p.blockSize + W - 1) * p.blockSize < 2 ^ p.bits := by
  have hlt : ∀ i j, loopOffset p W i j < 2 ^ p.bits := fun i j => by
    rw [loopOffset_eq]
    exact Nat.mod_lt _ (by positivity)
  cases hn : divCeil size p.blockSize with
  | zero =>
    have h0 := hexact (W - 1) (by omega) 0 (by simp)
    have := hlt (W - 1) 0
    rw [h0] at this
    simpa using this
  | succ m =>
    -- the last block is `m`, of worker `m % W` in its turn `m / W`
    have hm : m * p.blockSize < size := by rw [← lt_divCeil_iff hb]; omega
    have hdiv : m % W + m / W * W = m := by rw [Nat.mul_comm]; exact Nat.mod_add_div m W
    have hin : ∀ j, j ≤ m / W → loopOffset p W (m % W) j < size := by
      intro j hj
      induction j using Nat.strongRecOn with
      | ind j ih =>
        rw [hexact _ (Nat.mod_lt m hW) j fun j' hj' => ih j' hj' (by omega)]
        refine lt_of_le_of_lt (Nat.mul_le_mul_right _ ?_) hm
        have := Nat.mul_le_mul_right W hj
        omega
    have hlast := hexact _ (Nat.mod_lt m hW) (m / W + 1) fun j hj => hin j (by omega)
    have hidx : m % W + (m / W + 1) * W = m + 1 + W - 1 := by
      rw [Nat.add_mul]
      omega
    rw [← hidx, ← hlast]
    exact hlt _ _

end Loop

section Exact

variable {bits bits' blockSize size W : ℕ} {hash : List UInt8 → String}

/-- The offset with which the last worker leaves its loop fits a `usize`, and the offset of the
last block fits that of the peer. -/
theorem ExactBlocks.fits (h64 : bits ≤ 64) (h8 : 8 ≤ bits') (hpos : 0 < blockSize) (hW : 0 < W)
    (hex : ExactBlocks bits bits' blockSize size W hash) :
    (divCeil size blockSize + W - 1) * blockSize < 2 ^ bits ∧
      (divCeil size blockSize - 1) * blockSize < 2 ^ bits' := by
  have hfit : (divCeil size blockSize + W - 1) * blockSize < 2 ^ bits :=
    last_offset_lt (p := (NewProcess.onWidth bits blockSize size hash).hashFile) hpos hW hex.loop
  refine ⟨hfit, ?_⟩
  cases hn : divCeil size blockSize with
  | zero => simp
  | succ m =>
    have hlt : m * blockSize < 2 ^ bits :=
      lt_of_le_of_lt (Nat.mul_le_mul_right _ (by omega)) hfit
    exact (decodedOffset_sentHeader (o := .onWidth bits blockSize size hash) h64 h8 hlt).mp
      (hex.header m (by omega))

theorem exactBlocks_of_fits (h64 : bits ≤ 64) (h8 : 8 ≤ bits')
    (hb : 1 ≤ blockSize ∧ blockSize ≤ 2 ^ 30) (hW : 1 ≤ W ∧ W ≤ 255)
    (hfit : (divCeil size blockSize + W - 1) * blockSize < 2 ^ bits)
    (hpeer : (divCeil size blockSize - 1) * blockSize < 2 ^ bits') :
    ExactBlocks bits bits' blockSize size W hash := by
  have hpos : 0 < blockSize := hb.1
  have hsz : size < 2 ^ bits := by
    refine lt_of_le_of_lt ?_ hfit
    rw [← divCeil_le_iff hpos]
    omega
  have hWb : W * blockSize ≤ 255 * 2 ^ 30 := Nat.mul_le_mul hW.2 hb.2
  have hWb' : (W - 1) * blockSize ≤ W * blockSize := Nat.mul_le_mul_right _ (by omega)
  refine ⟨usize_of_lt hsz, ?_, fun hne => ?_, ?_, ?_, ?_⟩
  · show divCeil (usize bits size) blockSize = _
    rw [usize_of_lt hsz]
  · have hn : 0 < divCeil size blockSize := divCeil_pos hpos (by omega)
    have hstride : W * blockSize < 2 ^ bits :=
      lt_of_le_of_lt (Nat.mul_le_mul_right _ (by omega)) hfit
    rw [usize_of_lt hstride, usize_of_lt (lt_of_le_of_lt hWb' hstride), asI64, if_pos (by omega)]
    exact ⟨rfl, rfl⟩
  · exact fun i hi j hin => loopOffset_exact
      (p := (NewProcess.onWidth bits blockSize size hash).hashFile) hpos hi hfit hin
  · exact fun i hi => loop_ends
      (p := (NewProcess.onWidth bits blockSize size hash).hashFile) hpos hi hfit
  · intro k hk
    have hlt : k * blockSize < 2 ^ bits :=
      lt_of_le_of_lt (Nat.mul_le_mul_right _ (by omega)) hfit
    refine (decodedOffset_sentHeader (o := .onWidth bits blockSize size hash) h64 h8 hlt).mpr ?_
    exact lt_of_le_of_lt (Nat.mul_le_mul_right _ (by omega)) hpeer

/-- The blocks of a file, and one more for each worker, reach little beyond it. -/
theorem last_offsets_le (size W : ℕ) (hpos : 0 < blockSize) :
    (divCeil size blockSize - 1) * blockSize ≤ size ∧
      (divCeil size blockSize + W - 1) * blockSize ≤ size + W * blockSize := by
  have hn : (divCeil size blockSize - 1) * blockSize ≤ size := by
    cases hd : divCeil size blockSize with
    | zero => simp
    | succ m => exact ((lt_divCeil_iff hpos).mp (by omega : m < divCeil size blockSize)).le
  have hsum : (divCeil size blockSize + W - 1) * blockSize ≤
      (divCeil size blockSize - 1) * blockSize + W * blockSize := by
    rw [← Nat.add_mul]
    exact Nat.mul_le_mul_right _ (by omega)
  exact ⟨hn, by omega⟩

end Exact

/-- Block arithmetic is exact if and only if the offset with which the last worker leaves
its loop fits a `usize`, and the offset of the last block fits that of the peer; and the
counters of every worker, in every run, are the ones that this is about. -/
theorem exact_iff_fits {bits bits' blockSize size W : ℕ} (hbits : bits = 32 ∨ bits = 64)
    (hbits' : bits' = 32 ∨ bits' = 64) (hsize : size < 2 ^ 62)
    (hb : 1 ≤ blockSize ∧ blockSize ≤ 2 ^ 30) (hW : 1 ≤ W ∧ W ≤ 255)
    (hash : List UInt8 → String) :
    (ExactBlocks bits bits' blockSize size W hash ↔
      (divCeil size blockSize + W - 1) * blockSize < 2 ^ bits ∧
        (divCeil size blockSize - 1) * blockSize < 2 ^ bits') ∧
    (bits = 64 → bits' = 64 → ExactBlocks bits bits' blockSize size W hash) ∧
    ∀ (F : List UInt8) (es : List (HashEvent W)) (s : HashSystem W),
      let p := (NewProcess.onWidth bits blockSize size hash).hashFile
      run (HashSystem.step p F) (.new p W) es = some s → ∀ i,
        (s.stream.worker i).offset = loopOffset p W i ((s.stream.worker i).blockIdx / W) := by
  have h64 : bits ≤ 64 := by omega
  have h8 : 8 ≤ bits' := by omega
  refine ⟨⟨fun hex => hex.fits h64 h8 hb.1 hW.1, fun h => exactBlocks_of_fits h64 h8 hb hW h.1 h.2⟩,
    fun h1 h2 => ?_, fun F es s hrun i => offset_eq_loopOffset hrun i⟩
  obtain ⟨hlast, hsum⟩ := last_offsets_le size W hb.1
  have hWb : W * blockSize ≤ 255 * 2 ^ 30 := Nat.mul_le_mul hW.2 hb.2
  refine exactBlocks_of_fits h64 h8 hb hW ?_ ?_
  · rw [h1]
    omega
  · rw [h2]
    omega

/-- A file of 5 bytes between a client of 32 bits and a server of 64. -/
theorem exact_iff_fits_small :
    ExactBlocks 32 64 2 5 3 (fun _ => "") :=
  (exact_iff_fits (.inl rfl) (.inr rfl) (by norm_num) (by norm_num) (by norm_num) _).1.mpr
    (by decide)

/-- On a machine of 32 bits a file of four gibibytes and a byte has one block. -/
theorem truncated_of_large_file : ¬ ExactBlocks 32 64 (2 ^ 20) (2 ^ 32 + 1) 1 (fun _ => "") := by
  intro h
  have hend := h.endBlockIdx
  revert hend
  decide

end Deltasync
