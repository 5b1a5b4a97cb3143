import Deltasync.HashEnd
import Deltasync.Framing

/-!
# What the hash workers read

`D` is the content that the stream hashes.  The file itself may change while the
workers run, as the server's destination does: a worker needs only that the
blocks not yet placed on the channel still hold what `D` has there.

The position of a worker's descriptor is kept by relative seeks; that it agrees
with the counter `offset` at the head of the loop rests on the short block being
the last one.
-/

namespace Deltasync

open Blocks

/-- No file operation fails in this step of a worker. -/
def WorkerEvent.succeeds : WorkerEvent → Bool
  | .openFile (.error _) | .seekStart (.error _) | .seekNext (.error _) | .readFails _ => false
  | _ => true

/-- On a file of `size` bytes no counter of `W` workers wraps around: the largest one is the
offset with which the last of them leaves its loop. -/
def OffsetsFit (bits blockSize size W : ℕ) : Prop :=
  (divCeil size blockSize + W - 1) * blockSize < 2 ^ bits

instance (bits blockSize size W : ℕ) : Decidable (OffsetsFit bits blockSize size W) :=
  inferInstanceAs (Decidable (_ < _))

namespace OffsetsFit

variable {bits blockSize size W : ℕ}

/-- The counters of the blocks of the file, and of one more for each worker. -/
theorem mul_lt (h : OffsetsFit bits blockSize size W) (hb : 0 < blockSize) {k : ℕ}
    (hk : k * blockSize < size + W * blockSize) : k * blockSize < 2 ^ bits := by
  rw [← lt_divCeil_iff hb, divCeil_add_mul hb] at hk
  exact lt_of_le_of_lt (Nat.mul_le_mul_right _ (by omega)) h

theorem size_lt (h : OffsetsFit bits blockSize size W) (hb : 0 < blockSize) (hW : 0 < W) :
    size < 2 ^ bits := by
  refine lt_of_le_of_lt ?_ h
  rw [← divCeil_le_iff hb]
  omega

/-- The stride of a worker over the blocks of the other ones. -/
theorem stride_lt (h : OffsetsFit bits blockSize size W) : (W - 1) * blockSize < 2 ^ bits :=
  lt_of_le_of_lt (Nat.mul_le_mul_right _ (by omega)) h

theorem of_le (hb : 0 < blockSize) (h : size + W * blockSize ≤ 2 ^ bits) :
    OffsetsFit bits blockSize size W := by
  rcases Nat.eq_zero_or_pos (divCeil size blockSize + W) with h0 | hpos
  · rw [OffsetsFit, h0, Nat.zero_sub, Nat.zero_mul]
    positivity
  · refine lt_of_lt_of_le ?_ h
    rw [← lt_divCeil_iff hb, divCeil_add_mul hb]
    omega

/-- With 64 bits every file is of such a size. -/
theorem sixtyFour (hb : 1 ≤ blockSize ∧ blockSize ≤ 2 ^ 30) (hW : 1 ≤ W ∧ W ≤ 255)
    (hsize : size < 2 ^ 63) : OffsetsFit 64 blockSize size W := by
  have hWb : W * blockSize ≤ 255 * 2 ^ 30 := Nat.mul_le_mul hW.2 hb.2
  exact of_le hb.1 (by omega)

end OffsetsFit

namespace HashStream

variable {W : ℕ}

/-- The sizes for which the counters of the workers do not wrap around. -/
structure Fits (p : HashFile) (W : ℕ) (D : List UInt8) : Prop where
  size : p.fileSize = D.length
  workers_pos : 0 < W
  blockSize_pos : 0 < p.blockSize
  offsets : OffsetsFit p.bits p.blockSize D.length W
  seeks : usize p.bits ((W - 1) * p.blockSize) < 2 ^ 63

/-- Where a worker stands in its block. -/
structure Progress (p : HashFile) (W : ℕ) (D : List UInt8) (w : Worker) : Prop where
  bound : w.blockIdx * p.blockSize < D.length + W * p.blockSize
  head : w.pc = .head → w.blockIdx * p.blockSize < D.length →
    w.cursor = w.blockIdx * p.blockSize
  reading : w.pc = .reading → w.buffer.length = (block p.blockSize D w.blockIdx).length ∧
    w.filled ≤ w.buffer.length ∧ w.cursor = w.blockIdx * p.blockSize + w.filled ∧
    w.buffer.take w.filled = (block p.blockSize D w.blockIdx).take w.filled
  after : w.pc = .sending ∨ w.pc = .reclaiming ∨ w.pc = .seekingNext →
    w.cursor = w.blockIdx * p.blockSize + (block p.blockSize D w.blockIdx).length

structure Content (p : HashFile) (D : List UInt8) (h : HashStream W) : Prop where
  worker : ∀ i, Progress p W D (h.worker i)
  calls : ∀ idx v, (idx, v) ∈ h.chan.calls → idx * p.blockSize < D.length ∧
    v.2.hash = p.hash (block p.blockSize D idx) ∧ v.2.data.value = block p.blockSize D idx

/-- No worker has failed. -/
structure Healthy (h : HashStream W) : Prop where
  worker : ∀ i, (h.worker i).pc ≠ .closing ∧ ∀ msg, (h.worker i).pc ≠ .failed msg
  error : h.error = none

/-- The sizes of every call on a real file are of this kind: `workers` is a `u8`. -/
theorem fits_onFile (d : Digests) (alg : HashAlgorithm) {blockSize : ℕ} {F : List UInt8}
    (hb : 1 ≤ blockSize) (hW : 1 ≤ W ∧ W ≤ 255) (hF : F.length + 255 * blockSize ≤ 2 ^ 64)
    (hs : 255 * blockSize < 2 ^ 63) : Fits (.onFile d alg blockSize F) W F := by
  have hWb : W * blockSize ≤ 255 * blockSize := Nat.mul_le_mul_right _ hW.2
  have hWb' : (W - 1) * blockSize ≤ 255 * blockSize := Nat.mul_le_mul_right _ (by omega)
  refine ⟨rfl, hW.1, hb, .of_le hb ?_, lt_of_le_of_lt (Nat.mod_le _ _) ?_⟩ <;>
    simp only [HashFile.onFile] <;> omega

/-- So are those for which the counters do not wrap around, with a `usize` of any width. -/
theorem fits_of_offsets {bits blockSize : ℕ} (hash : List UInt8 → String) {F : List UInt8}
    (hb : 1 ≤ blockSize ∧ blockSize ≤ 2 ^ 30) (hW : 1 ≤ W ∧ W ≤ 255)
    (hfit : OffsetsFit bits blockSize F.length W) :
    Fits ⟨bits, blockSize, usize bits F.length, hash⟩ W F where
  size := usize_of_lt (hfit.size_lt hb.1 hW.1)
  workers_pos := hW.1
  blockSize_pos := hb.1
  offsets := hfit
  seeks := by
    have hle : (W - 1) * blockSize ≤ 254 * 2 ^ 30 := Nat.mul_le_mul (by omega) hb.2
    exact lt_of_le_of_lt ((Nat.mod_le _ _).trans hle) (by norm_num)

variable {p : HashFile} {D F : List UInt8} {h h' : HashStream W}
  {held : List (Loan (Fin W) (List UInt8))}

theorem content_hashFile (hb : 0 < p.blockSize) : (hashFile p W).Content p D where
  worker i := by
    refine ⟨?_, by simp [hashFile], by simp [hashFile], by simp [hashFile]⟩
    have := Nat.mul_lt_mul_of_pos_right i.isLt hb
    simp only [hashFile]
    omega
  calls := by simp [hashFile, OrderedChannel.new]

theorem healthy_hashFile : (hashFile p W).Healthy := ⟨by simp [hashFile], rfl⟩

theorem progress_update {f : Fin W → Worker} (hf : ∀ j, Progress p W D (f j)) {i : Fin W}
    {w : Worker} (hw : Progress p W D w) (j : Fin W) :
    Progress p W D (Function.update f i w j) := by
  by_cases hj : j = i
  · subst hj
    rwa [Function.update_self]
  · rw [Function.update_of_ne hj]
    exact hf j

theorem Content.setWorker (hC : h.Content p D) {i : Fin W} {w : Worker}
    (hw : Progress p W D w) : (h.setWorker i w).Content p D :=
  { hC with worker := progress_update hC.worker hw }

/-- Nothing in `Content` is about the channel but its calls. -/
theorem Content.of_eq (hC : h.Content p D) (hw : h'.worker = h.worker)
    (hcalls : h'.chan.calls = h.chan.calls) : h'.Content p D where
  worker i := by rw [hw]; exact hC.worker i
  calls := by rw [hcalls]; exact hC.calls

theorem Healthy.of_eq (hh : h.Healthy) (hw : ∀ i, (h'.worker i).pc = (h.worker i).pc)
    (he : h'.error = h.error) : h'.Healthy where
  worker i := by rw [hw]; exact hh.worker i
  error := by rw [he]; exact hh.error

theorem dropLoan_pc (h : HashStream W) (l : Loan (Fin W) (List UInt8)) (i : Fin W) :
    ((h.dropLoan l).worker i).pc = (h.worker i).pc := by
  simp only [dropLoan, setWorker, Function.update_apply]
  split_ifs with hi
  · rw [hi]
  · rfl

theorem Content.recvStep (hC : h.Content p D) {e : RecvEvent} {r : Option (RecvResult W)}
    (hs : h.recvStep e = some (h', r)) : h'.Content p D :=
  have hf := recvStep_frame hs
  hC.of_eq hf.worker hf.calls

theorem Content.dropLoan (hC : h.Content p D) (l : Loan (Fin W) (List UInt8)) :
    (h.dropLoan l).Content p D :=
  have hw := hC.worker l.tx
  hC.setWorker ⟨hw.bound, hw.head, hw.reading, hw.after⟩

theorem Healthy.dropLoan (hh : h.Healthy) (l : Loan (Fin W) (List UInt8)) :
    (h.dropLoan l).Healthy := hh.of_eq (dropLoan_pc h l) rfl

/-- Only the workers themselves change what they do. -/
theorem Content.consumes (hC : h.Content p D) (hg : h.Consumes h') : h'.Content p D := by
  induction hg with
  | refl => exact hC
  | @cancelRecv g _ ih =>
    have hf := cancelRecv_frame g
    exact ih.of_eq hf.worker hf.calls
  | dropLoan _ l ih => exact ih.dropLoan l
  | recvStep _ hs ih => exact ih.recvStep hs
  | close _ hs ih =>
    have hf := (close_frame hs).1
    exact ih.of_eq hf.worker hf.calls
  | join _ hs ih =>
    have hf := (join_frame hs).1
    exact ih.of_eq hf.worker hf.calls

theorem Healthy.consumes (hh : h.Healthy) (hg : h.Consumes h') : h'.Healthy := by
  induction hg with
  | refl => exact hh
  | @cancelRecv g _ ih =>
    have hf := cancelRecv_frame g
    exact ih.of_eq (fun _ => by rw [hf.worker]) hf.error
  | dropLoan _ l ih => exact ih.dropLoan l
  | recvStep _ hs ih =>
    have hf := recvStep_frame hs
    exact ih.of_eq (fun _ => by rw [hf.worker]) hf.error
  | close _ hs ih =>
    have hf := (close_frame hs).1
    exact ih.of_eq (fun _ => by rw [hf.worker]) hf.error
  | join _ hs ih =>
    have hf := (join_frame hs).1
    exact ih.of_eq (fun _ => by rw [hf.worker]) hf.error

/-! ## Reading a block -/

/-- A read of `read_exact` inside the block `B` of the file that starts at `off`. -/
theorem readSome_block {B : List UInt8} {w : Worker} {n off : ℕ}
    (hB : B <+: F.drop off) (hcur : w.cursor = off + w.filled)
    (hlen : w.buffer.length = B.length) (hlt : w.filled < w.buffer.length) (hn : 0 < n)
    (htake : w.buffer.take w.filled = B.take w.filled) :
    ∃ m b, readSome F w n = { w with buffer := b, filled := w.filled + m, cursor := w.cursor + m } ∧
      b.length = B.length ∧ w.filled + m ≤ B.length ∧
      b.take (w.filled + m) = B.take (w.filled + m) := by
  have hlenB := hB.length_le
  rw [List.length_drop] at hlenB
  obtain ⟨m, hm⟩ : ∃ m, min n (w.buffer.length - w.filled) = m := ⟨_, rfl⟩
  have hchunk : (F.drop w.cursor).take m = (B.drop w.filled).take m := by
    obtain ⟨t, ht⟩ := hB
    rw [hcur, ← List.drop_drop, ← ht, List.drop_append_of_le_length (by omega),
      List.take_append_of_le_length (by rw [List.length_drop]; omega)]
  have hclen : ((F.drop w.cursor).take m).length = m := by
    rw [hchunk, List.length_take, List.length_drop]
    omega
  refine ⟨m, patch 0 w.buffer w.filled ((F.drop w.cursor).take m), ?_, ?_, by omega, ?_⟩
  · unfold readSome
    rw [hm]
    split
    · next hnil =>
      rw [hnil] at hclen
      simp only [List.length_nil] at hclen
      omega
    · next b bs hcons => rw [hcons] at hclen; rw [hcons, hclen]
  · rw [length_patch (by rw [hclen]; omega), hlen]
  · have hle : w.filled ≤ w.buffer.length := by omega
    have := take_patch (d := 0) (x := (F.drop w.cursor).take m) hle
    rw [hclen] at this
    rw [this, htake, hchunk, List.take_add]

/-- The counter `offset` is the position of the block, without wrapping around. -/
theorem Progress.offset_eq {w : Worker} (hfit : Fits p W D) (hp : Progress p W D w)
    (ho : w.offset = usize p.bits (w.blockIdx * p.blockSize)) :
    w.offset = w.blockIdx * p.blockSize := by
  rw [ho, usize_of_lt (hfit.offsets.mul_lt hfit.blockSize_pos hp.bound)]

/-- `resize` gives the buffer the length of the block. -/
theorem currentBlockSize_eq {w : Worker} (hfit : Fits p W D)
    (ho : w.offset = w.blockIdx * p.blockSize) :
    currentBlockSize p w = (block p.blockSize D w.blockIdx).length := by
  simp only [currentBlockSize, hfit.size, ho, length_block]
  split_ifs <;> omega

/-- The seek to the next block ends where the counters say. -/
theorem Progress.nextBlock {w w' : Worker} (hfit : Fits p W D) (hp : Progress p W D w)
    (hpc : w.pc = .seekingNext) (hin : w.blockIdx * p.blockSize < D.length)
    (hs : HashStream.nextBlock p W w = some w') : Progress p W D w' := by
  simp only [HashStream.nextBlock, Option.ite_none_right_eq_some, Option.some.injEq] at hs
  obtain ⟨-, rfl⟩ := hs
  have hWb : W * p.blockSize = (W - 1) * p.blockSize + p.blockSize := by
    rw [← Nat.succ_mul, Nat.succ_eq_add_one, Nat.sub_add_cancel hfit.workers_pos]
  have hseek : usize p.bits ((W - 1) * p.blockSize) = (W - 1) * p.blockSize :=
    usize_of_lt hfit.offsets.stride_lt
  have hlt := hfit.seeks
  have hcur := hp.after (.inr (.inr hpc))
  refine ⟨?_, fun _ hin' => ?_, by simp, by simp⟩
  · simp only [Nat.add_mul]
    omega
  · -- there is a next block only after a full one
    simp only [Nat.add_mul] at hin' ⊢
    simp only [length_block] at hcur
    rw [asI64, if_pos hlt, hseek, hcur]
    omega

/-- Every read of a worker makes progress in its block. -/
theorem readSome_progress {i : Fin W} {w : Worker} {err : Bool} {out : List (Fin W)}
    (hw : WorkerOk p h.chan err out i w) (hp : Progress p W D w)
    (hblk : ∀ k, h.chan.placed.length ≤ k → block p.blockSize F k = block p.blockSize D k)
    (hpc : w.pc = .reading) (hlt : w.filled < w.buffer.length) {n : ℕ} (hn : 0 < n) :
    ∃ m b, readSome F w n = { w with buffer := b, filled := w.filled + m, cursor := w.cursor + m } ∧
      b.length = (block p.blockSize D w.blockIdx).length ∧ w.filled + m ≤ b.length ∧
      w.cursor + m = w.blockIdx * p.blockSize + (w.filled + m) ∧
      b.take (w.filled + m) = (block p.blockSize D w.blockIdx).take (w.filled + m) := by
  obtain ⟨h1, h2, h3, h4⟩ := hp.reading hpc
  have hwin := (hw.window (by rw [hpc]; rfl)).1
  simp only [Worker.nextIdx, hpc] at hwin
  have hpre : block p.blockSize D w.blockIdx <+: F.drop (w.blockIdx * p.blockSize) := by
    -- the block is not placed yet, hence it is still the one of `D`
    rw [← hblk _ hwin]
    exact List.take_prefix _ _
  obtain ⟨m, b, heq, hb1, hb2, hb3⟩ := readSome_block hpre h3 h1 hlt hn h4
  exact ⟨m, b, heq, hb1, by omega, by omega, hb3⟩

theorem Content.workerStep (hfit : Fits p W D) (hc : h.Control p held) (hC : h.Content p D)
    (hblk : ∀ k, h.chan.placed.length ≤ k → block p.blockSize F k = block p.blockSize D k)
    {i : Fin W} {e : WorkerEvent} (hs : h.workerStep p F i e = some h') : h'.Content p D := by
  have hw := hc.worker i
  have hp := hC.worker i
  have hoff := hp.offset_eq hfit hw.offset_eq
  cases workerMove_of_step hs with
  | openOk | openError | seekError | leaveLoop | readFails | seekNextError =>
    exact hC.setWorker ⟨hp.bound, by simp, by simp, by simp⟩
  | seekOk => exact hC.setWorker ⟨hp.bound, fun _ _ => hoff, by simp, by simp⟩
  | enterBlock hpc hlt herr =>
    refine hC.setWorker ⟨hp.bound, by simp, fun _ => ⟨?_, by simp, ?_, by simp⟩, by simp⟩
    · rw [length_resize, currentBlockSize_eq hfit hoff]
    · rw [Nat.add_zero]
      exact hp.head hpc (by rw [← hoff, ← hfit.size]; exact hlt)
  | read hpc hn hlt =>
    obtain ⟨m, b, heq, hread⟩ := readSome_progress hw hp hblk hpc hlt hn
    rw [heq]
    exact hC.setWorker ⟨hp.bound, by simp [hpc], fun _ => hread, by simp [hpc]⟩
  | send hpc hfull hcs =>
    simp only [OrderedChannel.callSend, Option.ite_none_right_eq_some, Option.some.injEq] at hcs
    obtain ⟨-, rfl⟩ := hcs
    obtain ⟨h1, h2, h3, h4⟩ := hp.reading hpc
    have hin := hw.inBlock (by rw [hpc]; rfl)
    -- the buffer is full, hence it is the block
    have hbuf : (h.worker i).buffer = block p.blockSize D (h.worker i).blockIdx := by
      rwa [hfull, List.take_of_length_le le_rfl, List.take_of_length_le h1.ge] at h4
    refine ⟨progress_update hC.worker ⟨hp.bound, by simp, by simp, fun _ => ?_⟩, ?_⟩
    · rw [h3, hfull, h1]
    · intro idx v hmem
      rcases List.mem_append.mp hmem with hmem | hmem
      · exact hC.calls idx v hmem
      · obtain ⟨rfl, rfl⟩ : idx = (h.worker i).blockIdx ∧ v = blockData p i (h.worker i) := by
          simpa using hmem
        rw [hoff, hfit.size] at hin
        exact ⟨hin, congrArg p.hash hbuf, hbuf⟩
  | sendStep hpc hcs =>
    have hafter := hp.after (.inl hpc)
    obtain ⟨idx, v, hi, ⟨-, rfl, rfl⟩ | ⟨hcl, hw, rfl, rfl⟩ | ⟨-, -, rfl, rfl⟩⟩ :=
      hc.chan.sendStep_cases hcs
    · exact ⟨progress_update hC.worker ⟨hp.bound, by simp, by simp, by simp⟩, hC.calls⟩
    · exact ⟨progress_update hC.worker ⟨hp.bound, by simp, by simp, fun _ => hafter⟩,
        hC.calls⟩
    · exact hC.of_eq rfl rfl
  | wake => exact hC.of_eq rfl rfl
  | reclaim hpc hb =>
    exact hC.setWorker ⟨hp.bound, by simp, by simp, fun _ => hp.after (.inr (.inl hpc))⟩
  | nextBlock hpc hn =>
    have hin := hw.inBlock (by rw [hpc]; rfl)
    rw [hoff, hfit.size] at hin
    exact hC.setWorker (hp.nextBlock hfit hpc hin hn)
  | publish =>
    exact ⟨progress_update hC.worker ⟨hp.bound, by simp, by simp, by simp⟩, hC.calls⟩
  | closeTx hpc hcs =>
    simp only [OrderedChannel.closeTx, Option.ite_none_right_eq_some, Option.some.injEq] at hcs
    obtain ⟨-, rfl⟩ := hcs
    exact ⟨progress_update hC.worker ⟨hp.bound, by simp, by simp, by simp⟩, hC.calls⟩
  | exit hpc hcs =>
    simp only [OrderedChannel.dropTx, Option.ite_none_right_eq_some, Option.some.injEq] at hcs
    obtain ⟨-, rfl⟩ := hcs
    exact ⟨progress_update hC.worker ⟨hp.bound, by simp, by simp, by simp⟩, hC.calls⟩

/-- With the file operations succeeding and the blocks in place, no worker fails. -/
theorem Healthy.workerStep (hc : h.Control p held) (hC : h.Content p D) (hh : h.Healthy)
    (hblk : ∀ k, h.chan.placed.length ≤ k → block p.blockSize F k = block p.blockSize D k)
    {i : Fin W} {e : WorkerEvent} (hok : e.succeeds = true)
    (hs : h.workerStep p F i e = some h') : h'.Healthy := by
  have hf := hc.workerStep_frame hs
  have herr : h'.error = none := by
    rcases hf.error with h1 | ⟨msg, h1, -⟩
    · rw [h1, hh.error]
    · exact absurd h1 ((hh.worker i).2 msg)
  refine ⟨fun j => ?_, herr⟩
  by_cases hj : j = i
  case neg =>
    rw [hf.worker j hj]
    exact hh.worker j
  subst hj
  cases workerMove_of_step hs with
  | openError | seekError | readFails | seekNextError => cases hok
  | openOk | seekOk | enterBlock | leaveLoop | send | reclaim | exit =>
    simp [HashStream.setWorker]
  | read hpc hn hlt =>
    obtain ⟨m, b, heq, -⟩ := readSome_progress (hc.worker j) (hC.worker j) hblk hpc hlt hn
    simp [HashStream.setWorker, heq, hpc]
  | @sendStep c r hpc hcs =>
    rcases r with _ | _ | _ <;> simp [afterSend, HashStream.setWorker, hpc]
  | wake hpc => simp [hpc]
  | nextBlock hpc hn =>
    simp only [HashStream.nextBlock, Option.ite_none_right_eq_some, Option.some.injEq] at hn
    obtain ⟨-, rfl⟩ := hn
    simp [HashStream.setWorker]
  | @publish msg hpc => exact absurd hpc ((hh.worker j).2 msg)
  | closeTx hpc => exact absurd hpc (hh.worker j).1

/-! ## The sequence of blocks -/

/-- The index, the hash and the data of a block returned. -/
def Item.view (v : Item W) : ℕ × String × List UInt8 := (v.1, v.2.hash, v.2.data.value)

/-- What hashing `D` block after block gives. -/
def sequential (p : HashFile) (D : List UInt8) : List (ℕ × String × List UInt8) :=
  (List.range (divCeil D.length p.blockSize)).map fun k =>
    (k, p.hash (block p.blockSize D k), block p.blockSize D k)

@[simp] theorem length_sequential (p : HashFile) (D : List UInt8) :
    (sequential p D).length = divCeil D.length p.blockSize := by
  simp [sequential]

theorem Content.placed_view (hb : 0 < p.blockSize) (hc : h.Control p held) (hC : h.Content p D)
    {k : ℕ} {v : Item W} (hk : h.chan.placed[k]? = some v) :
    (sequential p D)[k]? = some (Item.view v) := by
  have hcall := hc.chan.placed_called k v hk
  obtain ⟨hlt, hhash, hdata⟩ := hC.calls k v hcall
  have hidx := (hc.call_idx k v hcall).1
  rw [← lt_divCeil_iff hb] at hlt
  simp [sequential, Item.view, hlt, hidx, hhash, hdata]

/-- The blocks placed on the channel are the first ones, in order. -/
theorem Content.placed_prefix (hb : 0 < p.blockSize) (hc : h.Control p held)
    (hC : h.Content p D) : h.chan.placed.map Item.view <+: sequential p D := by
  rw [List.prefix_iff_getElem?]
  intro k hk
  rw [List.length_map] at hk
  rw [hC.placed_view hb hc (List.getElem?_eq_getElem hk), List.getElem_map]

theorem Content.delivered_prefix (hb : 0 < p.blockSize) (hc : h.Control p held)
    (hC : h.Content p D) : h.chan.delivered.map Item.view <+: sequential p D := by
  refine List.IsPrefix.trans (List.IsPrefix.map _ ?_) (hC.placed_prefix hb hc)
  rw [hc.chan.placed_eq]
  exact List.prefix_append _ _

end HashStream

namespace HashSystem

open HashStream Transition

variable {W : ℕ} {p : HashFile} {D F : List UInt8} {s s' : HashSystem W}

def succeeds (_ : HashSystem W) : HashEvent W → Bool
  | .worker _ e => e.succeeds
  | _ => true

theorem content_step (hfit : Fits p W F) (hc : s.stream.Control p s.held)
    (hC : s.stream.Content p F) {e : HashEvent W} (hs : s.step p F e = some s') :
    s'.stream.Content p F := by
  rcases stream_step hs with ⟨i, e', -, h⟩ | h
  · exact hC.workerStep hfit hc (fun _ _ => rfl) h
  · exact hC.consumes h

theorem healthy_step (hc : s.stream.Control p s.held) (hC : s.stream.Content p F)
    (hh : s.stream.Healthy) {e : HashEvent W} (hok : s.succeeds e = true)
    (hs : s.step p F e = some s') : s'.stream.Healthy := by
  rcases stream_step hs with ⟨i, e', rfl, h⟩ | h
  · exact hh.workerStep hc hC (fun _ _ => rfl) hok h
  · exact hh.consumes h

/-- A result of `recv` without the identity of the worker. -/
def view : RecvResult W → Except String (Option (ℕ × String × List UInt8)) :=
  Except.map (Option.map Item.view)

/-- The results are those of a sequential pass, up to `m` blocks and then `j` times the end. -/
structure Sequential (p : HashFile) (F : List UInt8) (s : HashSystem W) : Prop where
  delivers : s.Delivers p
  content : s.stream.Content p F
  healthy : s.stream.Healthy
  results : ∃ j, s.results.map view =
      ((sequential p F).take s.stream.chan.delivered.length).map (fun b => .ok (some b)) ++
        List.replicate j (.ok none) ∧
      (0 < j → s.stream.chan.delivered.length = divCeil F.length p.blockSize)

theorem sequential_new (hfit : Fits p W F) : (new p W).Sequential p F :=
  ⟨delivers_new p W, content_hashFile hfit.blockSize_pos, healthy_hashFile, 0, rfl,
    by simp⟩

theorem Sequential.step (hfit : Fits p W F) (hq : s.Sequential p F) {e : HashEvent W}
    (hok : s.succeeds e = true) (hs : s.step p F e = some s') : s'.Sequential p F := by
  have hc := hq.delivers.control
  have hb := hfit.blockSize_pos
  have hD := hq.delivers.step hs
  have hC := content_step hfit hc hq.content hs
  have hH := healthy_step hc hq.content hq.healthy hok hs
  obtain ⟨j, hres, hj⟩ := hq.results
  refine ⟨hD, hC, hH, ?_⟩
  rcases step_results hc hs with ⟨h1, h2⟩ | ⟨e', r, -, hrec, h1, h2⟩
  · exact ⟨j, by rw [h1, h2, hres], by rw [h2]; exact hj⟩
  · rcases r with err | _ | v
    · exact absurd hq.healthy.error ((recvStep_frame hrec).failed err rfl)
    · -- the end of the channel
      obtain rfl := (recvStep_frame hrec).ended rfl
      have hall := hc.recvNone_complete hfit.workers_pos hb hq.healthy.error hrec
      have hle := (hq.content.delivered_prefix hb hc).length_le
      simp only [List.length_map, length_sequential] at hle
      rw [hfit.size] at hall
      simp only [RecvResult.blocks, List.append_nil] at h2
      refine ⟨j + 1, ?_, fun _ => by rw [h2]; omega⟩
      rw [h1, h2, List.map_append, hres, List.append_assoc, List.replicate_succ']
      rfl
    · -- one more block
      have hpre := hC.delivered_prefix hb hD.control
      simp only [RecvResult.blocks] at h2
      have hlen : s'.stream.chan.delivered.length = s.stream.chan.delivered.length + 1 := by
        rw [h2]; simp
      have hle := hpre.length_le
      simp only [List.length_map, length_sequential, hlen] at hle
      obtain rfl : j = 0 := by
        rcases Nat.eq_zero_or_pos j with h0 | h0
        · exact h0
        · have := hj h0
          omega
      refine ⟨0, ?_, by simp⟩
      have htake := List.prefix_iff_eq_take.mp hpre
      have htake' := List.prefix_iff_eq_take.mp (hq.content.delivered_prefix hb hc)
      simp only [List.length_map] at htake htake'
      rw [← htake'] at hres
      rw [← htake, h1, h2, List.map_append, hres]
      simp [view, Except.map]

/-- Parallel hashing equals sequential hashing.  In every run without an error of the
file system, whatever the interleaving, the cancellations and the time for which the
loans are held, the `recv` calls return the blocks of the file in order with their
hashes, and `Ok(None)` only after the last one. -/
theorem results_sequential (d : Digests) (alg : HashAlgorithm) {blockSize : ℕ}
    (hb : 1 ≤ blockSize) (hW : 1 ≤ W ∧ W ≤ 255) (hF : F.length + 255 * blockSize < 2 ^ 63)
    {es : List (HashEvent W)}
    (h : run (restrict succeeds (step (.onFile d alg blockSize F) F))
      (new (.onFile d alg blockSize F) W) es = some s) :
    ∃ m j, s.results.map view =
        ((sequential (.onFile d alg blockSize F) F).take m).map (fun b => .ok (some b)) ++
          List.replicate j (.ok none) ∧
      (0 < j → m = divCeil F.length blockSize) := by
  have hfit := fits_onFile d alg (F := F) hb hW (by omega) (by omega)
  have hq := run_invariant
    (I := fun s : HashSystem W => s.Sequential (.onFile d alg blockSize F) F)
    (fun u e t hq ht => by
      obtain ⟨hok, ht⟩ := restrict_eq_some.mp ht
      exact hq.step hfit hok ht) (sequential_new hfit) h
  obtain ⟨j, hres, hj⟩ := hq.results
  exact ⟨_, j, hres, hj⟩

/-- Two bytes in two blocks, hashed by two workers of which the second one is ahead. -/
def twoWorkersRun : List (HashEvent 2) :=
  let read (i : Fin 2) : List (HashEvent 2) :=
    [.worker i (.openFile (.ok ())), .worker i (.seekStart (.ok ())), .worker i .loopHead,
      .worker i (.read 1), .worker i .send, .worker i .sendStep]
  let recv : List (HashEvent 2) := [.recv .enter, .recv .poll, .recv .take, .recv .finish]
  read 1 ++ [.recv .enter, .recv .poll, .recv .cancel] ++ read 0 ++ recv ++
    [.recv .enter, .recv .poll, .worker 1 .sendStep, .recv .take, .recv .finish]

theorem results_sequential_twoWorkers :
    ∃ s, run (restrict succeeds (step (.onFile crcDigests .crc32 1 [7, 8]) [7, 8]))
        (new (.onFile crcDigests .crc32 1 [7, 8]) 2) twoWorkersRun = some s ∧
      s.results.length = 2 ∧ ∃ m j, s.results.map view =
        ((sequential (.onFile crcDigests .crc32 1 [7, 8]) [7, 8]).take m).map
          (fun b => .ok (some b)) ++ List.replicate j (.ok none) ∧
        (0 < j → m = divCeil 2 1) := by
  have hlen : (run (restrict succeeds (step (.onFile crcDigests .crc32 1 [7, 8]) [7, 8]))
      (new (.onFile crcDigests .crc32 1 [7, 8]) 2) twoWorkersRun).map (·.results.length) =
      some 2 := by rfl
  obtain ⟨s, hs, hr⟩ := Option.map_eq_some_iff.mp hlen
  exact ⟨s, hs, hr, results_sequential crcDigests .crc32 (by decide) (by decide) (by decide) hs⟩

end HashSystem

end Deltasync
