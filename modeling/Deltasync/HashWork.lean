import Deltasync.HashContent
import Deltasync.Lib.Potential
import Mathlib.Algebra.Order.BigOperators.Group.Finset

/-!
# How much work a hash stream has left

A worker has at most `n + W` blocks to look at, where `n` is the number of blocks
of the file, and each of them costs it a bounded number of steps.  It is woken up
when an index is announced, which happens at most `n + 1` times, and when the
channel is closed.  Hence the workers take a bounded number of steps, whatever the
consumer does, whatever the file holds and whichever file operations fail.
-/

namespace Deltasync

open Blocks Transition

/-- The number of blocks of a file of the size that `hash_file` measured. -/
def HashFile.blocks (p : HashFile) : ℕ := divCeil p.fileSize p.blockSize

/-- A wakeup without a notification. -/
def WorkerEvent.spurious : WorkerEvent → Bool
  | .wake => true
  | _ => false

/-- How many steps a worker has before it at most, but for those in `send`. -/
def Worker.work (p : HashFile) (W : ℕ) (w : Worker) : ℕ :=
  let left := p.blocks + W - w.blockIdx
  let block := p.blockSize + 8
  match w.pc with
  | .opening => left * block + W + 6
  | .seeking => left * block + W + 5
  | .head => left * block + W + 4
  | .reading => (left - 1) * block + W + 11 + (w.buffer.length - w.filled)
  | .sending => (left - 1) * block + W + 9
  | .reclaiming => (left - 1) * block + W + 8
  | .seekingNext => (left - 1) * block + W + 7
  | .failed _ => W + 3
  | .closing => W + 2
  | .leaving => 1
  | .exited => 0

/-- A thread that is awake takes one more turn in `send` before it sleeps. -/
def SendCall.rank {I T : Type*} : SendCall I T → ℕ
  | .locking _ _ => 1
  | _ => 0

@[simp] theorem SendCall.rank_idle {I T : Type*} : (idle : SendCall I T).rank = 0 := rfl

@[simp] theorem SendCall.rank_locking {I T : Type*} (idx : I) (v : T) :
    (locking idx v).rank = 1 := rfl

@[simp] theorem SendCall.rank_waiting {I T : Type*} (idx : I) (v : T) :
    (waiting idx v).rank = 0 := rfl

theorem SendCall.rank_wake_le {I T : Type*} (x : SendCall I T) : x.wake.rank ≤ x.rank + 1 := by
  cases x <;> simp [wake, rank]

/-- How many threads `close` may still wake. -/
def HashPhase.unwoken (W : ℕ) : HashPhase → ℕ
  | .alive => W
  | _ => 0

/-- How many indices have been announced. -/
def OrderedChannel.requested {ι I T : Type*} (c : OrderedChannel ι I T) : ℕ :=
  c.delivered.length + if c.receiving then 1 else 0

namespace HashStream

variable {W : ℕ}

/-- How many steps the workers have before them at most. -/
def workersWork (p : HashFile) (h : HashStream W) : ℕ :=
  (∑ i, (h.worker i).work p W) + (∑ i, (h.chan.send i).rank) +
    (p.blocks + 1 - h.chan.requested) * W + h.phase.unwoken W

/-- The counters of the workers do not wrap around. -/
structure Sizes (p : HashFile) (W : ℕ) : Prop where
  blockSize_pos : 0 < p.blockSize
  offsets : OffsetsFit p.bits p.blockSize p.fileSize W

/-- The blocks that the workers have come to lie in the file. -/
structure Measured (p : HashFile) (h : HashStream W) : Prop where
  bound : ∀ i, (h.worker i).blockIdx * p.blockSize < p.fileSize + W * p.blockSize
  calls : ∀ idx v, (idx, v) ∈ h.chan.calls → idx * p.blockSize < p.fileSize

variable {p : HashFile} {h h' : HashStream W} {F : List UInt8}
  {held : List (Loan (Fin W) (List UInt8))} {i : Fin W}

theorem Fits.sizes {D : List UInt8} (hfit : Fits p W D) : Sizes p W :=
  ⟨hfit.blockSize_pos, by rw [hfit.size]; exact hfit.offsets⟩

theorem Content.measured {D : List UInt8} (hfit : Fits p W D) (hC : h.Content p D) :
    h.Measured p where
  bound i := by
    rw [hfit.size]
    exact (hC.worker i).bound
  calls idx v hmem := by
    rw [hfit.size]
    exact (hC.calls idx v hmem).1

theorem measured_hashFile (hb : 0 < p.blockSize) : (hashFile p W).Measured p where
  bound i := by
    have := Nat.mul_lt_mul_of_pos_right i.isLt hb
    simp only [hashFile]
    omega
  calls := by simp [hashFile, OrderedChannel.new]

theorem Measured.of_eq (hm : h.Measured p)
    (hw : ∀ i, (h'.worker i).blockIdx = (h.worker i).blockIdx)
    (hcalls : h'.chan.calls = h.chan.calls) : h'.Measured p where
  bound i := by
    rw [hw]
    exact hm.bound i
  calls := by
    rw [hcalls]
    exact hm.calls

theorem bound_update {f : Fin W → Worker} {n : ℕ} (hf : ∀ j, (f j).blockIdx * p.blockSize < n)
    {w : Worker} (hw : w.blockIdx * p.blockSize < n) (j : Fin W) :
    (Function.update f i w j).blockIdx * p.blockSize < n := by
  by_cases hj : j = i
  · subst hj
    rwa [Function.update_self]
  · rw [Function.update_of_ne hj]
    exact hf j

theorem Measured.setWorker (hm : h.Measured p) {w : Worker}
    (hw : w.blockIdx * p.blockSize < p.fileSize + W * p.blockSize) :
    (h.setWorker i w).Measured p :=
  ⟨bound_update hm.bound hw, hm.calls⟩

/-- `offset` has not wrapped around. -/
theorem Measured.offset_eq (hsz : Sizes p W) (hc : h.Control p held) (hm : h.Measured p)
    (i : Fin W) : (h.worker i).offset = (h.worker i).blockIdx * p.blockSize := by
  rw [(hc.worker i).offset_eq,
    usize_of_lt (hsz.offsets.mul_lt hsz.blockSize_pos (hm.bound i))]

/-- A worker with a block in hand is not past the end of the file. -/
theorem Measured.lt_blocks (hsz : Sizes p W) (hc : h.Control p held) (hm : h.Measured p)
    (hin : (h.worker i).pc.inBlock = true) : (h.worker i).blockIdx < p.blocks := by
  have hlt := (hc.worker i).inBlock hin
  rw [hm.offset_eq hsz hc, ← lt_divCeil_iff hsz.blockSize_pos] at hlt
  exact hlt

/-- No more blocks are placed on the channel than there are. -/
theorem Measured.placed_le (hb : 0 < p.blockSize) (hc : h.Control p held) (hm : h.Measured p) :
    h.chan.placed.length ≤ p.blocks := by
  by_contra hlt
  have hk : p.blocks < h.chan.placed.length := by omega
  have hcall := hc.chan.placed_called p.blocks _ (List.getElem?_eq_getElem hk)
  have := hm.calls _ _ hcall
  rw [← lt_divCeil_iff hb] at this
  exact absurd this (lt_irrefl _)

theorem Measured.delivered_le (hb : 0 < p.blockSize) (hc : h.Control p held)
    (hm : h.Measured p) : h.chan.delivered.length ≤ p.blocks := by
  have := hm.placed_le hb hc
  rw [hc.chan.placed_eq, List.length_append] at this
  omega

theorem Measured.workerStep (hsz : Sizes p W) (hc : h.Control p held) (hm : h.Measured p)
    {e : WorkerEvent} (hs : h.workerStep p F i e = some h') : h'.Measured p := by
  have hoff := hm.offset_eq hsz hc i
  have hw := hc.worker i
  cases workerMove_of_step hs with
  | openOk | openError | seekOk | seekError | enterBlock | leaveLoop | readFails | reclaim
  | seekNextError => exact hm.setWorker (hm.bound i)
  | @read n hpc hn hlt =>
    apply hm.setWorker
    rcases readSome_cases F (h.worker i) n with ⟨msg, heq⟩ | ⟨b, f, c, heq⟩ <;> rw [heq] <;>
      exact hm.bound i
  | send hpc hfull hcs =>
    simp only [OrderedChannel.callSend, Option.ite_none_right_eq_some, Option.some.injEq] at hcs
    obtain ⟨-, rfl⟩ := hcs
    have hin := hw.inBlock (by rw [hpc]; rfl)
    rw [hoff] at hin
    refine ⟨bound_update hm.bound (hm.bound i), ?_⟩
    intro idx v hmem
    rcases List.mem_append.mp hmem with hmem | hmem
    · exact hm.calls idx v hmem
    · obtain ⟨rfl, -⟩ : idx = (h.worker i).blockIdx ∧ v = blockData p i (h.worker i) := by
        simpa using hmem
      exact hin
  | sendStep hpc hcs =>
    obtain ⟨idx, v, hi, ⟨-, rfl, rfl⟩ | ⟨-, -, rfl, rfl⟩ | ⟨-, -, rfl, rfl⟩⟩ :=
      hc.chan.sendStep_cases hcs
    · exact ⟨bound_update hm.bound (hm.bound i), hm.calls⟩
    · exact ⟨bound_update hm.bound (hm.bound i), hm.calls⟩
    · exact ⟨hm.bound, hm.calls⟩
  | wake => exact ⟨hm.bound, hm.calls⟩
  | nextBlock hpc hn =>
    have hin := hw.inBlock (by rw [hpc]; rfl)
    simp only [HashStream.nextBlock, Option.ite_none_right_eq_some, Option.some.injEq] at hn
    obtain ⟨-, rfl⟩ := hn
    apply hm.setWorker
    simp only [Nat.add_mul]
    omega
  | publish => exact ⟨bound_update hm.bound (hm.bound i), hm.calls⟩
  | closeTx hpc hcs =>
    simp only [OrderedChannel.closeTx, Option.ite_none_right_eq_some, Option.some.injEq] at hcs
    obtain ⟨-, rfl⟩ := hcs
    exact ⟨bound_update hm.bound (hm.bound i), hm.calls⟩
  | exit hpc hcs =>
    simp only [OrderedChannel.dropTx, Option.ite_none_right_eq_some, Option.some.injEq] at hcs
    obtain ⟨-, rfl⟩ := hcs
    exact ⟨bound_update hm.bound (hm.bound i), hm.calls⟩

theorem Measured.consumes (hm : h.Measured p) (hg : h.Consumes h') : h'.Measured p := by
  induction hg with
  | refl => exact hm
  | @cancelRecv g _ ih =>
    have hf := cancelRecv_frame g
    exact ih.of_eq (fun _ => by rw [hf.worker]) hf.calls
  | dropLoan _ l ih => exact ih.setWorker (ih.bound l.tx)
  | recvStep _ hs ih =>
    have hf := recvStep_frame hs
    exact ih.of_eq (fun _ => by rw [hf.worker]) hf.calls
  | close _ hs ih =>
    have hf := (close_frame hs).1
    exact ih.of_eq (fun _ => by rw [hf.worker]) hf.calls
  | join _ hs ih =>
    have hf := (join_frame hs).1
    exact ih.of_eq (fun _ => by rw [hf.worker]) hf.calls

/-! ## What a step costs -/

/-- The work of the workers after a step of one of them. -/
theorem sum_work_setWorker (h : HashStream W) (i : Fin W) (w : Worker) :
    (∑ j, ((h.setWorker i w).worker j).work p W) + (h.worker i).work p W =
      (∑ j, (h.worker j).work p W) + w.work p W := by
  have := sum_of_ne (f := fun j => (h.worker j).work p W)
    (g := fun j => ((h.setWorker i w).worker j).work p W) i
    (fun j hj => by simp [HashStream.setWorker, Function.update_of_ne hj])
  simpa [HashStream.setWorker] using this

theorem sum_rank_setSend (c : OrderedChannel (Fin W) ℕ (Item W)) (i : Fin W)
    (x : SendCall ℕ (Item W)) :
    (∑ j, ((c.setSend i x).send j).rank) + (c.send i).rank =
      (∑ j, (c.send j).rank) + x.rank := by
  have := sum_of_ne (f := fun j => (c.send j).rank) (g := fun j => ((c.setSend i x).send j).rank) i
    (fun j hj => by simp [OrderedChannel.setSend, Function.update_of_ne hj])
  simpa [OrderedChannel.setSend] using this

/-- A notification wakes at most every thread. -/
theorem sum_rank_notifyAll (c : OrderedChannel (Fin W) ℕ (Item W)) :
    (∑ j, (c.notifyAll.send j).rank) ≤ (∑ j, (c.send j).rank) + W := by
  calc
    (∑ j, (c.notifyAll.send j).rank) ≤ ∑ j, ((c.send j).rank + 1) :=
      Finset.sum_le_sum fun j _ => (c.send j).rank_wake_le
    _ = (∑ j, (c.send j).rank) + W := by simp [Finset.sum_add_distrib]

theorem length_readSome (F : List UInt8) (w : Worker) (n : ℕ) (hlt : w.filled < w.buffer.length) :
    (∃ msg, readSome F w n = { w with pc := .failed msg }) ∨
      ∃ b m c, readSome F w n = { w with buffer := b, filled := w.filled + (m + 1), cursor := c } ∧
        b.length = w.buffer.length := by
  unfold readSome
  split
  · exact .inl ⟨_, rfl⟩
  · next x xs hcons =>
    have hlen := congrArg List.length hcons
    simp only [List.length_take, List.length_cons] at hlen
    refine .inr ⟨_, xs.length, _, rfl, ?_⟩
    apply length_patch
    simp only [List.length_cons]
    omega

/-- A step that changes only the channel. -/
theorem workersWork_setChan {c : OrderedChannel (Fin W) ℕ (Item W)}
    (hreq : c.requested = h.chan.requested) :
    ({ h with chan := c } : HashStream W).workersWork p + (∑ j, (h.chan.send j).rank) =
      h.workersWork p + ∑ j, (c.send j).rank := by
  unfold workersWork
  dsimp only
  rw [hreq]
  omega

/-- A step of worker `i` that may change where the threads stand in `send`. -/
theorem workersWork_lt {c : OrderedChannel (Fin W) ℕ (Item W)} {w : Worker}
    (hreq : c.requested = h.chan.requested)
    (hlt : w.work p W + (∑ j, (c.send j).rank) <
      (h.worker i).work p W + ∑ j, (h.chan.send j).rank) :
    (({ h with chan := c } : HashStream W).setWorker i w).workersWork p < h.workersWork p := by
  have hsum := sum_work_setWorker (p := p) { h with chan := c } i w
  have hchan := workersWork_setChan (p := p) hreq
  unfold workersWork at hchan ⊢
  dsimp only [HashStream.setWorker] at hsum hchan ⊢
  omega

theorem workersWork_setWorker_lt {w : Worker} (hlt : w.work p W < (h.worker i).work p W) :
    (h.setWorker i w).workersWork p < h.workersWork p :=
  workersWork_lt (c := h.chan) rfl (by omega)

/-- Entering a block, and going on to the next one. -/
theorem succ_left_mul {left : ℕ} (hpos : 0 < left) (m : ℕ) : left * m = (left - 1) * m + m := by
  obtain ⟨k, rfl⟩ : ∃ k, left = k + 1 := ⟨left - 1, by omega⟩
  rw [Nat.add_sub_cancel, Nat.succ_mul]

/-- Every step of a worker but a spurious wakeup leaves less to do. -/
theorem Control.workerStep_work (hsz : Sizes p W) (hc : h.Control p held) (hm : h.Measured p)
    {e : WorkerEvent} (hs : h.workerStep p F i e = some h') (he : e.spurious = false) :
    h'.workersWork p < h.workersWork p := by
  have hoff := hm.offset_eq hsz hc i
  have hw := hc.worker i
  have hleft : ∀ m, (h.worker i).blockIdx < p.blocks → (p.blocks + W - (h.worker i).blockIdx) * m =
      (p.blocks + W - (h.worker i).blockIdx - 1) * m + m :=
    fun m hlt => succ_left_mul (by omega) m
  cases workerMove_of_step hs with
  | openOk hpc | openError hpc | seekOk hpc | seekError hpc | leaveLoop hpc | readFails hpc
  | reclaim hpc | seekNextError hpc =>
    apply workersWork_setWorker_lt
    simp only [Worker.work, hpc]
    omega
  | enterBlock hpc hlt herr =>
    apply workersWork_setWorker_lt
    rw [hoff, ← lt_divCeil_iff hsz.blockSize_pos] at hlt
    have := hleft (p.blockSize + 8) hlt
    have hsize : currentBlockSize p (h.worker i) ≤ p.blockSize := by
      unfold currentBlockSize
      dsimp only
      split_ifs <;> omega
    simp only [Worker.work, hpc, length_resize]
    omega
  | @read n hpc hn hlt =>
    apply workersWork_setWorker_lt
    rcases length_readSome F (h.worker i) n hlt with ⟨msg, heq⟩ | ⟨b, m, c, heq, hlen⟩ <;>
      simp only [heq, Worker.work, hpc] <;> omega
  | send hpc hfull hcs =>
    simp only [OrderedChannel.callSend, Option.ite_none_right_eq_some, Option.some.injEq] at hcs
    obtain ⟨-, rfl⟩ := hcs
    have hrank := sum_rank_setSend h.chan i
      (.locking (h.worker i).blockIdx (blockData p i (h.worker i)))
    refine workersWork_lt rfl ?_
    rw [SendCall.rank_locking] at hrank
    simp only [Worker.work, hpc]
    omega
  | sendStep hpc hcs =>
    obtain ⟨idx, v, hi, ⟨-, rfl, rfl⟩ | ⟨-, -, rfl, rfl⟩ | ⟨-, -, rfl, rfl⟩⟩ :=
      hc.chan.sendStep_cases hcs
    · have hrank := sum_rank_setSend h.chan i .idle
      rw [hi, SendCall.rank_locking, SendCall.rank_idle] at hrank
      refine workersWork_lt rfl ?_
      simp only [Worker.work, hpc]
      omega
    · have hrank := sum_rank_setSend h.chan i .idle
      rw [hi, SendCall.rank_locking, SendCall.rank_idle] at hrank
      refine workersWork_lt rfl ?_
      simp only [Worker.work, hpc]
      change _ + (∑ j, ((h.chan.setSend i .idle).send j).rank) < _
      omega
    · have hrank := sum_rank_setSend h.chan i (.waiting idx v)
      rw [hi, SendCall.rank_locking, SendCall.rank_waiting] at hrank
      have := workersWork_setChan (p := p) (h := h) (c := h.chan.setSend i (.waiting idx v)) rfl
      change workersWork p { h with chan := h.chan.setSend i (.waiting idx v) } < _
      omega
  | wake => cases he
  | nextBlock hpc hn =>
    apply workersWork_setWorker_lt
    simp only [HashStream.nextBlock, Option.ite_none_right_eq_some, Option.some.injEq] at hn
    obtain ⟨-, rfl⟩ := hn
    have hlt := hm.lt_blocks hsz hc (i := i) (by rw [hpc]; rfl)
    have hle : (p.blocks + W - ((h.worker i).blockIdx + W)) * (p.blockSize + 8) ≤
        (p.blocks + W - (h.worker i).blockIdx - 1) * (p.blockSize + 8) :=
      Nat.mul_le_mul_right _ (by have := i.isLt; omega)
    simp only [Worker.work, hpc]
    omega
  | @publish msg hpc =>
    refine workersWork_setWorker_lt (h := { h with error := some msg, errorSeen := false }) ?_
    simp only [Worker.work, hpc]
    omega
  | closeTx hpc hcs =>
    simp only [OrderedChannel.closeTx, Option.ite_none_right_eq_some, Option.some.injEq] at hcs
    obtain ⟨-, rfl⟩ := hcs
    have hrank := sum_rank_notifyAll h.chan
    refine workersWork_lt rfl ?_
    simp only [Worker.work, hpc]
    change _ + (∑ j, (h.chan.notifyAll.send j).rank) < _
    omega
  | exit hpc hcs =>
    simp only [OrderedChannel.dropTx, Option.ite_none_right_eq_some, Option.some.injEq] at hcs
    obtain ⟨-, rfl⟩ := hcs
    refine workersWork_lt rfl ?_
    simp only [Worker.work, hpc]
    omega

theorem Control.wake_work (hs : h.workerStep p F i .wake = some h') :
    h'.workersWork p ≤ h.workersWork p + 1 := by
  cases workerMove_of_step hs with
  | @wake idx v hpc hi =>
    have hrank := sum_rank_setSend h.chan i (.locking idx v)
    rw [SendCall.rank_locking] at hrank
    have := workersWork_setChan (p := p) (h := h) (c := h.chan.setSend i (.locking idx v)) rfl
    omega

/-- A new index is announced only when the last one has been served. -/
theorem receiving_of_announce {c : OrderedChannel (Fin W) ℕ (Item W)}
    (hidle : c.recv = .idle) (hs : c.recvEnter = some { c.notifyAll with
      wantedIdx := some (OrderedChannel.nextIdx c.wantedIdx), receiving := true,
      recv := .awaiting }) : c.receiving = false := by
  by_contra hne
  have hrec : c.receiving = true := by simpa using hne
  simp only [OrderedChannel.recvEnter, hidle, hrec, if_true, Option.ite_none_left_eq_some,
    Option.some.injEq] at hs
  have hwanted := congrArg OrderedChannel.wantedIdx hs.2
  cases hw : c.wantedIdx with
  | none => simp [hw] at hwanted
  | some k => simp [hw, OrderedChannel.nextIdx] at hwanted

/-- An index is announced at most once, so that no step of `recv` gives the workers more to
do. -/
theorem Control.recvStep_work (hb : 0 < p.blockSize) (hc : h.Control p held) (hm : h.Measured p)
    {e : RecvEvent} {r : Option (RecvResult W)} (hs : h.recvStep e = some (h', r)) :
    h'.workersWork p ≤ h.workersWork p := by
  cases recvMove_of_step hs with
  | enterFailed | enter | pollAgain | take | ended | error | cancel => exact le_rfl
  | announce hp hidle hcs heq =>
    subst heq
    have hrank := sum_rank_notifyAll h.chan
    have hdel := hm.delivered_le hb hc
    have hrec := receiving_of_announce hidle hcs
    have hpay : (p.blocks + 1 - h.chan.delivered.length) * W =
        (p.blocks + 1 - h.chan.delivered.length - 1) * W + W := succ_left_mul (by omega) W
    simp only [workersWork, OrderedChannel.requested, hrec, Bool.false_eq_true, if_false, if_true,
      Nat.add_zero]
    change _ + (∑ j, (h.chan.notifyAll.send j).rank) +
      (p.blocks + 1 - (h.chan.delivered.length + 1)) * W + h.phase.unwoken W ≤ _
    rw [Nat.sub_add_eq]
    omega
  | finish hp ht hcs heq =>
    subst heq
    have hrec := hc.chan.receiving_of_pending (.inl (by simp [OrderedChannel.inFlight, ht,
      RecvCall.value]))
    apply le_of_eq
    simp [workersWork, OrderedChannel.requested, hrec]

theorem workersWork_cancelRecv (h : HashStream W) :
    h.cancelRecv.workersWork p = h.workersWork p := by
  unfold cancelRecv
  split
  · next h' r hs =>
    cases recvMove_of_step hs
    rfl
  · rfl

theorem workersWork_dropLoan (h : HashStream W) (l : Loan (Fin W) (List UInt8)) :
    (h.dropLoan l).workersWork p = h.workersWork p := by
  have hsum := sum_work_setWorker (p := p) h l.tx { h.worker l.tx with returned := some l.value }
  have hwork : Worker.work p W { h.worker l.tx with returned := some l.value } =
      (h.worker l.tx).work p W := rfl
  unfold workersWork dropLoan
  rw [hwork] at hsum
  dsimp only [HashStream.setWorker] at hsum ⊢
  omega

/-- The wakeups of `close` are paid for by the phase. -/
theorem close_work (hs : h.close = some h') : h'.workersWork p ≤ h.workersWork p := by
  simp only [HashStream.close, Option.ite_none_right_eq_some, Option.map_eq_some_iff] at hs
  obtain ⟨⟨halive, -⟩, c, hcs, rfl⟩ := hs
  unfold OrderedChannel.closeRx at hcs
  split at hcs
  case h_2 => cases hcs
  case h_1 =>
    have hrank := sum_rank_notifyAll h.chan
    split_ifs at hcs <;> obtain rfl := Option.some.inj hcs
    · simp [workersWork, halive, HashPhase.unwoken]
    · simp only [workersWork, halive, HashPhase.unwoken]
      change _ + (∑ j, (h.chan.notifyAll.send j).rank) +
        (p.blocks + 1 - h.chan.requested) * W + 0 ≤ _
      omega

theorem join_work (hs : h.join = some h') : h'.workersWork p = h.workersWork p := by
  unfold HashStream.join at hs
  split at hs
  case h_2 => cases hs
  case h_1 j hj =>
    split_ifs at hs <;> obtain rfl := Option.some.inj hs <;>
      simp [workersWork, hj, HashPhase.unwoken]

theorem workersWork_hashFile_le (p : HashFile) (W : ℕ) :
    (hashFile p W).workersWork p ≤
      W * ((p.blocks + W) * (p.blockSize + 8) + p.blocks + W + 8) := by
  have hwork : (∑ i : Fin W, ((hashFile p W).worker i).work p W) ≤
      W * ((p.blocks + W) * (p.blockSize + 8) + W + 6) := by
    calc
      (∑ i : Fin W, ((hashFile p W).worker i).work p W)
          ≤ ∑ _i : Fin W, ((p.blocks + W) * (p.blockSize + 8) + W + 6) := by
        apply Finset.sum_le_sum
        intro i _
        have := Nat.mul_le_mul_right (p.blockSize + 8) (Nat.sub_le (p.blocks + W) i)
        simp only [hashFile, Worker.work]
        omega
      _ = W * ((p.blocks + W) * (p.blockSize + 8) + W + 6) := by simp
  have hrank : (∑ i : Fin W, ((hashFile p W).chan.send i).rank) = 0 := by
    simp [hashFile, OrderedChannel.new]
  have hrest : (p.blocks + 1 - (hashFile p W).chan.requested) * W = W * (p.blocks + 1) := by
    simp [hashFile, OrderedChannel.new, OrderedChannel.requested, Nat.mul_comm]
  have htotal : W * ((p.blocks + W) * (p.blockSize + 8) + p.blocks + W + 8) =
      W * ((p.blocks + W) * (p.blockSize + 8) + W + 6) + W * (p.blocks + 1) + W := by ring
  simp only [workersWork, hrank, hrest, htotal]
  simp only [hashFile, HashPhase.unwoken] at hwork ⊢
  omega

end HashStream

/-! ## Whole runs -/

namespace HashEvent

variable {W : ℕ}

/-- A step of a worker, but for spurious wakeups. -/
def works : HashEvent W → Bool
  | .worker _ e => !e.spurious
  | _ => false

def spurious : HashEvent W → Bool
  | .worker _ e => e.spurious
  | _ => false

end HashEvent

namespace HashSystem

open HashStream

variable {W : ℕ} {p : HashFile} {F : List UInt8} {s s' : HashSystem W}

theorem measured_step (hsz : Sizes p W) (hc : s.stream.Control p s.held) (hm : s.stream.Measured p)
    {e : HashEvent W} (hs : s.step p F e = some s') : s'.stream.Measured p := by
  rcases stream_step hs with ⟨i, e', -, h⟩ | h
  · exact hm.workerStep hsz hc h
  · exact hm.consumes h

theorem step_work (hsz : Sizes p W) (hc : s.stream.Control p s.held) (hm : s.stream.Measured p)
    {e : HashEvent W} (hs : s.step p F e = some s') :
    s'.stream.workersWork p + (if e.works then 1 else 0) ≤
      s.stream.workersWork p + (if e.spurious then 1 else 0) := by
  cases e with
  | worker i e =>
    obtain ⟨h, hh, rfl⟩ := Option.map_eq_some_iff.mp hs
    cases he : e.spurious with
    | false =>
      have := hc.workerStep_work hsz hm hh he
      simp only [HashEvent.works, HashEvent.spurious, he]
      exact this
    | true =>
      obtain rfl : e = .wake := by
        cases e <;> first | rfl | cases he
      exact Control.wake_work hh
  | recv e =>
    obtain ⟨⟨h, r⟩, hh, rfl⟩ := Option.map_eq_some_iff.mp hs
    rw [returns_stream]
    exact hc.recvStep_work hsz.blockSize_pos hm hh
  | dropLoan l =>
    simp only [step, Option.ite_none_right_eq_some, Option.some.injEq] at hs
    obtain ⟨-, rfl⟩ := hs
    exact (workersWork_dropLoan s.stream l).le
  | close =>
    obtain ⟨h, hh, rfl⟩ := Option.map_eq_some_iff.mp hs
    exact close_work hh
  | join =>
    obtain ⟨h, hh, rfl⟩ := Option.map_eq_some_iff.mp hs
    exact (join_work hh).le

/-- The workers of a stream take a bounded number of steps, whatever the consumer does,
whichever file operations fail and whatever becomes of the content of the file; only
spurious wakeups can add to them. -/
theorem worker_steps_le (hb : 0 < p.blockSize) (hsize : p.fileSize + W * p.blockSize ≤ 2 ^ p.bits)
    {es : List (List UInt8 × HashEvent W)}
    (h : run (fun s e => s.step p e.1 e.2) (new p W) es = some s) :
    es.countP (·.2.works) ≤
      W * ((p.blocks + W) * (p.blockSize + 8) + p.blocks + W + 8) + es.countP (·.2.spurious) := by
  have hsz : Sizes p W := ⟨hb, .of_le hb hsize⟩
  have hle := run_countP_le (I := fun s : HashSystem W =>
      s.stream.Control p s.held ∧ s.stream.Measured p)
    (fun s => s.stream.workersWork p) (·.2.works) (·.2.spurious) 1
    (fun s e t ⟨hc, hm⟩ ht => ⟨control_step hc ht, measured_step hsz hc hm ht⟩)
    (fun s e t ⟨hc, hm⟩ ht => step_work hsz hc hm ht)
    ⟨control_hashFile p, measured_hashFile hb⟩ h
  have hstart := workersWork_hashFile_le p W
  simp only [new] at hle
  omega

/-- The file is truncated before its only worker reads it. -/
def truncatedRun : List (List UInt8 × HashEvent 1) :=
  [([7], .worker solo (.openFile (.ok ()))), ([7], .worker solo (.seekStart (.ok ()))),
    ([7], .worker solo .loopHead), ([], .worker solo (.read 1)), ([], .worker solo .publish),
    ([], .worker solo .closeTx), ([], .worker solo .exit)]

theorem worker_steps_le_truncated :
    ∃ s, run (fun s e => s.step oneByte e.1 e.2) (new oneByte 1) truncatedRun = some s ∧
      s.stream.error = some "Failed to read block 0: failed to fill whole buffer" ∧
      truncatedRun.countP (·.2.works) = 7 ∧
      truncatedRun.countP (·.2.works) ≤
        1 * ((oneByte.blocks + 1) * (oneByte.blockSize + 8) + oneByte.blocks + 1 + 8) +
          truncatedRun.countP (·.2.spurious) := by
  have hrun : (run (fun s e => s.step oneByte e.1 e.2) (new oneByte 1) truncatedRun).map
      (·.stream.error) = some (some "Failed to read block 0: failed to fill whole buffer") := by rfl
  obtain ⟨s, hs, herr⟩ := Option.map_eq_some_iff.mp hrun
  exact ⟨s, hs, herr, rfl, worker_steps_le (by decide) (by decide) hs⟩

end HashSystem

end Deltasync
