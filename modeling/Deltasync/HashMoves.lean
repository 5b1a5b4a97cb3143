import Deltasync.HashFile
import Deltasync.OrderedDelivery

/-!
# What a step of a hash stream can do

`WorkerMove` and `RecvMove` list the steps of a worker and of `recv` one by one,
each with what it found.  All that is proved about the stream goes through these
two lists.
-/

namespace Deltasync.HashStream

variable {W : ℕ} {p : HashFile} {F : List UInt8} {h h' : HashStream W}

/-- The stream after a turn of `tx.send`; `none` means that the worker is still in it. -/
def afterSend (h : HashStream W) (i : Fin W) (c : OrderedChannel (Fin W) ℕ (Item W)) :
    Option SendResult → HashStream W
  | none => { h with chan := c }
  | some .sent => { h with chan := c }.setWorker i { h.worker i with pc := .reclaiming }
  | some .closed => { h with chan := c }.setWorker i { h.worker i with pc := .leaving }

/-- The steps of worker `i`. -/
inductive WorkerMove (p : HashFile) (F : List UInt8) (h : HashStream W) (i : Fin W) :
    WorkerEvent → HashStream W → Prop where
  | openOk {u} (hpc : (h.worker i).pc = .opening) :
      WorkerMove p F h i (.openFile (.ok u)) (h.setWorker i { h.worker i with pc := .seeking })
  | openError {err} (hpc : (h.worker i).pc = .opening) :
      WorkerMove p F h i (.openFile (.error err)) (h.setWorker i { h.worker i with
        pc := .failed s!"Failed to open file: {err}" })
  | seekOk {u} (hpc : (h.worker i).pc = .seeking) :
      WorkerMove p F h i (.seekStart (.ok u)) (h.setWorker i { h.worker i with
        pc := .head, cursor := (h.worker i).offset, buffer := List.replicate p.blockSize 0 })
  | seekError {err} (hpc : (h.worker i).pc = .seeking) :
      WorkerMove p F h i (.seekStart (.error err)) (h.setWorker i { h.worker i with
        pc := .failed s!"Failed to seek: {err}" })
  | enterBlock (hpc : (h.worker i).pc = .head) (hlt : (h.worker i).offset < p.fileSize)
      (herr : h.error = none) :
      WorkerMove p F h i .loopHead (h.setWorker i { h.worker i with
        pc := .reading
        buffer := Blocks.resize 0 (h.worker i).buffer (currentBlockSize p (h.worker i))
        filled := 0 })
  | leaveLoop (hpc : (h.worker i).pc = .head)
      (hend : p.fileSize ≤ (h.worker i).offset ∨ h.error.isSome = true) :
      WorkerMove p F h i .loopHead (h.setWorker i { h.worker i with pc := .leaving })
  | read {n} (hpc : (h.worker i).pc = .reading) (hn : 0 < n)
      (hlt : (h.worker i).filled < (h.worker i).buffer.length) :
      WorkerMove p F h i (.read n) (h.setWorker i (readSome F (h.worker i) n))
  | readFails {err} (hpc : (h.worker i).pc = .reading) :
      WorkerMove p F h i (.readFails err) (h.setWorker i { h.worker i with
        pc := .failed s!"Failed to read block {(h.worker i).blockIdx}: {err}" })
  | send {c} (hpc : (h.worker i).pc = .reading)
      (hfull : (h.worker i).filled = (h.worker i).buffer.length)
      (hc : h.chan.callSend i (h.worker i).blockIdx (blockData p i (h.worker i)) = some c) :
      WorkerMove p F h i .send ({ h with chan := c }.setWorker i { h.worker i with
        pc := .sending, buffer := [] })
  | sendStep {c r} (hpc : (h.worker i).pc = .sending) (hc : h.chan.sendStep i = some (c, r)) :
      WorkerMove p F h i .sendStep (h.afterSend i c r)
  | wake {idx v} (hpc : (h.worker i).pc = .sending) (hi : h.chan.send i = .waiting idx v) :
      WorkerMove p F h i .wake { h with chan := h.chan.setSend i (.locking idx v) }
  | reclaim {b} (hpc : (h.worker i).pc = .reclaiming) (hb : (h.worker i).returned = some b) :
      WorkerMove p F h i .reclaim (h.setWorker i { h.worker i with
        pc := .seekingNext, buffer := b, returned := none })
  | nextBlock {u w} (hpc : (h.worker i).pc = .seekingNext)
      (hw : HashStream.nextBlock p W (h.worker i) = some w) :
      WorkerMove p F h i (.seekNext (.ok u)) (h.setWorker i w)
  | seekNextError {err} (hpc : (h.worker i).pc = .seekingNext) :
      WorkerMove p F h i (.seekNext (.error err)) (h.setWorker i { h.worker i with
        pc := .failed s!"Failed to seek to next block: {err}" })
  | publish {msg} (hpc : (h.worker i).pc = .failed msg) :
      WorkerMove p F h i .publish ({ h with error := some msg, errorSeen := false }.setWorker i
        { h.worker i with pc := .closing })
  | closeTx {c} (hpc : (h.worker i).pc = .closing) (hc : h.chan.closeTx i = some c) :
      WorkerMove p F h i .closeTx ({ h with chan := c }.setWorker i
        { h.worker i with pc := .leaving })
  | exit {c} (hpc : (h.worker i).pc = .leaving) (hc : h.chan.dropTx i = some c) :
      WorkerMove p F h i .exit ({ h with chan := c }.setWorker i
        { h.worker i with pc := .exited })

theorem workerMove_of_step {i : Fin W} {e : WorkerEvent} (hs : h.workerStep p F i e = some h') :
    WorkerMove p F h i e h' := by
  unfold workerStep at hs
  dsimp only at hs
  -- the cases come in the order of the `match`
  split at hs
  · next hpc => exact Option.some.inj hs ▸ .openOk hpc
  · next hpc => exact Option.some.inj hs ▸ .openError hpc
  · next hpc => exact Option.some.inj hs ▸ .seekOk hpc
  · next hpc => exact Option.some.inj hs ▸ .seekError hpc
  · next hpc =>
    split_ifs at hs with hlt
    · exact Option.some.inj hs ▸ .enterBlock hpc hlt.1 hlt.2
    · refine Option.some.inj hs ▸ .leaveLoop hpc ?_
      by_contra! hcon
      exact hlt ⟨by omega, by simpa using hcon.2⟩
  · next n hpc =>
    simp only [Option.ite_none_right_eq_some, Option.some.injEq] at hs
    obtain ⟨⟨hn, hlt⟩, rfl⟩ := hs
    exact .read hpc hn hlt
  · next err hpc => exact Option.some.inj hs ▸ .readFails hpc
  · next hpc =>
    simp only [Option.ite_none_right_eq_some, Option.map_eq_some_iff] at hs
    obtain ⟨hfull, c, hc, rfl⟩ := hs
    exact .send hpc hfull hc
  · next hpc =>
    obtain ⟨⟨c, r⟩, hc, rfl⟩ := Option.map_eq_some_iff.mp hs
    rcases r with _ | _ | _ <;> exact .sendStep hpc hc
  · next hpc =>
    obtain ⟨c, hc, rfl⟩ := Option.map_eq_some_iff.mp hs
    unfold OrderedChannel.wakeOne at hc
    split at hc
    · next idx v hi => exact Option.some.inj hc ▸ .wake hpc hi
    · cases hc
  · next hpc =>
    obtain ⟨b, hb, rfl⟩ := Option.map_eq_some_iff.mp hs
    exact .reclaim hpc hb
  · next hpc =>
    obtain ⟨w, hw, rfl⟩ := Option.map_eq_some_iff.mp hs
    exact .nextBlock hpc hw
  · next hpc => exact Option.some.inj hs ▸ .seekNextError hpc
  · next msg hpc => exact Option.some.inj hs ▸ .publish hpc
  · next hpc =>
    obtain ⟨c, hc, rfl⟩ := Option.map_eq_some_iff.mp hs
    exact .closeTx hpc hc
  · next hpc =>
    obtain ⟨c, hc, rfl⟩ := Option.map_eq_some_iff.mp hs
    exact .exit hpc hc
  · cases hs

/-- A worker that has returned does nothing more. -/
theorem workerStep_exited {i : Fin W} {e : WorkerEvent} (hpc : (h.worker i).pc = .exited) :
    h.workerStep p F i e = none := by
  unfold workerStep
  simp only [hpc]

/-- The steps of `recv`, with its result when it returns. -/
inductive RecvMove (h : HashStream W) :
    RecvEvent → HashStream W → Option (RecvResult W) → Prop where
  | enterFailed {err} (halive : h.phase = .alive) (hp : h.polling = false)
      (herr : h.error = some err) :
      RecvMove h .enter { h with errorSeen := true }
        (some (.error s!"Hash worker failed: {err}"))
  | enter (halive : h.phase = .alive) (hp : h.polling = false) (herr : h.error = none) :
      RecvMove h .enter { h with errorSeen := true, polling := true } none
  | pollAgain (hp : h.polling = true) (hidle : h.chan.recv = .idle)
      (hc : h.chan.recvEnter = some { h.chan with recv := .awaiting }) :
      RecvMove h .poll { h with chan := { h.chan with recv := .awaiting } } none
  | announce {c} (hp : h.polling = true) (hidle : h.chan.recv = .idle)
      (hc : h.chan.recvEnter = some c)
      (heq : c = { h.chan.notifyAll with
        wantedIdx := some (OrderedChannel.nextIdx h.chan.wantedIdx)
        receiving := true
        recv := .awaiting }) :
      RecvMove h .poll { h with chan := c } none
  | take {v} (hp : h.polling = true) (hw : h.chan.recv = .awaiting) (hv : h.chan.slot = some v)
      (hc : h.chan.recvTake = some { h.chan with recv := .took v, slot := none }) :
      RecvMove h .take { h with chan := { h.chan with recv := .took v, slot := none } } none
  | finish {v c} (hp : h.polling = true) (ht : h.chan.recv = .took v)
      (hc : h.chan.recvFinish = some (c, v))
      (heq : c = { h.chan with
        receiving := false, recv := .idle, delivered := h.chan.delivered ++ [v] }) :
      RecvMove h .finish { h with chan := c, polling := false } (some (.ok (some v)))
  | ended (hp : h.polling = true) (hw : h.chan.recv = .awaiting) (hslot : h.chan.slot = none)
      (hend : h.chan.rxClosed = true ∨ ∀ i, h.chan.dropped i = true) :
      RecvMove h .none { h with chan := { h.chan with recv := .idle }, polling := false }
        (some (.ok none))
  | error {err} (hp : h.polling = true) (herr : h.error = some err)
      (hv : h.chan.recv.value = []) :
      RecvMove h .error { h with
        chan := { h.chan with recv := .idle }, polling := false, errorSeen := true }
        (some (.error s!"Hash worker failed: {err}"))
  | cancel (hp : h.polling = true) (hv : h.chan.recv.value = []) :
      RecvMove h .cancel { h with chan := { h.chan with recv := .idle }, polling := false } none

theorem recvMove_of_step {e : RecvEvent} {r : Option (RecvResult W)}
    (hs : h.recvStep e = some (h', r)) : RecvMove h e h' r := by
  cases e with
  | enter =>
    simp only [recvStep, Option.ite_none_right_eq_some] at hs
    obtain ⟨⟨halive, hp⟩, hs⟩ := hs
    split at hs
    · next err herr =>
      simp only [Option.some.injEq, Prod.mk.injEq] at hs
      obtain ⟨rfl, rfl⟩ := hs
      exact .enterFailed halive hp herr
    · next herr =>
      simp only [Option.some.injEq, Prod.mk.injEq] at hs
      obtain ⟨rfl, rfl⟩ := hs
      exact .enter halive hp herr
  | poll =>
    simp only [recvStep, Option.ite_none_right_eq_some, Option.map_eq_some_iff,
      Prod.mk.injEq] at hs
    obtain ⟨hp, c, hc, rfl, rfl⟩ := hs
    have hc' := hc
    unfold OrderedChannel.recvEnter at hc
    split at hc
    · next hidle =>
      split_ifs at hc
      · obtain rfl := Option.some.inj hc
        exact .pollAgain hp hidle hc'
      · exact .announce hp hidle hc' (Option.some.inj hc).symm
    · cases hc
  | take =>
    simp only [recvStep, Option.ite_none_right_eq_some, Option.map_eq_some_iff,
      Prod.mk.injEq] at hs
    obtain ⟨hp, c, hc, rfl, rfl⟩ := hs
    have hc' := hc
    unfold OrderedChannel.recvTake at hc
    split at hc
    · next v hw hv =>
      obtain rfl := Option.some.inj hc
      exact .take hp hw hv hc'
    · cases hc
  | finish =>
    simp only [recvStep, Option.ite_none_right_eq_some, Option.map_eq_some_iff] at hs
    obtain ⟨hp, ⟨c, v⟩, hc, hs⟩ := hs
    simp only [Prod.mk.injEq] at hs
    obtain ⟨rfl, rfl⟩ := hs
    have hc' := hc
    unfold OrderedChannel.recvFinish at hc
    split at hc
    · next v' ht =>
      split_ifs at hc
      simp only [Option.some.injEq, Prod.mk.injEq] at hc
      obtain ⟨heq, rfl⟩ := hc
      exact .finish hp ht hc' heq.symm
    · cases hc
  | none =>
    simp only [recvStep, Option.ite_none_right_eq_some, Option.map_eq_some_iff,
      Prod.mk.injEq] at hs
    obtain ⟨hp, c, hc, rfl, rfl⟩ := hs
    unfold OrderedChannel.recvNone at hc
    split at hc
    · next hw =>
      simp only [Option.ite_none_right_eq_some, Option.some.injEq] at hc
      obtain ⟨⟨hslot, hend⟩, rfl⟩ := hc
      exact .ended hp hw hslot hend
    · cases hc
  | error =>
    simp only [recvStep, Option.ite_none_right_eq_some] at hs
    obtain ⟨⟨hp, -⟩, hs⟩ := hs
    split at hs
    · next err herr =>
      simp only [Option.map_eq_some_iff, Prod.mk.injEq] at hs
      obtain ⟨c, hc, rfl, rfl⟩ := hs
      obtain ⟨hv, rfl⟩ := OrderedChannel.recvCancel_eq hc
      exact .error hp herr hv
    · cases hs
  | cancel =>
    simp only [recvStep, Option.ite_none_right_eq_some, Option.map_eq_some_iff,
      Prod.mk.injEq] at hs
    obtain ⟨hp, c, hc, rfl, rfl⟩ := hs
    obtain ⟨hv, rfl⟩ := OrderedChannel.recvCancel_eq hc
    exact .cancel hp hv

/-! ## What a step leaves alone -/

/-- The block that a `recv` returned, if it returned one. -/
def RecvResult.blocks : RecvResult W → List (Item W)
  | .ok (some v) => [v]
  | _ => []

/-- What a step of `recv` leaves alone, and what it returns. -/
structure RecvFrame (e : RecvEvent) (h h' : HashStream W) (r : Option (RecvResult W)) : Prop where
  worker : h'.worker = h.worker
  phase : h'.phase = h.phase
  error : h'.error = h.error
  calls : h'.chan.calls = h.chan.calls
  placed : h'.chan.placed = h.chan.placed
  recvClosed : h'.chan.recvClosed = h.chan.recvClosed
  rxClosed : h'.chan.rxClosed = h.chan.rxClosed
  dropped : h'.chan.dropped = h.chan.dropped
  delivered : h'.chan.delivered = h.chan.delivered ++ r.toList.flatMap RecvResult.blocks
  polling : r ≠ none → h'.polling = false
  ended : r = some (.ok none) → e = .none
  failed : ∀ err, r = some (.error err) → h.error ≠ none

theorem recvStep_frame {e : RecvEvent} {r : Option (RecvResult W)}
    (hs : h.recvStep e = some (h', r)) : RecvFrame e h h' r := by
  cases recvMove_of_step hs with
  | enterFailed halive hp herr =>
    exact ⟨rfl, rfl, rfl, rfl, rfl, rfl, rfl, rfl, by simp [RecvResult.blocks], fun _ => hp,
      by simp, by simp [herr]⟩
  | enter | pollAgain | take | cancel =>
    exact ⟨rfl, rfl, rfl, rfl, rfl, rfl, rfl, rfl, by simp, by simp, by simp, by simp⟩
  | announce hp hidle hcs heq =>
    subst heq
    exact ⟨rfl, rfl, rfl, rfl, rfl, rfl, rfl, rfl, by simp [OrderedChannel.notifyAll], by simp,
      by simp, by simp⟩
  | finish hp ht hcs heq =>
    subst heq
    exact ⟨rfl, rfl, rfl, rfl, rfl, rfl, rfl, rfl, by simp [RecvResult.blocks], fun _ => rfl,
      by simp, by simp⟩
  | ended =>
    exact ⟨rfl, rfl, rfl, rfl, rfl, rfl, rfl, rfl, by simp [RecvResult.blocks], fun _ => rfl,
      fun _ => rfl, by simp⟩
  | error hp herr hv =>
    exact ⟨rfl, rfl, rfl, rfl, rfl, rfl, rfl, rfl, by simp [RecvResult.blocks], fun _ => rfl,
      by simp, by simp [herr]⟩

/-- Dropping the future of `recv` touches only the position of the receiver. -/
theorem cancelRecv_frame (h : HashStream W) :
    RecvFrame .cancel h h.cancelRecv none := by
  unfold cancelRecv
  split
  · next h' r hs =>
    have hr : r = none := by
      cases recvMove_of_step hs
      rfl
    rw [← hr]
    exact recvStep_frame hs
  · exact ⟨rfl, rfl, rfl, rfl, rfl, rfl, rfl, rfl, by simp, by simp, by simp, by simp⟩

theorem delivered_cancelRecv (h : HashStream W) :
    h.cancelRecv.chan.delivered = h.chan.delivered := by
  simpa using (cancelRecv_frame h).delivered

theorem busy_eq_false : h.busy = false ↔ h.chan.recv.value = [] := by
  unfold busy
  cases h.chan.recv <;> simp [RecvCall.value]

/-- Closing the stream and joining a worker change no more than flags. -/
structure DropFrame (h h' : HashStream W) : Prop where
  worker : h'.worker = h.worker
  error : h'.error = h.error
  calls : h'.chan.calls = h.chan.calls
  placed : h'.chan.placed = h.chan.placed
  delivered : h'.chan.delivered = h.chan.delivered
  slot : h'.chan.slot = h.chan.slot
  dropped : h'.chan.dropped = h.chan.dropped
  polling : h'.polling = h.polling

theorem close_frame (hs : h.close = some h') : DropFrame h h' ∧ h'.phase = .joining 0 := by
  simp only [HashStream.close, Option.ite_none_right_eq_some, Option.map_eq_some_iff] at hs
  obtain ⟨-, c, hcs, rfl⟩ := hs
  unfold OrderedChannel.closeRx at hcs
  split at hcs
  case h_2 => cases hcs
  case h_1 =>
    split_ifs at hcs <;> obtain rfl := Option.some.inj hcs <;>
      exact ⟨⟨rfl, rfl, rfl, rfl, rfl, rfl, rfl, rfl⟩, rfl⟩

theorem join_frame (hs : h.join = some h') : DropFrame h h' ∧ h'.chan = h.chan := by
  unfold HashStream.join at hs
  split at hs
  case h_2 => cases hs
  case h_1 =>
    split_ifs at hs <;> obtain rfl := Option.some.inj hs <;>
      exact ⟨⟨rfl, rfl, rfl, rfl, rfl, rfl, rfl, rfl⟩, rfl⟩

/-! ## The consumer of a stream -/

/-- What the owner of a stream can do to it in one step of its own, which is made of several
of these where a loop comes round or leaves. -/
inductive Consumes (h : HashStream W) : HashStream W → Prop where
  | refl : Consumes h h
  | cancelRecv {g : HashStream W} (hg : Consumes h g) : Consumes h g.cancelRecv
  | dropLoan {g : HashStream W} (hg : Consumes h g) (l : Loan (Fin W) (List UInt8)) :
      Consumes h (g.dropLoan l)
  | recvStep {g g' : HashStream W} {e : RecvEvent} {r : Option (RecvResult W)}
      (hg : Consumes h g) (hs : g.recvStep e = some (g', r)) : Consumes h g'
  | close {g g' : HashStream W} (hg : Consumes h g) (hs : g.close = some g') : Consumes h g'
  | join {g g' : HashStream W} (hg : Consumes h g) (hs : g.join = some g') : Consumes h g'

theorem Consumes.dropLoans {g : HashStream W} (hg : Consumes h g)
    (loans : List (Loan (Fin W) (List UInt8))) :
    Consumes h (loans.foldl HashStream.dropLoan g) := by
  induction loans generalizing g with
  | nil => exact hg
  | cons l loans ih => exact ih (hg.dropLoan l)

/-- What was delivered stays delivered. -/
theorem Consumes.delivered {g : HashStream W} (hg : Consumes h g) :
    h.chan.delivered <+: g.chan.delivered := by
  induction hg with
  | refl => exact List.prefix_rfl
  | cancelRecv _ ih => rwa [delivered_cancelRecv]
  | dropLoan _ l ih => exact ih
  | recvStep _ hs ih =>
    rw [(recvStep_frame hs).delivered]
    exact ih.trans (List.prefix_append _ _)
  | close _ hs ih => rwa [(close_frame hs).1.delivered]
  | join _ hs ih => rwa [(join_frame hs).1.delivered]

end Deltasync.HashStream
