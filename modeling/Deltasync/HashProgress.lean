import Deltasync.HashContent

/-!
# When a hash stream can go on

A worker waits for its buffer, or for its turn at the channel.  If the consumer
holds no loan and nothing lies in the channel, no worker waits for its buffer;
and once an index is announced, the worker of this index does not wait for its
turn.  Hence a `recv` on a stream with blocks left comes to its end, and so does
the drop of a stream whose blocks have all been received.
-/

namespace Deltasync

open Blocks

/-- A step that does happen sooner or later: no operation fails, and no wakeup is spurious. -/
def WorkerEvent.progress : WorkerEvent → Bool
  | .wake => false
  | e => e.succeeds

namespace HashStream

variable {W : ℕ} {p : HashFile} {D F : List UInt8} {h : HashStream W}
  {held : List (Loan (Fin W) (List UInt8))}

/-- A worker that waits neither for its buffer nor for its turn can go on, whatever is in the
file. -/
theorem Control.worker_moves_of_filled (hseeks : usize p.bits ((W - 1) * p.blockSize) < 2 ^ 63)
    (hc : h.Control p held) {i : Fin W}
    (hfill : (h.worker i).pc = .reading → (h.worker i).filled ≤ (h.worker i).buffer.length)
    (hfree : i ∉ owners h.chan held) (hturn : ∀ idx v, h.chan.send i ≠ .waiting idx v)
    (hpc : (h.worker i).pc ≠ .exited) :
    ∃ e h', e.progress = true ∧ h.workerStep p F i e = some h' := by
  have hw := hc.worker i
  cases hi : (h.worker i).pc with
  | opening => exact ⟨.openFile (.ok ()), _, rfl, by simp only [HashStream.workerStep, hi]; rfl⟩
  | seeking => exact ⟨.seekStart (.ok ()), _, rfl, by simp only [HashStream.workerStep, hi]; rfl⟩
  | head =>
    exact ⟨.loopHead, _, rfl, by simp only [HashStream.workerStep, hi, ← apply_ite some]; rfl⟩
  | reading =>
    have hle := hfill hi
    by_cases hlt : (h.worker i).filled < (h.worker i).buffer.length
    · exact ⟨.read 1, _, rfl, by
        simp only [HashStream.workerStep, hi, if_pos (And.intro Nat.one_pos hlt)]; rfl⟩
    · have hfull : (h.worker i).filled = (h.worker i).buffer.length := by omega
      have hdrop : h.chan.dropped i = false := by simpa [hi] using hw.dropped
      exact ⟨.send, _, rfl, by
        simp only [HashStream.workerStep, hi, if_pos hfull, OrderedChannel.callSend,
          hw.idle (by simp [hi]), hdrop]; rfl⟩
  | sending =>
    obtain ⟨v, hreq, -, -⟩ := hw.sending hi
    obtain ⟨idx, u, hlock⟩ : ∃ idx u, h.chan.send i = .locking idx u := by
      cases hsend : h.chan.send i with
      | idle => simp [hsend, SendCall.request] at hreq
      | locking idx u => exact ⟨idx, u, rfl⟩
      | waiting idx u => exact absurd hsend (hturn idx u)
      | blocked idx u => exact absurd hsend (hc.chan.not_blocked i idx u)
    have hsome : ∃ r, h.chan.sendStep i = some r := by
      simp only [OrderedChannel.sendStep, hlock, hc.chan.lock_eq, Option.isSome_none,
        Bool.false_eq_true, if_false]
      split_ifs
      · exact ⟨_, rfl⟩
      · exact ⟨_, rfl⟩
      · exact ⟨_, rfl⟩
    obtain ⟨r, hr⟩ := hsome
    exact ⟨.sendStep, _, rfl, by simp only [HashStream.workerStep, hi, hr]; rfl⟩
  | reclaiming =>
    have hret : (h.worker i).returned ≠ none := fun h1 => hfree (hw.lent.mpr ⟨hi, h1⟩)
    obtain ⟨b, hb⟩ := Option.ne_none_iff_exists'.mp hret
    exact ⟨.reclaim, _, rfl, by simp only [HashStream.workerStep, hi, hb]; rfl⟩
  | seekingNext =>
    -- the seek goes forward
    have hseek : 0 ≤ ((h.worker i).cursor : ℤ) + asI64 (usize p.bits ((W - 1) * p.blockSize)) := by
      rw [asI64, if_pos hseeks]
      positivity
    exact ⟨.seekNext (.ok ()), _, rfl, by
      simp only [HashStream.workerStep, hi, HashStream.nextBlock, if_pos hseek]; rfl⟩
  | failed msg => exact ⟨.publish, _, rfl, by simp only [HashStream.workerStep, hi]; rfl⟩
  | closing =>
    have hdrop : h.chan.dropped i = false := by simpa [hi] using hw.dropped
    exact ⟨.closeTx, _, rfl, by
      simp only [HashStream.workerStep, hi, OrderedChannel.closeTx, hc.chan.lock_eq, hdrop,
        hw.idle (by simp [hi])]; rfl⟩
  | leaving =>
    have hdrop : h.chan.dropped i = false := by simpa [hi] using hw.dropped
    exact ⟨.exit, _, rfl, by
      simp only [HashStream.workerStep, hi, OrderedChannel.dropTx, hdrop,
        hw.idle (by simp [hi])]; rfl⟩
  | exited => exact absurd hi hpc

theorem Control.worker_moves (hfit : Fits p W D) (hc : h.Control p held) (hC : h.Content p D)
    {i : Fin W} (hfree : i ∉ owners h.chan held)
    (hturn : ∀ idx v, h.chan.send i ≠ .waiting idx v) (hpc : (h.worker i).pc ≠ .exited) :
    ∃ e h', e.progress = true ∧ h.workerStep p F i e = some h' :=
  hc.worker_moves_of_filled hfit.seeks (fun hi => ((hC.worker i).reading hi).2.1) hfree hturn hpc

theorem Control.polling_of_busy (hc : h.Control p held) (hbusy : h.busy = true) :
    h.polling = true := by
  by_contra hne
  have hidle := hc.polling (by simpa using hne)
  simp [busy, hidle] at hbusy

/-- A `recv` that holds a value can return it. -/
theorem Control.finish_moves (hc : h.Control p held) (hbusy : h.busy = true) :
    ∃ r, h.recvStep .finish = some r := by
  have hpoll := hc.polling_of_busy hbusy
  unfold busy at hbusy
  split at hbusy
  · next v hv =>
    exact ⟨_, by
      simp only [HashStream.recvStep, hpoll, OrderedChannel.recvFinish, hv, hc.chan.lock_eq]; rfl⟩
  · cases hbusy

/-- The worker of the index announced is not past the end, when there are blocks left. -/
theorem Control.wanted_moves (hfit : Fits p W D) (hc : h.Control p []) (hC : h.Content p D)
    (hh : h.Healthy) (halive : h.phase = .alive) (hawait : h.chan.recv = .awaiting)
    (hslot : h.chan.slot = none)
    (hlt : h.chan.delivered.length < divCeil D.length p.blockSize) :
    ∃ i e h', e.progress = true ∧ h.workerStep p F i e = some h' := by
  have hfl : h.chan.inFlight = [] := by
    simp [OrderedChannel.inFlight, hawait, hslot, RecvCall.value]
  have hplaced : h.chan.placed = h.chan.delivered := by
    rw [hc.chan.placed_eq, hfl, List.append_nil]
  have hwant : h.chan.wantedIdx = some h.chan.placed.length := by
    rw [hc.chan.wanted_eq, hc.chan.receiving_of_pending (.inr hawait),
      OrderedChannel.announced_true, hplaced]
    rfl
  -- worker `i` has the next block
  let i : Fin W := ⟨h.chan.placed.length % W, Nat.mod_lt _ hfit.workers_pos⟩
  have hw := hc.worker i
  refine ⟨i, hc.worker_moves hfit hC ?_ ?_ ?_⟩
  · simp [owners, hfl]
  · -- its turn has come
    intro idx v hwait
    have hpc : (h.worker i).pc = .sending := by
      by_contra hne
      have := hw.idle hne
      simp [hwait, SendCall.request] at this
    obtain ⟨u, hreq, -, -⟩ := hw.sending hpc
    obtain ⟨h1, h2⟩ := hw.window (by rw [hpc]; rfl)
    simp only [Worker.nextIdx, hpc] at h1 h2
    have hidx := eq_of_window h1 h2 hw.residue
    simp only [hwait, SendCall.request, Option.some.injEq, Prod.mk.injEq] at hreq
    refine (hc.chan.waiting_open i idx v hwait).2 ?_
    rw [hwant, hreq.1, hidx]
  · -- it has not left its loop either
    intro hpc
    rcases hw.ended (by rw [hpc]; rfl) with ⟨h1, h2, h3⟩ | h1 | h1
    · have hidx := eq_of_window h1 h2 hw.residue
      rw [(hC.worker i).offset_eq hfit hw.offset_eq, hidx, hfit.size, ← divCeil_le_iff
        hfit.blockSize_pos, hplaced] at h3
      omega
    · simp [hh.error] at h1
    · rcases hc.closed h1 with h1 | h1
      · simp [hh.error] at h1
      · exact h1 halive

/-- A stream with blocks left and no loan held: `recv` goes on, or the worker it waits for. -/
theorem Control.recv_moves (hfit : Fits p W D) (hc : h.Control p []) (hC : h.Content p D)
    (hh : h.Healthy) (halive : h.phase = .alive)
    (hlt : h.chan.delivered.length < divCeil D.length p.blockSize) :
    (∃ e r, e ≠ .cancel ∧ h.recvStep e = some r) ∨
      ∃ i e h', e.progress = true ∧ h.workerStep p F i e = some h' := by
  cases hp : h.polling with
  | false =>
    exact .inl ⟨.enter, _, by simp, by simp only [HashStream.recvStep, halive, hp, hh.error]; rfl⟩
  | true =>
    cases hr : h.chan.recv with
    | idle =>
      refine .inl ⟨.poll, ?_⟩
      simp only [HashStream.recvStep, hp, OrderedChannel.recvEnter, hr, hc.chan.lock_eq,
        Option.isSome_none, Bool.false_eq_true, if_false, if_true]
      split_ifs <;> simp
    | took v =>
      obtain ⟨r, hr⟩ := hc.finish_moves (by simp [busy, hr])
      exact .inl ⟨.finish, r, by simp, hr⟩
    | awaiting =>
      cases hs : h.chan.slot with
      | some v =>
        exact .inl ⟨.take, _, by simp, by
          simp only [HashStream.recvStep, hp, OrderedChannel.recvTake, hr, hs]; rfl⟩
      | none => exact .inr (hc.wanted_moves hfit hC hh halive hr hs hlt)

/-- A stream in which no `recv` is pending can be closed. -/
theorem Control.close_moves (hc : h.Control p held) (hpoll : h.polling = false)
    (halive : h.phase = .alive) : ∃ h', h.close = some h' := by
  simp only [HashStream.close, halive, hpoll, OrderedChannel.closeRx, hc.polling hpoll,
    hc.chan.lock_eq, Option.isSome_none, Bool.false_eq_true, if_false, and_self, if_true]
  split_ifs
  · exact ⟨_, rfl⟩
  · exact ⟨_, rfl⟩

/-- The drop of a stream whose blocks have all been received and given back. -/
theorem Control.drop_moves (hfit : Fits p W D) (hc : h.Control p []) (hC : h.Content p D)
    (hpoll : h.polling = false)
    (hall : divCeil D.length p.blockSize ≤ h.chan.delivered.length) (hph : h.phase ≠ .dropped) :
    (∃ h', h.close = some h') ∨ (∃ h', h.join = some h') ∨
      ∃ i e h', e.progress = true ∧ h.workerStep p F i e = some h' := by
  cases halive : h.phase with
  | alive => exact .inl (hc.close_moves hpoll halive)
  | dropped => exact absurd halive hph
  | joining j =>
    right
    by_cases hj : j < W
    · by_cases hex : (h.worker ⟨j, hj⟩).pc = .exited
      · exact .inl ⟨_, by simp only [HashStream.join, halive, dif_pos hj, if_pos hex]; rfl⟩
      · -- nothing is left in the channel, so that no buffer is out
        have hplaced := (hC.placed_prefix hfit.blockSize_pos hc).length_le
        rw [List.length_map, length_sequential, hc.chan.placed_eq, List.length_append] at hplaced
        have hfl : h.chan.inFlight = [] := List.eq_nil_of_length_eq_zero (by omega)
        have hclosed := (hc.phase_closed (by simp [halive])).1
        refine .inr ⟨⟨j, hj⟩, hc.worker_moves hfit hC (by simp [owners, hfl]) ?_ hex⟩
        intro idx v hwait
        simpa [hclosed] using hc.chan.waiting_open _ idx v hwait
    · exact .inl ⟨_, by simp only [HashStream.join, halive, dif_neg hj]; rfl⟩

end HashStream

end Deltasync
