import Deltasync.OrderedDelivery

/-!
# No wakeup of the ordered channel is lost

A thread sleeps on the condition variable only while its index is not announced
and the channel is open: `recv` and both kinds of `close` notify under the mutex,
so that nobody falls asleep between the change and the notification.  Once the
channel is closed, or its receiver dropped, no value enters the slot any more.
-/

namespace Deltasync

namespace OrderedChannel

variable {ι I T : Type*} {c c' : OrderedChannel ι I T}

/-- A closed channel, as the senders find it: nobody sleeps, and nobody holds the mutex. -/
structure Closed (c : OrderedChannel ι I T) : Prop where
  lock_eq : c.lock = none
  recvClosed : c.recvClosed = true
  not_blocked : ∀ i idx v, c.send i ≠ .blocked idx v
  not_waiting : ∀ i idx v, c.send i ≠ .waiting idx v

theorem Inv.closed [AddMonoidWithOne I] (h : c.Inv) (hc : c.recvClosed = true) : Closed c where
  lock_eq := h.lock_eq
  recvClosed := hc
  not_blocked := h.not_blocked
  not_waiting i idx v hw := by simpa [hc] using (h.waiting_open i idx v hw).1

theorem Closed.locking (h : Closed c) {i : ι} {idx : I} {v : T}
    (hi : (c.send i).request = some (idx, v)) : c.send i = .locking idx v := by
  cases hs : c.send i with
  | idle => simp [hs, SendCall.request] at hi
  | locking idx' v' => simpa [hs, SendCall.request] using hi
  | waiting idx' v' => exact absurd hs (h.not_waiting i idx' v')
  | blocked idx' v' => exact absurd hs (h.not_blocked i idx' v')

/-- What a channel that is closed, or being closed, keeps through a change of the calls. -/
theorem Closed.setSend [DecidableEq ι] (h : Closed c) {i : ι} {x : SendCall I T}
    (hb : ∀ idx v, x ≠ .blocked idx v) (hw : ∀ idx v, x ≠ .waiting idx v) :
    Closed (c.setSend i x) := by
  refine ⟨h.lock_eq, h.recvClosed, ?_, ?_⟩
  · intro j idx v hj
    simp only [OrderedChannel.setSend, Function.update_apply] at hj
    split_ifs at hj
    · exact hb idx v hj
    · exact h.not_blocked j idx v hj
  · intro j idx v hj
    simp only [OrderedChannel.setSend, Function.update_apply] at hj
    split_ifs at hj
    · exact hw idx v hj
    · exact h.not_waiting j idx v hj

section Steps

variable [DecidableEq ι] [DecidableEq I]

/-- A pending call on a closed channel returns its error with its next turn. -/
theorem Closed.sendStep (h : Closed c) {i : ι} {idx : I} {v : T}
    (hi : (c.send i).request = some (idx, v)) :
    c.sendStep i = some (c.setSend i .idle, some .closed) := by
  simp [OrderedChannel.sendStep, h.locking hi, h.lock_eq, h.recvClosed]

theorem Closed.request_of_sendStep (h : Closed c) {i : ι}
    {r : OrderedChannel ι I T × Option SendResult} (hs : c.sendStep i = some r) :
    ∃ idx v, (c.send i).request = some (idx, v) := by
  cases hi : c.send i with
  | idle => simp [OrderedChannel.sendStep, hi] at hs
  | locking idx v => exact ⟨idx, v, rfl⟩
  | waiting idx v => exact absurd hi (h.not_waiting i idx v)
  | blocked idx v => exact absurd hi (h.not_blocked i idx v)

variable [Fintype ι] [AddMonoidWithOne I]

/-- A step of a sender on a closed channel. -/
theorem Closed.step (h : Closed c) {e : Event ι I T} (he : e.ofReceiver = false)
    (hs : c.step e = some c') : Closed c' ∧ c'.placed = c.placed := by
  cases e with
  | callSend i idx v =>
    simp only [OrderedChannel.step, OrderedChannel.callSend, Option.ite_none_right_eq_some,
      Option.some.injEq] at hs
    obtain ⟨-, rfl⟩ := hs
    have hset := h.setSend (i := i) (x := .locking idx v) (by simp) (by simp)
    exact ⟨⟨hset.lock_eq, hset.recvClosed, hset.not_blocked, hset.not_waiting⟩, rfl⟩
  | sendStep i =>
    obtain ⟨r, hr, rfl⟩ := Option.map_eq_some_iff.mp hs
    obtain ⟨idx, v, hi⟩ := h.request_of_sendStep hr
    obtain rfl := Option.some.inj ((h.sendStep hi).symm.trans hr)
    exact ⟨h.setSend (by simp) (by simp), rfl⟩
  | wakeOne i =>
    simp only [OrderedChannel.step, OrderedChannel.wakeOne] at hs
    split at hs
    · next idx v hi => exact absurd hi (h.not_waiting i idx v)
    · cases hs
  | closeTx i =>
    simp only [OrderedChannel.step, OrderedChannel.closeTx, Option.ite_none_right_eq_some,
      Option.some.injEq] at hs
    obtain ⟨-, rfl⟩ := hs
    refine ⟨⟨h.lock_eq, rfl, fun j idx v hj => ?_, fun j idx v => wake_ne_waiting _ idx v⟩, rfl⟩
    exact h.not_blocked j idx v (wake_eq_blocked hj)
  | dropTx i =>
    simp only [OrderedChannel.step, OrderedChannel.dropTx, Option.ite_none_right_eq_some,
      Option.some.injEq] at hs
    obtain ⟨-, rfl⟩ := hs
    exact ⟨⟨h.lock_eq, h.recvClosed, h.not_blocked, h.not_waiting⟩, rfl⟩
  | recvEnter | recvTake | recvNone | recvFinish | recvCancel | closeRx => cases he

/-- A step of the receiver places nothing, and does not open the channel again. -/
theorem closed_of_receiver {e : Event ι I T} (he : e.ofReceiver = true) (hs : c.step e = some c') :
    c'.placed = c.placed ∧ (c.recvClosed = true → c'.recvClosed = true) := by
  cases e with
  | callSend | sendStep | wakeOne | closeTx | dropTx => cases he
  | recvEnter =>
    simp only [step, recvEnter] at hs
    split at hs
    · split_ifs at hs <;> obtain rfl := Option.some.inj hs <;> exact ⟨rfl, id⟩
    · cases hs
  | recvTake =>
    simp only [step, recvTake] at hs
    split at hs
    · obtain rfl := Option.some.inj hs
      exact ⟨rfl, id⟩
    · cases hs
  | recvNone =>
    simp only [step, recvNone] at hs
    split at hs
    · simp only [Option.ite_none_right_eq_some, Option.some.injEq] at hs
      obtain ⟨-, rfl⟩ := hs
      exact ⟨rfl, id⟩
    · cases hs
  | recvFinish =>
    obtain ⟨⟨d, v⟩, hd, rfl⟩ := Option.map_eq_some_iff.mp hs
    unfold recvFinish at hd
    split at hd
    · simp only [Option.ite_none_left_eq_some, Option.some.injEq, Prod.mk.injEq] at hd
      obtain ⟨-, rfl, -⟩ := hd
      exact ⟨rfl, id⟩
    · cases hd
  | recvCancel =>
    obtain ⟨-, rfl⟩ := recvCancel_eq hs
    exact ⟨rfl, id⟩
  | closeRx =>
    simp only [step, closeRx] at hs
    split at hs
    · split_ifs at hs <;> obtain rfl := Option.some.inj hs
      · exact ⟨rfl, id⟩
      · exact ⟨rfl, fun _ => rfl⟩
    · cases hs

end Steps

theorem dropRx_frame (hs : c.dropRx = some c') :
    c'.recvClosed = true ∧ c'.placed = c.placed ∧ c'.calls = c.calls := by
  obtain ⟨b, hb, rfl⟩ := Option.map_eq_some_iff.mp hs
  unfold closeRx at hb
  split at hb
  · split_ifs at hb with h1 h2 <;> obtain rfl := Option.some.inj hb
    · exact ⟨h2, rfl, rfl⟩
    · exact ⟨rfl, rfl, rfl⟩
  · cases hb

theorem Inv.dropRx [AddMonoidWithOne I] (h : c.Inv) (hs : c.dropRx = some c') : Closed c' := by
  have hc := (dropRx_frame hs).1
  obtain ⟨b, hb, rfl⟩ := Option.map_eq_some_iff.mp hs
  have hclosed := (h.closeRx hb).closed hc
  exact ⟨hclosed.lock_eq, hclosed.recvClosed, hclosed.not_blocked, hclosed.not_waiting⟩

end OrderedChannel

namespace DroppableChannel

open OrderedChannel Transition

variable {ι I T : Type*} [DecidableEq ι] [Fintype ι] [DecidableEq I] [AddMonoidWithOne I]
  {d d' : DroppableChannel ι I T}

/-- Without a receiver all that is left of the invariant is that the channel is closed. -/
structure Inv (d : DroppableChannel ι I T) : Prop where
  chan : d.rxDropped = false → d.chan.Inv
  dropped : d.rxDropped = true → Closed d.chan

omit [DecidableEq ι] [Fintype ι] [DecidableEq I] in
theorem Inv.closed (h : d.Inv) (hc : d.chan.recvClosed = true) : Closed d.chan := by
  cases hrx : d.rxDropped with
  | false => exact (h.chan hrx).closed hc
  | true => exact h.dropped hrx

theorem Inv.step (h : d.Inv) {e : Event ι I T} (hn : (d'.chan.calls.map Prod.fst).Nodup)
    (hs : d.step e = some d') : d'.Inv := by
  cases e with
  | chan e =>
    simp only [DroppableChannel.step, Option.ite_none_left_eq_some, Option.map_eq_some_iff] at hs
    obtain ⟨hrx, c, hc, rfl⟩ := hs
    refine ⟨fun hd => (h.chan hd).step hn hc, fun hd => ((h.dropped hd).step ?_ hc).1⟩
    simpa [show d.rxDropped = true from hd] using hrx
  | dropRx =>
    simp only [DroppableChannel.step, Option.ite_none_left_eq_some, Option.map_eq_some_iff] at hs
    obtain ⟨hrx, c, hc, rfl⟩ := hs
    exact ⟨by simp, fun _ => (h.chan (by simpa using hrx)).dropRx hc⟩

theorem calls_grow {e : Event ι I T} (hs : d.step e = some d') :
    d.chan.calls <+: d'.chan.calls := by
  cases e with
  | chan e =>
    simp only [DroppableChannel.step, Option.ite_none_left_eq_some, Option.map_eq_some_iff] at hs
    obtain ⟨-, c, hc, rfl⟩ := hs
    rcases calls_step hc with heq | ⟨i, idx, v, -, heq⟩ <;> rw [heq]
    exact List.prefix_append _ _
  | dropRx =>
    simp only [DroppableChannel.step, Option.ite_none_left_eq_some, Option.map_eq_some_iff] at hs
    obtain ⟨-, c, hc, rfl⟩ := hs
    rw [(dropRx_frame hc).2.2]

/-- From a state with distinct indices every earlier one had distinct indices. -/
theorem inv_of_run_from {es : List (Event ι I T)} (h : d.Inv) (hr : run step d es = some d')
    (hn : (d'.chan.calls.map Prod.fst).Nodup) : d'.Inv := by
  refine run_induction (P := fun _ d => (d.chan.calls.map Prod.fst).Nodup → d.Inv)
    (fun _ => h) ?_ hr hn
  intro es u e t _ ih hs hn'
  exact (ih (hn'.sublist ((calls_grow hs).sublist.map _))).step hn' hs

/-- Once the channel is closed it stays so, and nothing is placed any more. -/
theorem Inv.closed_step (h : d.Inv) (hc : d.chan.recvClosed = true) {e : Event ι I T}
    (hs : d.step e = some d') :
    d'.chan.recvClosed = true ∧ d'.chan.placed = d.chan.placed := by
  cases e with
  | chan e =>
    simp only [DroppableChannel.step, Option.ite_none_left_eq_some, Option.map_eq_some_iff] at hs
    obtain ⟨-, c, hstep, rfl⟩ := hs
    cases he : e.ofReceiver with
    | true => exact ⟨(closed_of_receiver he hstep).2 hc, (closed_of_receiver he hstep).1⟩
    | false =>
      obtain ⟨h1, h2⟩ := (h.closed hc).step he hstep
      exact ⟨h1.recvClosed, h2⟩
  | dropRx =>
    simp only [DroppableChannel.step, Option.ite_none_left_eq_some, Option.map_eq_some_iff] at hs
    obtain ⟨-, c, hstep, rfl⟩ := hs
    exact ⟨(dropRx_frame hstep).1, (dropRx_frame hstep).2.1⟩

/-- No lost wakeup, and no wait with the mutex held.  In every state that the threads and
the receiver reach, with the cancellations, the two `close`s and the drop of the
receiver in any order: a thread asleep waits for an index that is not announced, on an
open channel; a thread that reaches `blocking_send` finds the slot empty, so that none
waits there; and on a closed channel every pending `send` returns its error with its
next turn, and nothing is placed later. -/
theorem no_lost_wakeup {es : List (Event ι I T)} (h : run step new es = some d)
    (hn : (d.chan.calls.map Prod.fst).Nodup) :
    (∀ i idx v, d.chan.send i = .waiting idx v →
        d.chan.recvClosed = false ∧ d.chan.wantedIdx ≠ some idx) ∧
      (∀ i idx v, d.chan.send i = .locking idx v → d.chan.recvClosed = false →
        d.chan.wantedIdx = some idx → d.chan.slot = none ∧ d.chan.rxClosed = false) ∧
      (d.chan.lock = none ∧ ∀ i idx v, d.chan.send i ≠ .blocked idx v) ∧
      (d.chan.recvClosed = true →
        (∀ i idx v, (d.chan.send i).request = some (idx, v) →
          d.chan.sendStep i = some (d.chan.setSend i .idle, some .closed)) ∧
        ∀ es' d', run step d es' = some d' → (d'.chan.calls.map Prod.fst).Nodup →
          d'.chan.recvClosed = true ∧ d'.chan.placed = d.chan.placed) := by
  have hinv : d.Inv := inv_of_run_from ⟨fun _ => OrderedChannel.inv_new, by simp [new]⟩ h hn
  refine ⟨fun i idx v hi => ?_, fun i idx v hi hopen hw => ?_, ?_, fun hc => ⟨?_, ?_⟩⟩
  · cases hrx : d.rxDropped with
    | false => exact (hinv.chan hrx).waiting_open i idx v hi
    | true => exact absurd hi ((hinv.dropped hrx).not_waiting i idx v)
  · cases hrx : d.rxDropped with
    | false =>
      have hfl := ((hinv.chan hrx).slot_empty (i := i) (v := v) (by rw [hi]; rfl) hw).1
      refine ⟨(slot_of_inFlight hfl).1, ?_⟩
      by_contra hcon
      have := (hinv.chan hrx).recvClosed_of_rxClosed (by simpa using hcon)
      simp [hopen] at this
    | true => simp [(hinv.dropped hrx).recvClosed] at hopen
  · cases hrx : d.rxDropped with
    | false => exact ⟨(hinv.chan hrx).lock_eq, (hinv.chan hrx).not_blocked⟩
    | true => exact ⟨(hinv.dropped hrx).lock_eq, (hinv.dropped hrx).not_blocked⟩
  · exact fun i idx v hi => (hinv.closed hc).sendStep hi
  · intro es' d' hr hn'
    -- the invariant needs distinct indices only up to the state it is about
    refine run_induction (P := fun _ u => (u.chan.calls.map Prod.fst).Nodup →
      u.chan.recvClosed = true ∧ u.chan.placed = d.chan.placed) (fun _ => ⟨hc, rfl⟩) ?_ hr hn'
    intro fs u e t hu ih hs hnt
    have hnu := hnt.sublist ((calls_grow hs).sublist.map _)
    obtain ⟨h1, h2⟩ := ih hnu
    obtain ⟨h3, h4⟩ := (inv_of_run_from hinv hu hnu).closed_step h1 hs
    exact ⟨h3, h4.trans h2⟩

/-- Three senders: the first value is taken, the second sender sleeps, a third one closes the
channel and a new call comes after that; then the receiver is dropped. -/
def closedRun : List (Event (Fin 3) ℕ Char) :=
  [.chan (.callSend 1 1 'b'), .chan (.sendStep 1), .chan .recvEnter, .chan .recvCancel,
    .chan (.callSend 0 0 'a'), .chan (.sendStep 0), .chan (.closeTx 2), .chan (.callSend 2 2 'c'),
    .dropRx]

theorem no_lost_wakeup_closed :
    ∃ d : DroppableChannel (Fin 3) ℕ Char, run step new closedRun = some d ∧
      (d.chan.sendStep 1).map Prod.snd = some (some .closed) ∧
      (d.chan.sendStep 2).map Prod.snd = some (some .closed) := by
  have hrun : (run step new closedRun).map (fun d : DroppableChannel (Fin 3) ℕ Char =>
      (d.chan.recvClosed, d.chan.calls, d.chan.send 1, d.chan.send 2)) =
      some (true, [(1, 'b'), (0, 'a'), (2, 'c')], .locking 1 'b', .locking 2 'c') := by rfl
  obtain ⟨d, hd, heq⟩ := Option.map_eq_some_iff.mp hrun
  simp only [Prod.mk.injEq] at heq
  obtain ⟨hc, hcalls, h1, h2⟩ := heq
  obtain ⟨-, -, -, hclosed⟩ := no_lost_wakeup hd (by rw [hcalls]; decide)
  refine ⟨d, hd, ?_, ?_⟩
  · rw [(hclosed hc).1 1 1 'b' (by rw [h1]; rfl)]
    rfl
  · rw [(hclosed hc).1 2 2 'c' (by rw [h2]; rfl)]
    rfl

end DroppableChannel

end Deltasync
