import Deltasync.HashMoves

/-!
# The control state of the hash workers

Let `a` be the number of blocks that entered the channel.  The next block that a
worker will send lies in the window `a, …, a + W - 1`, and it is the one with
the worker's residue modulo `W`: the worker of block `a` is determined, and all
the others are ahead.  A buffer is out on loan exactly while its worker waits to
reclaim it, the loan being on its way through the channel or with the consumer.

Nothing here depends on the content of the file, on the outcome of the file
operations, or on the size of the numbers.
-/

namespace Deltasync

open Blocks

/-- The states of a worker that may still send. -/
def WorkerPc.running : WorkerPc → Bool
  | .opening | .seeking | .head | .reading | .sending | .reclaiming | .seekingNext => true
  | _ => false

/-- The states of a worker that is out of its loop without a failure. -/
def WorkerPc.ended : WorkerPc → Bool
  | .leaving | .exited => true
  | _ => false

/-- The states in which the block `blockIdx` has not been offered yet. -/
def WorkerPc.beforeSend : WorkerPc → Bool
  | .opening | .seeking | .head | .reading => true
  | _ => false

/-- The states in which a worker has a block in hand. -/
def WorkerPc.inBlock : WorkerPc → Bool
  | .reading | .sending | .reclaiming | .seekingNext => true
  | _ => false

/-- The block that a worker will send next. -/
def Worker.nextIdx (W : ℕ) (w : Worker) : ℕ :=
  match w.pc with
  | .reclaiming | .seekingNext => w.blockIdx + W
  | _ => w.blockIdx

namespace HashStream

variable {W : ℕ}

/-- The workers whose buffer is out: on its way through the channel, or with the consumer. -/
def owners (c : OrderedChannel (Fin W) ℕ (Item W)) (held : List (Loan (Fin W) (List UInt8))) :
    List (Fin W) :=
  c.inFlight.map (fun v => v.2.data.tx) ++ held.map Loan.tx

/-- What holds of worker `i` in state `w`, next to the channel `c`. -/
structure WorkerOk (p : HashFile) (c : OrderedChannel (Fin W) ℕ (Item W)) (err : Bool)
    (out : List (Fin W)) (i : Fin W) (w : Worker) : Prop where
  residue : w.blockIdx % W = i
  offset_eq : w.offset = usize p.bits (w.blockIdx * p.blockSize)
  window : w.pc.running = true →
    c.placed.length ≤ w.nextIdx W ∧ w.nextIdx W < c.placed.length + W
  ended : w.pc.ended = true →
    (c.placed.length ≤ w.blockIdx ∧ w.blockIdx < c.placed.length + W ∧ p.fileSize ≤ w.offset) ∨
      err = true ∨ c.recvClosed = true
  inBlock : w.pc.inBlock = true → w.offset < p.fileSize
  sending : w.pc = .sending →
    ∃ v, (c.send i).request = some (w.blockIdx, v) ∧ v.1 = w.blockIdx ∧ v.2.data.tx = i
  idle : w.pc ≠ .sending → (c.send i).request = none
  dropped : c.dropped i = true ↔ w.pc = .exited
  called : ∀ idx v, (idx, v) ∈ c.calls → idx % W = i →
    idx ≤ w.blockIdx ∧ (w.pc.beforeSend = true → idx < w.blockIdx)
  lent : i ∈ out ↔ w.pc = .reclaiming ∧ w.returned = none
  kept : w.pc ≠ .reclaiming → w.returned = none
  closing : w.pc = .closing → err = true

structure Control (p : HashFile) (h : HashStream W) (held : List (Loan (Fin W) (List UInt8))) :
    Prop where
  chan : h.chan.Inv
  worker : ∀ i, WorkerOk p h.chan h.error.isSome (owners h.chan held) i (h.worker i)
  owners_nodup : (owners h.chan held).Nodup
  call_idx : ∀ idx v, (idx, v) ∈ h.chan.calls → v.1 = idx ∧ (v.2.data.tx : ℕ) = idx % W
  closed : h.chan.recvClosed = true → h.error.isSome = true ∨ h.phase ≠ .alive
  rxClosed : h.chan.rxClosed = true → h.phase ≠ .alive
  phase_closed : h.phase ≠ .alive → h.chan.recvClosed = true ∧ h.polling = false
  polling : h.polling = false → h.chan.recv = .idle

theorem control_hashFile (p : HashFile) : (hashFile p W).Control p [] where
  chan := OrderedChannel.inv_new
  worker i := by
    have hi := i.isLt
    refine ⟨Nat.mod_eq_of_lt hi, rfl, ?_, by simp [hashFile, WorkerPc.ended],
      by simp [hashFile, WorkerPc.inBlock], by simp [hashFile], fun _ => rfl,
      by simp [hashFile, OrderedChannel.new], by simp [hashFile, OrderedChannel.new], ?_, ?_,
      by simp [hashFile]⟩
    · intro _
      simp only [hashFile, OrderedChannel.new, Worker.nextIdx, List.length_nil]
      omega
    · simp [hashFile, owners, OrderedChannel.new, OrderedChannel.inFlight, RecvCall.value]
    · simp [hashFile]
  owners_nodup := by
    simp [hashFile, owners, OrderedChannel.new, OrderedChannel.inFlight, RecvCall.value]
  call_idx := by simp [hashFile, OrderedChannel.new]
  closed := by simp [hashFile, OrderedChannel.new]
  rxClosed := by simp [hashFile, OrderedChannel.new]
  phase_closed := by simp [hashFile]
  polling := fun _ => rfl

variable {p : HashFile} {h h' : HashStream W} {held held' : List (Loan (Fin W) (List UInt8))}

/-- The order of the loans that the consumer holds does not matter. -/
theorem Control.perm (hc : h.Control p held) (hp : held.Perm held') : h.Control p held' := by
  have hperm : (owners h.chan held).Perm (owners h.chan held') := (hp.map _).append_left _
  refine { hc with worker := ?_, owners_nodup := hperm.nodup_iff.mp hc.owners_nodup }
  intro i
  exact { hc.worker i with lent := hperm.mem_iff.symm.trans (hc.worker i).lent }

/-- A step of one worker that leaves the channel alone. -/
theorem Control.setWorker (hc : h.Control p held) {i : Fin W} {w : Worker}
    (hw : WorkerOk p h.chan h.error.isSome (owners h.chan held) i w) :
    (h.setWorker i w).Control p held := by
  refine { hc with worker := ?_ }
  intro j
  simp only [HashStream.setWorker]
  by_cases hj : j = i
  · subst hj
    rwa [Function.update_self]
  · rw [Function.update_of_ne hj]
    exact hc.worker j

/-! ## One worker -/

section Worker

variable {c c' : OrderedChannel (Fin W) ℕ (Item W)} {err err' : Bool} {out out' : List (Fin W)}
  {i j : Fin W} {w w' : Worker}

/-- A worker that moves on within its thread, on the same block. -/
theorem WorkerOk.move (hw : WorkerOk p c err out i w)
    (hb : w'.blockIdx = w.blockIdx) (ho : w'.offset = w.offset)
    (hrun : w'.pc.running = true → w.pc.running = true ∧ w'.nextIdx W = w.nextIdx W)
    (hend : w'.pc.ended = true → (w.pc = .head ∧ p.fileSize ≤ w.offset) ∨ err = true)
    (hin : w'.pc.inBlock = true → w.offset < p.fileSize)
    (hs : w.pc ≠ .sending ∧ w'.pc ≠ .sending) (hx : w.pc ≠ .exited ∧ w'.pc ≠ .exited)
    (hbs : w'.pc.beforeSend = true → w.pc.beforeSend = true)
    (hl : w'.pc = .reclaiming ∧ w'.returned = none ↔ w.pc = .reclaiming ∧ w.returned = none)
    (hk : w'.pc ≠ .reclaiming → w'.returned = none)
    (hcl : w'.pc = .closing → err = true) : WorkerOk p c err out i w' where
  residue := by rw [hb]; exact hw.residue
  offset_eq := by rw [ho, hb]; exact hw.offset_eq
  window h := by
    obtain ⟨h1, h2⟩ := hrun h
    rw [h2]
    exact hw.window h1
  ended h := by
    rcases hend h with ⟨h1, h2⟩ | h1
    · have := hw.window (by rw [h1]; rfl)
      simp only [Worker.nextIdx, h1] at this
      exact .inl ⟨by rw [hb]; exact this.1, by rw [hb]; exact this.2, by rw [ho]; exact h2⟩
    · exact .inr (.inl h1)
  inBlock h := by rw [ho]; exact hin h
  sending h := absurd h hs.2
  idle _ := hw.idle hs.1
  dropped := by
    rw [hw.dropped]
    exact iff_of_false hx.1 hx.2
  called idx v hmem hidx := by
    rw [hb]
    exact ⟨(hw.called idx v hmem hidx).1, fun h => (hw.called idx v hmem hidx).2 (hbs h)⟩
  lent := hw.lent.trans hl.symm
  kept := hk
  closing := hcl

/-- The indices of the window have different residues. -/
theorem ne_of_residue {a k : ℕ} (hk : k % W = j) (ha : a % W ≠ j) : k ≠ a := by
  rintro rfl
  exact ha hk

/-- A worker that does nothing while the channel changes, with at most one block of
another worker placed. -/
theorem WorkerOk.frame (hw : WorkerOk p c err out j w)
    (hp : c'.placed.length = c.placed.length ∨
      c'.placed.length = c.placed.length + 1 ∧ c.placed.length % W ≠ j)
    (hr : c.recvClosed = true → c'.recvClosed = true)
    (hs : (c'.send j).request = (c.send j).request) (hd : c'.dropped j = c.dropped j)
    (hcalls : ∀ idx v, (idx, v) ∈ c'.calls → idx % W = j → (idx, v) ∈ c.calls)
    (hout : j ∈ out' ↔ j ∈ out) (he : err = true → err' = true) :
    WorkerOk p c' err' out' j w where
  residue := hw.residue
  offset_eq := hw.offset_eq
  window h := by
    obtain ⟨h1, h2⟩ := hw.window h
    rcases hp with hp | ⟨hp, hne⟩
    · rw [hp]
      exact ⟨h1, h2⟩
    · -- the index placed has another residue, so that the window moves past it
      have hres : w.nextIdx W % W = j := by
        unfold Worker.nextIdx
        split <;> simp [hw.residue]
      have := ne_of_residue hres hne
      omega
  ended h := by
    rcases hw.ended h with ⟨h1, h2, h3⟩ | h1 | h1
    · left
      rcases hp with hp | ⟨hp, hne⟩
      · rw [hp]
        exact ⟨h1, h2, h3⟩
      · have := ne_of_residue hw.residue hne
        exact ⟨by omega, by omega, h3⟩
    · exact .inr (.inl (he h1))
    · exact .inr (.inr (hr h1))
  inBlock := hw.inBlock
  sending h := by
    rw [hs]
    exact hw.sending h
  idle h := by
    rw [hs]
    exact hw.idle h
  dropped := by
    rw [hd]
    exact hw.dropped
  called idx v hmem hidx := hw.called idx v (hcalls idx v hmem hidx) hidx
  lent := hout.trans hw.lent
  kept := hw.kept
  closing h := he (hw.closing h)

/-- `offset` and `block_idx` stay in step, also where they wrap around. -/
theorem usize_add (bits x y : ℕ) :
    usize bits (usize bits x + usize bits y) = usize bits (x + y) := by
  simp [usize, Nat.add_mod]

theorem WorkerOk.nextBlock (hw : WorkerOk p c err out i w) (hpc : w.pc = .seekingNext)
    (h : HashStream.nextBlock p W w = some w') : WorkerOk p c err out i w' := by
  simp only [HashStream.nextBlock, Option.ite_none_right_eq_some, Option.some.injEq] at h
  obtain ⟨-, rfl⟩ := h
  have hwin := hw.window (by rw [hpc]; rfl)
  simp only [Worker.nextIdx, hpc] at hwin
  refine ⟨?_, ?_, fun _ => hwin, by simp [WorkerPc.ended], by simp [WorkerPc.inBlock], by simp,
    fun _ => hw.idle (by simp [hpc]), ?_, ?_, ?_, fun _ => hw.kept (by simp [hpc]), by simp⟩
  · simpa using hw.residue
  · dsimp only
    rw [hw.offset_eq, usize_add, Nat.add_mul]
  · rw [hw.dropped]
    simp [hpc]
  · intro idx v hmem hidx
    have := (hw.called idx v hmem hidx).1
    have := i.isLt
    dsimp only
    omega
  · rw [hw.lent]
    simp [hpc]

end Worker

/-! ## The workers and the channel -/

section Channel

variable {c c' : OrderedChannel (Fin W) ℕ (Item W)} {i : Fin W}

/-- A change of the channel that leaves every worker as it was, whatever becomes of
the error flag, the phase and the position of the consumer. -/
theorem Control.setChan (hc : h.Control p held) (hinv : h'.chan.Inv)
    (hw : h'.worker = h.worker) (hp : h'.chan.placed.length = h.chan.placed.length)
    (hs : ∀ j, (h'.chan.send j).request = (h.chan.send j).request)
    (hd : h'.chan.dropped = h.chan.dropped) (hcalls : h'.chan.calls = h.chan.calls)
    (hout : owners h'.chan held' = owners h.chan held)
    (he : h.error.isSome = true → h'.error.isSome = true)
    (hr : h.chan.recvClosed = true → h'.chan.recvClosed = true)
    (hclosed : h'.chan.recvClosed = true → h'.error.isSome = true ∨ h'.phase ≠ .alive)
    (hrx : h'.chan.rxClosed = true → h'.phase ≠ .alive)
    (hphase : h'.phase ≠ .alive → h'.chan.recvClosed = true ∧ h'.polling = false)
    (hpoll : h'.polling = false → h'.chan.recv = .idle) : h'.Control p held' where
  chan := hinv
  worker j := by
    rw [hw, hout]
    exact (hc.worker j).frame (.inl hp) hr (hs j) (congrFun hd j)
      (fun idx v hmem _ => hcalls ▸ hmem) Iff.rfl he
  owners_nodup := by
    rw [hout]
    exact hc.owners_nodup
  call_idx := by
    rw [hcalls]
    exact hc.call_idx
  closed := hclosed
  rxClosed := hrx
  phase_closed := hphase
  polling := hpoll

/-- A worker with a block in its buffer has not offered it before. -/
theorem Control.fresh (hc : h.Control p held) (hb : (h.worker i).pc.beforeSend = true) :
    (h.worker i).blockIdx ∉ h.chan.calls.map Prod.fst := by
  intro hmem
  obtain ⟨⟨idx, v⟩, hcall, hidx⟩ := List.mem_map.mp hmem
  have hres := (hc.worker i).residue
  have := ((hc.worker i).called idx v hcall (by rw [← hres, ← hidx])).2 hb
  dsimp only at hidx
  omega

theorem Control.callSend (hc : h.Control p held) (hpc : (h.worker i).pc = .reading)
    (hs : h.chan.callSend i (h.worker i).blockIdx (blockData p i (h.worker i)) = some c) :
    (({ h with chan := c } : HashStream W).setWorker i
      { h.worker i with pc := .sending, buffer := [] }).Control p held := by
  have hw := hc.worker i
  have hfresh := hc.fresh (i := i) (by rw [hpc]; rfl)
  have hinv := hc.chan.callSend hfresh hs
  simp only [OrderedChannel.callSend, Option.ite_none_right_eq_some, Option.some.injEq] at hs
  obtain ⟨-, rfl⟩ := hs
  have hreq := OrderedChannel.request_setSend h.chan i
  refine ⟨hinv, ?_, hc.owners_nodup, ?_, hc.closed, hc.rxClosed, hc.phase_closed, hc.polling⟩
  · intro j
    simp only [HashStream.setWorker]
    by_cases hj : j = i
    · subst hj
      rw [Function.update_self]
      have hwin := hw.window (by rw [hpc]; rfl)
      simp only [Worker.nextIdx, hpc] at hwin
      refine ⟨hw.residue, hw.offset_eq, fun _ => hwin, by simp [WorkerPc.ended],
        fun _ => hw.inBlock (by rw [hpc]; rfl), fun _ => ⟨blockData p j (h.worker j), ?_, rfl, rfl⟩,
        by simp, ?_, ?_, ?_, fun _ => hw.kept (by simp [hpc]), by simp⟩
      · change ((h.chan.setSend j _).send j).request = _
        rw [hreq, if_pos rfl]
        rfl
      · change h.chan.dropped j = true ↔ _
        rw [hw.dropped, hpc]
        simp
      · intro idx v hmem hidx
        refine ⟨?_, by simp [WorkerPc.beforeSend]⟩
        rcases List.mem_append.mp hmem with h1 | h1
        · exact (hw.called idx v h1 hidx).1
        · simp only [List.mem_singleton, Prod.mk.injEq] at h1
          exact h1.1.le
      · refine hw.lent.trans ?_
        rw [hpc]
        simp
    · rw [Function.update_of_ne hj]
      refine (hc.worker j).frame (.inl rfl) id ?_ rfl ?_ Iff.rfl id
      · change ((h.chan.setSend i _).send j).request = _
        rw [hreq, if_neg hj]
      · intro idx v hmem hidx
        rcases List.mem_append.mp hmem with h1 | h1
        · exact h1
        · simp only [List.mem_singleton, Prod.mk.injEq] at h1
          rw [h1.1, hw.residue] at hidx
          exact absurd (Fin.ext hidx).symm hj
  · intro idx v hmem
    rcases List.mem_append.mp hmem with h1 | h1
    · exact hc.call_idx idx v h1
    · simp only [List.mem_singleton, Prod.mk.injEq] at h1
      obtain ⟨rfl, rfl⟩ := h1
      exact ⟨rfl, hw.residue.symm⟩

/-- `send` returns `Ok`: the block enters the slot with the loan of the buffer. -/
theorem Control.place (hc : h.Control p held) (hpc : (h.worker i).pc = .sending) {idx : ℕ}
    {v : Item W} (hi : h.chan.send i = .locking idx v) (hwant : h.chan.wantedIdx = some idx) :
    (({ h with chan := h.chan.place i v } : HashStream W).setWorker i
      { h.worker i with pc := .reclaiming }).Control p held := by
  have hw := hc.worker i
  have hreq : (h.chan.send i).request = some (idx, v) := by rw [hi]; rfl
  obtain ⟨hnil, -, hlen⟩ := hc.chan.slot_empty hreq hwant
  simp only [Nat.cast_id] at hlen
  obtain ⟨v', hv', -, htx⟩ := hw.sending hpc
  rw [hreq, Option.some.injEq, Prod.mk.injEq] at hv'
  obtain ⟨rfl, rfl⟩ := hv'
  have hfl : (h.chan.place i v).inFlight = [v] := by
    change h.chan.recv.value ++ [v] = [v]
    rw [(OrderedChannel.slot_of_inFlight hnil).2, List.nil_append]
  -- the buffer of worker `i` is out from now on
  have hout : owners (h.chan.place i v) held = i :: owners h.chan held := by
    rw [owners, owners, hfl, hnil, List.map_singleton, htx]
    rfl
  have hlen' : (h.chan.place i v).placed.length = h.chan.placed.length + 1 := by
    simp [OrderedChannel.place]
  have hnot : i ∉ owners h.chan held := by
    rw [hw.lent, hpc]
    simp
  refine ⟨hc.chan.place hreq hwant, ?_, ?_, hc.call_idx, hc.closed, hc.rxClosed, hc.phase_closed,
    hc.polling⟩
  · intro j
    simp only [HashStream.setWorker]
    by_cases hj : j = i
    · subst hj
      rw [Function.update_self]
      have hwin := hw.window (by rw [hpc]; rfl)
      simp only [Worker.nextIdx, hpc] at hwin
      refine ⟨hw.residue, hw.offset_eq, fun _ => ?_, by simp [WorkerPc.ended],
        fun _ => hw.inBlock (by rw [hpc]; rfl), by simp, fun _ => ?_, ?_, ?_, ?_, by simp, by simp⟩
      · -- its next block is `W` further
        rw [hlen']
        simp only [Worker.nextIdx]
        have := j.isLt
        omega
      · change ((h.chan.setSend j .idle).send j).request = none
        rw [OrderedChannel.request_setSend, if_pos rfl]
        rfl
      · change h.chan.dropped j = true ↔ _
        rw [hw.dropped, hpc]
        simp
      · intro idx' v' hmem hidx
        exact ⟨(hw.called idx' v' hmem hidx).1, by simp [WorkerPc.beforeSend]⟩
      · rw [hout]
        simp [hw.kept (by simp [hpc])]
    · rw [Function.update_of_ne hj]
      refine (hc.worker j).frame (.inr ⟨hlen', ?_⟩) id ?_ rfl (fun _ _ hmem _ => hmem) ?_ id
      · rw [hlen, hw.residue]
        exact fun heq => hj (Fin.ext heq).symm
      · change ((h.chan.setSend i .idle).send j).request = _
        rw [OrderedChannel.request_setSend, if_neg hj]
      · rw [hout]
        simp [hj]
  · change (owners (h.chan.place i v) held).Nodup
    rw [hout]
    exact List.nodup_cons.mpr ⟨hnot, hc.owners_nodup⟩

/-- A step of worker `i` that changes its own part of the channel and places nothing. -/
theorem Control.setBoth (hc : h.Control p held) {w : Worker} (hinv : c'.Inv)
    (hfl : c'.inFlight = h.chan.inFlight) (hp : c'.placed = h.chan.placed)
    (hs : ∀ j, j ≠ i → (c'.send j).request = (h.chan.send j).request)
    (hd : ∀ j, j ≠ i → c'.dropped j = h.chan.dropped j) (hcalls : c'.calls = h.chan.calls)
    (hr : h.chan.recvClosed = true → c'.recvClosed = true) (hrecv : c'.recv = h.chan.recv)
    (hrx : c'.rxClosed = h.chan.rxClosed)
    (hclosed : c'.recvClosed = true → h.error.isSome = true ∨ h.phase ≠ .alive)
    (hi : WorkerOk p c' h.error.isSome (owners h.chan held) i w) :
    (({ h with chan := c' } : HashStream W).setWorker i w).Control p held := by
  have hout : owners c' held = owners h.chan held := by rw [owners, owners, hfl]
  refine ⟨hinv, ?_, ?_, ?_, hclosed, ?_, ?_, ?_⟩
  · intro j
    simp only [HashStream.setWorker]
    by_cases hj : j = i
    · subst hj
      rw [Function.update_self, hout]
      exact hi
    · rw [Function.update_of_ne hj]
      refine (hc.worker j).frame (.inl (by rw [hp])) hr (hs j hj) (hd j hj) ?_ ?_ id
      · intro idx v hmem _
        change (idx, v) ∈ c'.calls at hmem
        rwa [hcalls] at hmem
      · rw [hout]
  · change (owners c' held).Nodup
    rw [hout]
    exact hc.owners_nodup
  · intro idx v hmem
    change (idx, v) ∈ c'.calls at hmem
    rw [hcalls] at hmem
    exact hc.call_idx idx v hmem
  · intro h1
    change c'.rxClosed = true at h1
    rw [hrx] at h1
    exact hc.rxClosed h1
  · intro h1
    exact ⟨hr (hc.phase_closed h1).1, (hc.phase_closed h1).2⟩
  · intro h1
    change c'.recv = .idle
    rw [hrecv]
    exact hc.polling h1

/-- `send` returns an error. -/
theorem Control.sendClosed (hc : h.Control p held) (hpc : (h.worker i).pc = .sending)
    (hcl : h.chan.recvClosed = true) :
    (({ h with chan := h.chan.setSend i .idle } : HashStream W).setWorker i
      { h.worker i with pc := .leaving }).Control p held := by
  have hw := hc.worker i
  refine hc.setBoth (hc.chan.setSend_idle i) rfl rfl ?_ (fun _ _ => rfl) rfl id rfl rfl hc.closed
    ⟨hw.residue, hw.offset_eq, by simp [WorkerPc.running], fun _ => .inr (.inr hcl),
      by simp [WorkerPc.inBlock], by simp, fun _ => ?_, ?_, ?_, ?_,
      fun _ => hw.kept (by simp [hpc]), by simp⟩
  · intro j hj
    rw [OrderedChannel.request_setSend, if_neg hj]
  · rw [OrderedChannel.request_setSend, if_pos rfl]
    rfl
  · exact hw.dropped.trans (by simp [hpc])
  · intro idx v hmem hidx
    exact ⟨(hw.called idx v hmem hidx).1, by simp [WorkerPc.beforeSend]⟩
  · exact hw.lent.trans (by simp [hpc])

/-- A worker falls asleep in `send`, or wakes up. -/
theorem Control.setSend (hc : h.Control p held) {x : SendCall ℕ (Item W)}
    (hinv : (h.chan.setSend i x).Inv) (hx : x.request = (h.chan.send i).request) :
    ({ h with chan := h.chan.setSend i x } : HashStream W).Control p held := by
  refine hc.setChan hinv rfl rfl ?_ rfl rfl rfl id id hc.closed hc.rxClosed hc.phase_closed
    hc.polling
  intro j
  change ((h.chan.setSend i x).send j).request = _
  rw [OrderedChannel.request_setSend]
  split_ifs with hj
  · rw [hj, hx]
  · rfl

theorem Control.sendStep (hc : h.Control p held) (hpc : (h.worker i).pc = .sending)
    {r : Option SendResult} (hs : h.chan.sendStep i = some (c, r)) :
    (h.afterSend i c r).Control p held := by
  have hinv := hc.chan.sendStep hs
  obtain ⟨idx, v, hi, ⟨hcl, rfl, rfl⟩ | ⟨-, hw, rfl, rfl⟩ | ⟨-, -, rfl, rfl⟩⟩ :=
    hc.chan.sendStep_cases hs
  · exact hc.sendClosed hpc hcl
  · exact hc.place hpc hi hw
  · exact hc.setSend hinv (by rw [hi]; rfl)

theorem Control.closeTx (hc : h.Control p held) (hpc : (h.worker i).pc = .closing)
    (hs : h.chan.closeTx i = some c) :
    (({ h with chan := c } : HashStream W).setWorker i
      { h.worker i with pc := .leaving }).Control p held := by
  have hinv := hc.chan.closeTx hs
  have hw := hc.worker i
  have herr := hw.closing hpc
  simp only [OrderedChannel.closeTx, Option.ite_none_right_eq_some, Option.some.injEq] at hs
  obtain ⟨-, rfl⟩ := hs
  refine hc.setBoth hinv rfl rfl (fun j _ => OrderedChannel.request_wake _) (fun _ _ => rfl) rfl
    (fun _ => rfl) rfl rfl (fun _ => .inl herr)
    ⟨hw.residue, hw.offset_eq, by simp [WorkerPc.running], fun _ => .inr (.inl herr),
      by simp [WorkerPc.inBlock], by simp, fun _ => ?_, hw.dropped.trans (by simp [hpc]), ?_,
      hw.lent.trans (by simp [hpc]), fun _ => hw.kept (by simp [hpc]), by simp⟩
  · exact (OrderedChannel.request_wake _).trans (hw.idle (by simp [hpc]))
  · intro idx v hmem hidx
    exact ⟨(hw.called idx v hmem hidx).1, by simp [WorkerPc.beforeSend]⟩

theorem Control.exit (hc : h.Control p held) (hpc : (h.worker i).pc = .leaving)
    (hs : h.chan.dropTx i = some c) :
    (({ h with chan := c } : HashStream W).setWorker i
      { h.worker i with pc := .exited }).Control p held := by
  have hinv := hc.chan.dropTx hs
  have hw := hc.worker i
  simp only [OrderedChannel.dropTx, Option.ite_none_right_eq_some, Option.some.injEq] at hs
  obtain ⟨-, rfl⟩ := hs
  refine hc.setBoth hinv rfl rfl (fun _ _ => rfl) ?_ rfl id rfl rfl hc.closed
    ⟨hw.residue, hw.offset_eq, by simp [WorkerPc.running], fun _ => hw.ended (by rw [hpc]; rfl),
      by simp [WorkerPc.inBlock], by simp, fun _ => hw.idle (by simp [hpc]), by simp, ?_,
      hw.lent.trans (by simp [hpc]), fun _ => hw.kept (by simp [hpc]), by simp⟩
  · intro j hj
    exact Function.update_of_ne hj _ _
  · intro idx v hmem hidx
    exact ⟨(hw.called idx v hmem hidx).1, by simp [WorkerPc.beforeSend]⟩

/-- A failed worker publishes its error. -/
theorem Control.publish (hc : h.Control p held) {msg : String}
    (hpc : (h.worker i).pc = .failed msg) :
    (({ h with error := some msg, errorSeen := false } : HashStream W).setWorker i
      { h.worker i with pc := .closing }).Control p held := by
  have hc' : ({ h with error := some msg, errorSeen := false } : HashStream W).Control p held :=
    hc.setChan hc.chan rfl rfl (fun _ => rfl) rfl rfl rfl (fun _ => rfl) id (fun _ => .inl rfl)
      hc.rxClosed hc.phase_closed hc.polling
  refine hc'.setWorker ((hc'.worker i).move rfl rfl ?_ ?_ ?_ ?_ ?_ ?_ ?_ ?_ (fun _ => rfl)) <;>
    simp [hpc, WorkerPc.running, WorkerPc.ended, WorkerPc.inBlock, WorkerPc.beforeSend,
      (hc.worker i).kept]

end Channel

/-! ## Every step -/

theorem readSome_cases (F : List UInt8) (w : Worker) (n : ℕ) :
    (∃ msg, readSome F w n = { w with pc := .failed msg }) ∨
      ∃ buffer filled cursor, readSome F w n = { w with buffer, filled, cursor } := by
  unfold readSome
  split
  · exact .inl ⟨_, rfl⟩
  · exact .inr ⟨_, _, _, rfl⟩

/-- Every step of a worker, whatever the file holds and whichever operations fail. -/
theorem Control.workerStep (hc : h.Control p held) {F : List UInt8} {i : Fin W} {e : WorkerEvent}
    (hs : h.workerStep p F i e = some h') : h'.Control p held := by
  have hw := hc.worker i
  cases workerMove_of_step hs with
  | openOk hpc | openError hpc | seekOk hpc | seekError hpc | readFails hpc | seekNextError hpc =>
    refine hc.setWorker (hw.move rfl rfl ?_ ?_ ?_ ?_ ?_ ?_ ?_ ?_ ?_) <;>
      simp [hpc, WorkerPc.running, WorkerPc.ended, WorkerPc.inBlock, WorkerPc.beforeSend,
        Worker.nextIdx, hw.kept]
  | enterBlock hpc hlt herr =>
    refine hc.setWorker (hw.move rfl rfl ?_ ?_ ?_ ?_ ?_ ?_ ?_ ?_ ?_) <;>
      simp [hpc, WorkerPc.running, WorkerPc.ended, WorkerPc.beforeSend, Worker.nextIdx, hw.kept,
        hlt]
  | leaveLoop hpc hend =>
    refine hc.setWorker (hw.move rfl rfl ?_ ?_ ?_ ?_ ?_ ?_ ?_ ?_ ?_) <;>
      simp [hpc, WorkerPc.running, WorkerPc.inBlock, WorkerPc.beforeSend, hw.kept]
    exact fun _ => hend
  | @read n hpc hn hlt =>
    have hin := hw.inBlock (by rw [hpc]; rfl)
    rcases readSome_cases F (h.worker i) n with ⟨msg, heq⟩ | ⟨b, f, c, heq⟩ <;> rw [heq] <;>
      refine hc.setWorker (hw.move rfl rfl ?_ ?_ ?_ ?_ ?_ ?_ ?_ ?_ ?_) <;>
      simp [hpc, WorkerPc.running, WorkerPc.ended, WorkerPc.inBlock, WorkerPc.beforeSend,
        Worker.nextIdx, hw.kept, hin]
  | send hpc hfull hcs => exact hc.callSend hpc hcs
  | sendStep hpc hcs => exact hc.sendStep hpc hcs
  | wake hpc hi =>
    exact hc.setSend (hc.chan.setSend_request (by rw [hi]; rfl) (by simp) (by simp))
      (by rw [hi]; rfl)
  | reclaim hpc hb =>
    have hin := hw.inBlock (by rw [hpc]; rfl)
    refine hc.setWorker (hw.move rfl rfl ?_ ?_ ?_ ?_ ?_ ?_ ?_ ?_ ?_) <;>
      simp [hpc, WorkerPc.running, WorkerPc.ended, WorkerPc.beforeSend, Worker.nextIdx, hb, hin]
  | nextBlock hpc hn => exact hc.setWorker (hw.nextBlock hpc hn)
  | publish hpc => exact hc.publish hpc
  | closeTx hpc hcs => exact hc.closeTx hpc hcs
  | exit hpc hcs => exact hc.exit hpc hcs

/-- What a step of worker `i` leaves alone. -/
structure WorkerFrame (i : Fin W) (h h' : HashStream W) : Prop where
  worker : ∀ j, j ≠ i → h'.worker j = h.worker j
  phase : h'.phase = h.phase
  polling : h'.polling = h.polling
  recv : h'.chan.recv = h.chan.recv
  delivered : h'.chan.delivered = h.chan.delivered
  rxClosed : h'.chan.rxClosed = h.chan.rxClosed
  recvClosed : h.chan.recvClosed = true → h'.chan.recvClosed = true
  slot : h.chan.slot ≠ none ∨ h.chan.recvClosed = true → h'.chan.slot = h.chan.slot
  placed : h.chan.placed <+: h'.chan.placed
  error : h'.error = h.error ∨ ∃ msg, (h.worker i).pc = .failed msg ∧ h'.error = some msg

theorem WorkerFrame.setWorker (h : HashStream W) (i : Fin W) (w : Worker) :
    WorkerFrame i h (h.setWorker i w) :=
  ⟨fun _ hj => Function.update_of_ne hj _ _, rfl, rfl, rfl, rfl, rfl, id, fun _ => rfl,
    List.prefix_rfl, .inl rfl⟩

theorem Control.workerStep_frame (hc : h.Control p held) {F : List UInt8} {i : Fin W}
    {e : WorkerEvent} (hs : h.workerStep p F i e = some h') : WorkerFrame i h h' := by
  cases workerMove_of_step hs with
  | openOk | openError | seekOk | seekError | enterBlock | leaveLoop | read | readFails | reclaim
  | nextBlock | seekNextError => exact .setWorker h i _
  | send hpc hfull hcs =>
    simp only [OrderedChannel.callSend, Option.ite_none_right_eq_some, Option.some.injEq] at hcs
    obtain ⟨-, rfl⟩ := hcs
    exact { WorkerFrame.setWorker h i _ with }
  | sendStep hpc hcs =>
    obtain ⟨idx, v, hi, ⟨-, rfl, rfl⟩ | ⟨hcl, hw, rfl, rfl⟩ | ⟨-, -, rfl, rfl⟩⟩ :=
      hc.chan.sendStep_cases hcs
    · exact { WorkerFrame.setWorker h i _ with }
    · have hslot := (OrderedChannel.slot_of_inFlight
        (hc.chan.slot_empty (i := i) (v := v) (by rw [hi]; rfl) hw).1).1
      exact { WorkerFrame.setWorker h i _ with
        slot := fun h1 => by simp [hslot, hcl] at h1
        placed := List.prefix_append _ _ }
    · exact { WorkerFrame.setWorker h i (h.worker i) with worker := fun _ _ => rfl }
  | wake hpc hi => exact { WorkerFrame.setWorker h i (h.worker i) with worker := fun _ _ => rfl }
  | @publish msg hpc => exact { WorkerFrame.setWorker h i _ with error := .inr ⟨msg, hpc, rfl⟩ }
  | closeTx hpc hcs =>
    simp only [OrderedChannel.closeTx, Option.ite_none_right_eq_some, Option.some.injEq] at hcs
    obtain ⟨-, rfl⟩ := hcs
    exact { WorkerFrame.setWorker h i _ with recvClosed := fun _ => rfl }
  | exit hpc hcs =>
    simp only [OrderedChannel.dropTx, Option.ite_none_right_eq_some, Option.some.injEq] at hcs
    obtain ⟨-, rfl⟩ := hcs
    exact { WorkerFrame.setWorker h i _ with }

/-- The loans that the consumer holds after a step of `recv`. -/
def heldAfter (held : List (Loan (Fin W) (List UInt8))) :
    Option (RecvResult W) → List (Loan (Fin W) (List UInt8))
  | some (.ok (some v)) => v.2.data :: held
  | _ => held

/-- A `recv` that ends with nothing in hand. -/
theorem Control.leaveRecv (hc : h.Control p held) (hv : h.chan.recv.value = [])
    (hch : h'.chan = { h.chan with recv := .idle }) (hw : h'.worker = h.worker)
    (he : h'.error = h.error) (hph : h'.phase = h.phase)
    (hpoll : h.phase ≠ .alive → h'.polling = false) : h'.Control p held := by
  have hinv := hc.chan.leaveRecv hv
  refine hc.setChan (by rw [hch]; exact hinv) hw (by rw [hch]) (fun _ => by rw [hch])
    (by rw [hch]) (by rw [hch]) ?_ (by rw [he]; exact id) (by rw [hch]; exact id) ?_ ?_ ?_
    (fun _ => by rw [hch])
  · rw [hch]
    simp only [owners, OrderedChannel.inFlight, hv]
    rfl
  · rw [hch, he, hph]
    exact hc.closed
  · rw [hch, hph]
    exact hc.rxClosed
  · rw [hch, hph]
    exact fun h1 => ⟨(hc.phase_closed h1).1, hpoll h1⟩

theorem Control.recvStep (hc : h.Control p held) {e : RecvEvent} {r : Option (RecvResult W)}
    (hs : h.recvStep e = some (h', r)) : h'.Control p (heldAfter held r) := by
  have hnot : h.polling = true → h.phase ≠ .alive → False := fun h1 h2 => by
    have := (hc.phase_closed h2).2
    simp [h1] at this
  cases recvMove_of_step hs with
  | enterFailed =>
    exact hc.setChan hc.chan rfl rfl (fun _ => rfl) rfl rfl rfl id id hc.closed hc.rxClosed
      hc.phase_closed hc.polling
  | enter halive =>
    exact hc.setChan hc.chan rfl rfl (fun _ => rfl) rfl rfl rfl id id hc.closed hc.rxClosed
      (fun h1 => absurd halive h1) (by simp)
  | pollAgain hp hidle hcs =>
    refine hc.setChan (hc.chan.recvEnter hcs) rfl rfl (fun _ => rfl) rfl rfl ?_ id id hc.closed
      hc.rxClosed hc.phase_closed (fun h1 => by simp [hp] at h1)
    simp [heldAfter, owners, OrderedChannel.inFlight, hidle, RecvCall.value]
  | announce hp hidle hcs heq =>
    subst heq
    refine hc.setChan (hc.chan.recvEnter hcs) rfl rfl (fun _ => OrderedChannel.request_wake _) rfl
      rfl ?_ id id hc.closed hc.rxClosed hc.phase_closed (fun h1 => by simp [hp] at h1)
    simp [heldAfter, owners, OrderedChannel.inFlight, hidle, RecvCall.value,
      OrderedChannel.notifyAll]
  | take hp hw hv hcs =>
    refine hc.setChan (hc.chan.recvTake hcs) rfl rfl (fun _ => rfl) rfl rfl ?_ id id hc.closed
      hc.rxClosed hc.phase_closed (fun h1 => by simp [hp] at h1)
    simp [heldAfter, owners, OrderedChannel.inFlight, hw, hv, RecvCall.value]
  | finish hp ht hcs heq =>
    subst heq
    -- the value was the only one in flight
    have hslot : h.chan.slot = none := by
      have hle := hc.chan.inFlight_le
      simp only [OrderedChannel.inFlight, ht, RecvCall.value, List.length_append,
        List.length_singleton] at hle
      cases hsl : h.chan.slot with
      | none => rfl
      | some x => simp [hsl] at hle
    refine hc.setChan (hc.chan.recvFinish hcs) rfl rfl (fun _ => rfl) rfl rfl ?_ id id hc.closed
      hc.rxClosed (fun h1 => (hnot hp h1).elim) (fun _ => rfl)
    simp [heldAfter, owners, OrderedChannel.inFlight, ht, hslot, RecvCall.value]
  | ended hp hw hslot hend =>
    exact hc.leaveRecv (by rw [hw]; rfl) rfl rfl rfl rfl (fun h1 => (hnot hp h1).elim)
  | error hp herr hv =>
    exact hc.leaveRecv hv rfl rfl rfl rfl (fun h1 => (hnot hp h1).elim)
  | cancel hp hv =>
    exact hc.leaveRecv hv rfl rfl rfl rfl (fun h1 => (hnot hp h1).elim)

/-- Dropping the future of `recv` when it holds no value. -/
theorem Control.cancelRecv_eq (hc : h.Control p held) (hfree : h.busy = false) :
    h.cancelRecv = { h with chan := { h.chan with recv := .idle }, polling := false } := by
  unfold HashStream.cancelRecv
  cases hp : h.polling with
  | false =>
    have hidle := hc.polling hp
    have hnone : h.recvStep .cancel = none := by simp [HashStream.recvStep, hp]
    rw [hnone, ← hidle, ← hp]
  | true =>
    unfold HashStream.busy at hfree
    cases hr : h.chan.recv with
    | took v => simp [hr] at hfree
    | idle => simp [HashStream.recvStep, hp, OrderedChannel.recvCancel, hr]
    | awaiting => simp [HashStream.recvStep, hp, OrderedChannel.recvCancel, hr]

theorem Control.cancelRecv (hc : h.Control p held) (hfree : h.busy = false) :
    h.cancelRecv.Control p held := by
  rw [hc.cancelRecv_eq hfree]
  exact hc.leaveRecv (busy_eq_false.mp hfree) rfl rfl rfl rfl (fun _ => rfl)

/-- A loan that the consumer drops is what its worker waits for. -/
theorem Control.dropLoan {l : Loan (Fin W) (List UInt8)} (hc : h.Control p (l :: held)) :
    (h.dropLoan l).Control p held := by
  have hw := hc.worker l.tx
  have hperm : (owners h.chan (l :: held)).Perm (l.tx :: owners h.chan held) :=
    List.perm_middle
  have hnodup := List.nodup_cons.mp (hperm.nodup_iff.mp hc.owners_nodup)
  obtain ⟨hpc, -⟩ := hw.lent.mp (hperm.mem_iff.mpr (by simp))
  refine { hc with worker := ?_, owners_nodup := hnodup.2 }
  intro j
  simp only [HashStream.dropLoan, HashStream.setWorker]
  by_cases hj : j = l.tx
  · subst hj
    rw [Function.update_self]
    have hwin := hw.window (by rw [hpc]; rfl)
    exact { hw with
      window := fun _ => hwin
      lent := iff_of_false hnodup.1 (by simp)
      kept := fun h1 => absurd hpc h1 }
  · rw [Function.update_of_ne hj]
    exact { hc.worker j with
      lent := (by rw [← (hc.worker j).lent, hperm.mem_iff]; simp [hj]) }

theorem Control.close (hc : h.Control p held) (hs : h.close = some h') :
    h'.Control p held := by
  simp only [HashStream.close, Option.ite_none_right_eq_some, Option.map_eq_some_iff] at hs
  obtain ⟨⟨-, hp⟩, c, hcs, rfl⟩ := hs
  have hinv := hc.chan.closeRx hcs
  unfold OrderedChannel.closeRx at hcs
  split at hcs
  case h_2 => cases hcs
  case h_1 hidle =>
    split_ifs at hcs with h1 h2
    · obtain rfl := Option.some.inj hcs
      exact hc.setChan hinv rfl rfl (fun _ => rfl) rfl rfl rfl id id (by simp) (by simp)
        (fun _ => ⟨h2, hp⟩) hc.polling
    · obtain rfl := Option.some.inj hcs
      exact hc.setChan hinv rfl rfl (fun _ => OrderedChannel.request_wake _) rfl rfl rfl id
        (fun _ => rfl) (by simp) (by simp) (fun _ => ⟨rfl, hp⟩) (fun _ => hidle)

theorem Control.join (hc : h.Control p held) (hs : h.join = some h') : h'.Control p held := by
  unfold HashStream.join at hs
  split at hs
  case h_2 => cases hs
  case h_1 j hj =>
    have hclosed := hc.phase_closed (by simp [hj])
    have hpoll := hc.polling hclosed.2
    split_ifs at hs
    · obtain rfl := Option.some.inj hs
      exact hc.setChan hc.chan rfl rfl (fun _ => rfl) rfl rfl rfl id id (by simp) (by simp)
        (fun _ => hclosed) (fun _ => hpoll)
    · obtain rfl := Option.some.inj hs
      exact hc.setChan hc.chan rfl rfl (fun _ => rfl) rfl rfl rfl id id (by simp) (by simp)
        (fun _ => hclosed) (fun _ => hpoll)

end HashStream

/-! ## Whole runs -/

namespace HashSystem

variable {W : ℕ} {p : HashFile} {F : List UInt8} {s s' : HashSystem W}

/-- A step is one of a worker or one of the consumer. -/
theorem stream_step {e : HashEvent W} (hs : s.step p F e = some s') :
    (∃ i e', e = .worker i e' ∧ s.stream.workerStep p F i e' = some s'.stream) ∨
      s.stream.Consumes s'.stream := by
  cases e with
  | worker i e =>
    obtain ⟨h, hh, rfl⟩ := Option.map_eq_some_iff.mp hs
    exact .inl ⟨i, e, rfl, hh⟩
  | recv e =>
    obtain ⟨⟨h, r⟩, hh, rfl⟩ := Option.map_eq_some_iff.mp hs
    rcases r with _ | _ | _ | v <;> exact .inr (.recvStep .refl hh)
  | dropLoan l =>
    simp only [step, Option.ite_none_right_eq_some, Option.some.injEq] at hs
    obtain ⟨-, rfl⟩ := hs
    exact .inr (.dropLoan .refl l)
  | close =>
    obtain ⟨h, hh, rfl⟩ := Option.map_eq_some_iff.mp hs
    exact .inr (.close .refl hh)
  | join =>
    obtain ⟨h, hh, rfl⟩ := Option.map_eq_some_iff.mp hs
    exact .inr (.join .refl hh)

theorem control_step (hc : s.stream.Control p s.held) {e : HashEvent W}
    (hs : s.step p F e = some s') : s'.stream.Control p s'.held := by
  cases e with
  | worker i e =>
    obtain ⟨h, hh, rfl⟩ := Option.map_eq_some_iff.mp hs
    exact hc.workerStep hh
  | recv e =>
    obtain ⟨⟨h, r⟩, hh, rfl⟩ := Option.map_eq_some_iff.mp hs
    have := hc.recvStep hh
    rcases r with _ | _ | _ | v <;> exact this
  | dropLoan l =>
    simp only [step, Option.ite_none_right_eq_some, Option.some.injEq] at hs
    obtain ⟨hmem, rfl⟩ := hs
    exact (hc.perm (List.perm_cons_erase hmem)).dropLoan
  | close =>
    obtain ⟨h, hh, rfl⟩ := Option.map_eq_some_iff.mp hs
    exact hc.close hh
  | join =>
    obtain ⟨h, hh, rfl⟩ := Option.map_eq_some_iff.mp hs
    exact hc.join hh

end HashSystem

end Deltasync
