import Deltasync.HashControl

/-!
# How a hash stream ends

`recv` says `Ok(None)` when the channel has no sender left.  With no error
published this means that every worker has run past the end of the file, hence
that every block has been returned.

Dropping a stream closes the channel and joins the workers; a worker that
waits for its buffer is released by the drop of the loan, unless the loan lies
in the slot of the channel, which nobody empties any more.
-/

namespace Deltasync

open Blocks

/-! ## The end of the stream -/

namespace HashStream

variable {W : ℕ} {p : HashFile} {h h' : HashStream W}
  {held : List (Loan (Fin W) (List UInt8))}

/-- The `k`-th block returned carries the index `k`. -/
theorem Control.delivered_idx (hc : h.Control p held) {k : ℕ} {v : Item W}
    (hk : h.chan.delivered[k]? = some v) : v.1 = k := by
  have hlt := (List.getElem?_eq_some_iff.mp hk).1
  have hcall := hc.chan.placed_called k v (by
    rw [hc.chan.placed_eq, List.getElem?_append_left hlt, hk])
  exact (hc.call_idx k v hcall).1

/-- The only index of a residue in a window of length `W`. -/
theorem eq_of_window {a x : ℕ} (h1 : a ≤ x) (h2 : x < a + W) (h3 : x % W = a % W) : x = a := by
  have hdvd : W ∣ x - a := Nat.dvd_of_mod_eq_zero (Nat.sub_mod_eq_zero_of_mod_eq h3)
  have := Nat.eq_zero_of_dvd_of_lt hdvd (by omega)
  omega

/-- With the channel open and no error published, the worker of the next block to be
placed leaves its loop only past the end of the file. -/
theorem Control.all_placed (hc : h.Control p held) (hW : 0 < W) (hb : 0 < p.blockSize)
    (herr : h.error = none) (halive : h.phase = .alive)
    (hex : ∀ i, h.chan.dropped i = true) :
    divCeil p.fileSize p.blockSize ≤ h.chan.placed.length := by
  let i : Fin W := ⟨h.chan.placed.length % W, Nat.mod_lt _ hW⟩
  have hw := hc.worker i
  have hpc := hw.dropped.mp (hex i)
  rcases hw.ended (by rw [hpc]; rfl) with ⟨h1, h2, h3⟩ | h1 | h1
  · -- the next block to be placed is the one of worker `i`, past the end
    have hidx := eq_of_window h1 h2 hw.residue
    rw [divCeil_le_iff hb]
    calc p.fileSize ≤ (h.worker i).offset := h3
      _ = usize p.bits (h.chan.placed.length * p.blockSize) := by rw [hw.offset_eq, hidx]
      _ ≤ h.chan.placed.length * p.blockSize := Nat.mod_le _ _
  · simp [herr] at h1
  · rcases hc.closed h1 with h1 | h1
    · simp [herr] at h1
    · exact absurd halive h1

/-- `self.rx.recv()` gives `None` only after every block, unless an error is published. -/
theorem Control.recvNone_complete (hc : h.Control p held) (hW : 0 < W) (hb : 0 < p.blockSize)
    (herr : h.error = none) {r : Option (RecvResult W)}
    (hs : h.recvStep .none = some (h', r)) :
    divCeil p.fileSize p.blockSize ≤ h.chan.delivered.length := by
  cases recvMove_of_step hs with
  | ended hp hw hslot hend =>
    have halive : h.phase = .alive := by
      by_contra hne
      have := (hc.phase_closed hne).2
      simp [hp] at this
    have hex : ∀ i, h.chan.dropped i = true := by
      rcases hend with h1 | h1
      · exact absurd halive (hc.rxClosed h1)
      · exact h1
    have hfl : h.chan.inFlight = [] := by simp [OrderedChannel.inFlight, hw, hslot, RecvCall.value]
    have hall := hc.all_placed hW hb herr halive hex
    rwa [hc.chan.placed_eq, hfl, List.append_nil] at hall

end HashStream

namespace HashSystem

open HashStream Transition

variable {W : ℕ} {p : HashFile} {F : List UInt8} {s s' : HashSystem W}

/-- All blocks of the file are among the results. -/
def Complete (p : HashFile) (results : List (RecvResult W)) : Prop :=
  ∀ k, k < divCeil p.fileSize p.blockSize → ∃ d, Except.ok (some (k, d)) ∈ results

@[simp] theorem returns_results (s : HashSystem W) (h : HashStream W)
    (r : Option (RecvResult W)) : (s.returns h r).results = s.results ++ r.toList := by
  rcases r with _ | _ | _ | v <;> simp [returns]

@[simp] theorem returns_stream (s : HashSystem W) (h : HashStream W)
    (r : Option (RecvResult W)) : (s.returns h r).stream = h := by
  rcases r with _ | _ | _ | v <;> rfl

/-- Everything a step can do to the results. -/
theorem step_results {e : HashEvent W} (hc : s.stream.Control p s.held)
    (hs : s.step p F e = some s') :
    (s'.results = s.results ∧ s'.stream.chan.delivered = s.stream.chan.delivered) ∨
      ∃ e' r, e = .recv e' ∧ s.stream.recvStep e' = some (s'.stream, some r) ∧
        s'.results = s.results ++ [r] ∧
        s'.stream.chan.delivered = s.stream.chan.delivered ++ RecvResult.blocks r := by
  cases e with
  | worker i e =>
    obtain ⟨h, hh, rfl⟩ := Option.map_eq_some_iff.mp hs
    exact .inl ⟨rfl, (hc.workerStep_frame hh).delivered⟩
  | recv e =>
    obtain ⟨⟨h, r⟩, hh, rfl⟩ := Option.map_eq_some_iff.mp hs
    have hf := (recvStep_frame hh).delivered
    cases r with
    | none => exact .inl ⟨by simp, by simpa using hf⟩
    | some r => exact .inr ⟨e, r, rfl, by simpa using hh, by simp, by simpa using hf⟩
  | dropLoan l =>
    simp only [step, Option.ite_none_right_eq_some, Option.some.injEq] at hs
    obtain ⟨-, rfl⟩ := hs
    exact .inl ⟨rfl, rfl⟩
  | close =>
    obtain ⟨h, hh, rfl⟩ := Option.map_eq_some_iff.mp hs
    exact .inl ⟨rfl, (close_frame hh).1.delivered⟩
  | join =>
    obtain ⟨h, hh, rfl⟩ := Option.map_eq_some_iff.mp hs
    exact .inl ⟨rfl, (join_frame hh).1.delivered⟩

/-- The blocks returned so far, in order, are the ones the channel delivered. -/
structure Delivers (p : HashFile) (s : HashSystem W) : Prop where
  control : s.stream.Control p s.held
  blocks : s.results.flatMap RecvResult.blocks = s.stream.chan.delivered

theorem delivers_new (p : HashFile) (W : ℕ) : (new p W).Delivers p :=
  ⟨control_hashFile p, rfl⟩

theorem Delivers.step (hd : s.Delivers p) {e : HashEvent W} (hs : s.step p F e = some s') :
    s'.Delivers p := by
  refine ⟨control_step hd.control hs, ?_⟩
  rcases step_results hd.control hs with ⟨h1, h2⟩ | ⟨e', r, -, -, h1, h2⟩
  · rw [h1, h2, hd.blocks]
  · rw [h1, h2, List.flatMap_append, hd.blocks, List.flatMap_singleton]

/-- Enough blocks returned are all blocks: the `k`-th one has index `k`. -/
theorem Delivers.complete (hd : s.Delivers p) {pre suf : List (RecvResult W)}
    (hres : s.results = pre ++ suf)
    (hn : divCeil p.fileSize p.blockSize ≤ (pre.flatMap RecvResult.blocks).length) :
    Complete p pre := by
  intro k hk
  obtain ⟨v, hv⟩ : ∃ v, (pre.flatMap RecvResult.blocks)[k]? = some v :=
    ⟨_, List.getElem?_eq_getElem (by omega)⟩
  have hdel : s.stream.chan.delivered[k]? = some v := by
    rw [← hd.blocks, hres, List.flatMap_append, List.getElem?_append_left (by omega), hv]
  have hidx := hd.control.delivered_idx hdel
  obtain ⟨r, hr, hmem⟩ := List.mem_flatMap.mp (List.mem_of_getElem? hv)
  rcases r with _ | _ | u
  · cases hmem
  · cases hmem
  · obtain rfl : v = u := by simpa [RecvResult.blocks] using hmem
    exact ⟨v.2, by rw [← hidx]; exact hr⟩

/-- The steps in which `self.rx.recv()` finds the channel at its end happen with no error
published. -/
def endsUnfailed (s : HashSystem W) : HashEvent W → Bool
  | .recv .none => s.stream.error.isNone
  | _ => true

/-- `Ok(None)` is the end of the file.  In every run in which no `recv` sees the end of
the channel while an error is published, `Ok(None)` comes after all blocks. -/
theorem recv_none_complete (hW : 0 < W) (hb : 0 < p.blockSize) {es : List (HashEvent W)}
    (h : run (restrict endsUnfailed (step p F)) (new p W) es = some s)
    {pre suf : List (RecvResult W)} (hres : s.results = pre ++ .ok none :: suf) :
    Complete p pre := by
  have key : s.Delivers p ∧ ∀ pre suf, s.results = pre ++ .ok none :: suf →
      divCeil p.fileSize p.blockSize ≤ (pre.flatMap RecvResult.blocks).length := by
    refine run_invariant (I := fun s : HashSystem W => s.Delivers p ∧ ∀ pre suf,
      s.results = pre ++ .ok none :: suf →
        divCeil p.fileSize p.blockSize ≤ (pre.flatMap RecvResult.blocks).length) ?_
      ⟨delivers_new p W, by simp [new]⟩ h
    rintro u e t ⟨hd, ih⟩ ht
    obtain ⟨hok, ht⟩ := restrict_eq_some.mp ht
    refine ⟨hd.step ht, ?_⟩
    intro pre suf hres
    rcases step_results hd.control ht with ⟨h1, -⟩ | ⟨e', r, rfl, hrec, h1, -⟩
    · exact ih pre suf (by rw [← h1, hres])
    · rw [h1] at hres
      rcases List.eq_nil_or_concat suf with rfl | ⟨suf', x, rfl⟩
      · -- the result just returned
        obtain ⟨rfl, hr⟩ := List.append_inj' hres rfl
        obtain rfl : r = .ok none := by simpa using hr
        obtain rfl := (recvStep_frame hrec).ended rfl
        rw [hd.blocks]
        exact hd.control.recvNone_complete hW hb (by simpa [endsUnfailed] using hok) hrec
      · have : u.results ++ [r] = (pre ++ .ok none :: suf') ++ [x] := by simpa using hres
        exact ih pre suf' (List.append_inj_left' this rfl)
  exact key.1.complete hres (key.2 pre suf hres)

/-- One worker on a file of one byte, which `recv` returns before the end of the stream. -/
def wholeRun : List (HashEvent 1) :=
  [.recv .enter, .recv .poll, .worker solo (.openFile (.ok ())),
    .worker solo (.seekStart (.ok ())), .worker solo .loopHead, .worker solo (.read 1),
    .worker solo .send, .worker solo .sendStep, .recv .take,
    .recv .finish, .dropLoan ⟨[7], solo⟩, .worker solo .reclaim, .worker solo (.seekNext (.ok ())),
    .worker solo .loopHead, .worker solo .exit, .recv .enter, .recv .poll, .recv .none]

/-- A file of one byte, hashed in blocks of one byte. -/
def oneByte : HashFile := .onFile crcDigests .crc32 1 [7]

theorem recv_none_complete_wholeRun :
    ∃ d, Complete (W := 1) oneByte [.ok (some (0, d))] := by
  have hres : (run (restrict endsUnfailed (step oneByte [7])) (new oneByte 1) wholeRun).map
      (·.results) = some ([.ok (some (0, ⟨"ba37b786", ⟨[7], 0⟩⟩))] ++ .ok none :: []) := by rfl
  obtain ⟨s, hs, hr⟩ := Option.map_eq_some_iff.mp hres
  exact ⟨_, recv_none_complete (by decide) (by decide) hs hr⟩

/-- The only worker fails to open the file, publishes the error, closes the channel and
exits, all between the check at the start of `recv` and its `select!`. -/
def failedRun : List (HashEvent 1) :=
  [.recv .enter, .recv .poll, .worker solo (.openFile (.error "")), .worker solo .publish,
    .worker solo .closeTx, .worker solo .exit, .recv .none]

theorem recv_none_of_failed :
    ¬ ∀ (es : List (HashEvent 1)) s, run (step oneByte [7]) (new oneByte 1) es = some s →
      ∀ pre suf, s.results = pre ++ .ok none :: suf → Complete oneByte pre := by
  intro hall
  have hres : (run (step oneByte [7]) (new oneByte 1) failedRun).map (·.results) =
      some ([] ++ .ok none :: []) := by rfl
  obtain ⟨s, hs, hr⟩ := Option.map_eq_some_iff.mp hres
  obtain ⟨d, hd⟩ := hall failedRun s hs [] [] hr 0 (by decide)
  cases hd

end HashSystem

/-! ## Dropping the stream -/

namespace HashStream

variable {W : ℕ} {p : HashFile} {F : List UInt8} {h h' : HashStream W}
  {held : List (Loan (Fin W) (List UInt8))}

/-- `drop` joins a worker that waits for a loan which lies in the slot of the channel, or
that sleeps in `send`. -/
def Deadlocked (h : HashStream W) : Prop :=
  ∃ j : Fin W, h.phase = .joining j ∧
    (((h.worker j).pc = .reclaiming ∧ (h.worker j).returned = none ∧
        ∃ v, h.chan.slot = some v ∧ v.2.data.tx = j) ∨
      ((h.worker j).pc = .sending ∧ ∃ idx v, h.chan.send j = .waiting idx v))

/-- An upper bound for the distance of a worker from its end, once the channel is closed. -/
def WorkerPc.distance : WorkerPc → ℕ
  | .exited => 0
  | .leaving => 1
  | .closing | .sending => 2
  | .failed _ => 3
  | .reading | .seekingNext => 4
  | .head | .reclaiming => 5
  | .seeking => 6
  | .opening => 7

/-- Once the channel is closed, a worker whose buffer is not out on loan can go on towards
its end. -/
theorem Control.toward_exit (hc : h.Control p held) (hph : h.phase ≠ .alive) {i : Fin W}
    (hfree : i ∉ owners h.chan held) (hpc : (h.worker i).pc ≠ .exited) :
    ∃ e h', h.workerStep p F i e = some h' ∧
      WorkerPc.distance (h'.worker i).pc < WorkerPc.distance (h.worker i).pc := by
  have hw := hc.worker i
  have hclosed := (hc.phase_closed hph).1
  cases hi : (h.worker i).pc with
  -- a failure is the shortest way out
  | opening =>
    refine ⟨.openFile (.error ""), _, by simp only [HashStream.workerStep, hi]; rfl, ?_⟩
    simp [HashStream.setWorker, WorkerPc.distance]
  | seeking =>
    refine ⟨.seekStart (.error ""), _, by simp only [HashStream.workerStep, hi]; rfl, ?_⟩
    simp [HashStream.setWorker, WorkerPc.distance]
  | head =>
    refine ⟨.loopHead, _, by simp only [HashStream.workerStep, hi, ← apply_ite some]; rfl, ?_⟩
    split_ifs <;> simp [HashStream.setWorker, WorkerPc.distance]
  | reading =>
    refine ⟨.readFails "", _, by simp only [HashStream.workerStep, hi]; rfl, ?_⟩
    simp [HashStream.setWorker, WorkerPc.distance]
  | sending =>
    obtain ⟨v, hreq, -, -⟩ := hw.sending hi
    have hlock : h.chan.send i = .locking (h.worker i).blockIdx v := by
      cases hsend : h.chan.send i with
      | idle => simp [hsend, SendCall.request] at hreq
      | locking idx u => simpa [hsend, SendCall.request] using hreq
      | waiting idx u => simpa [hclosed] using hc.chan.waiting_open i idx u hsend
      | blocked idx u => exact absurd hsend (hc.chan.not_blocked i idx u)
    refine ⟨.sendStep, _, by
      simp only [HashStream.workerStep, hi, OrderedChannel.sendStep, hlock, hc.chan.lock_eq,
        hclosed, Option.isSome_none, Bool.false_eq_true, if_false, if_true]
      rfl, ?_⟩
    simp [HashStream.setWorker, WorkerPc.distance]
  | reclaiming =>
    have hret : (h.worker i).returned ≠ none := fun h1 => hfree (hw.lent.mpr ⟨hi, h1⟩)
    obtain ⟨b, hb⟩ := Option.ne_none_iff_exists'.mp hret
    refine ⟨.reclaim, _, by simp only [HashStream.workerStep, hi, hb]; rfl, ?_⟩
    simp [HashStream.setWorker, WorkerPc.distance]
  | seekingNext =>
    refine ⟨.seekNext (.error ""), _, by simp only [HashStream.workerStep, hi]; rfl, ?_⟩
    simp [HashStream.setWorker, WorkerPc.distance]
  | failed msg =>
    refine ⟨.publish, _, by simp only [HashStream.workerStep, hi]; rfl, ?_⟩
    simp [HashStream.setWorker, WorkerPc.distance]
  | closing =>
    have hdrop : h.chan.dropped i = false := by simpa [hi] using hw.dropped
    refine ⟨.closeTx, _, by
      simp only [HashStream.workerStep, hi, OrderedChannel.closeTx, hc.chan.lock_eq, hdrop,
        hw.idle (by simp [hi])]
      rfl, ?_⟩
    simp [HashStream.setWorker, WorkerPc.distance]
  | leaving =>
    have hdrop : h.chan.dropped i = false := by simpa [hi] using hw.dropped
    refine ⟨.exit, _, by
      simp only [HashStream.workerStep, hi, OrderedChannel.dropTx, hdrop, hw.idle (by simp [hi])]
      rfl, ?_⟩
    simp [HashStream.setWorker, WorkerPc.distance]
  | exited => exact absurd hi hpc

/-- A worker whose loan lies in the slot waits for it. -/
theorem Control.waits_of_slot (hc : h.Control p held) {v : Item W} (hv : h.chan.slot = some v) :
    (h.worker v.2.data.tx).pc = .reclaiming ∧ (h.worker v.2.data.tx).returned = none := by
  rw [← (hc.worker v.2.data.tx).lent]
  simp [owners, OrderedChannel.inFlight, hv]

theorem Control.not_deadlocked (hc : h.Control p held) (hslot : h.chan.slot = none) :
    ¬ h.Deadlocked := by
  rintro ⟨j, hph, ⟨-, -, v, hv, -⟩ | ⟨-, idx, v, hwait⟩⟩
  · simp [hslot] at hv
  · have hclosed := (hc.phase_closed (by simp [hph])).1
    simpa [hclosed] using hc.chan.waiting_open j idx v hwait

end HashStream

namespace HashSystem

open HashStream Transition

variable {W : ℕ} {p : HashFile} {F : List UInt8} {s s' t : HashSystem W}

/-- Once the stream is closed its slot does not change, and the consumer gets no loan. -/
theorem slot_of_closed (hc : s.stream.Control p s.held) (hph : s.stream.phase ≠ .alive)
    (hheld : s.held = []) {e : HashEvent W} (hs : s.step p F e = some s') :
    s'.stream.phase ≠ .alive ∧ s'.held = [] ∧ s'.stream.chan.slot = s.stream.chan.slot := by
  obtain ⟨hclosed, hpoll⟩ := hc.phase_closed hph
  cases e with
  | worker i e =>
    obtain ⟨h, hh, rfl⟩ := Option.map_eq_some_iff.mp hs
    have hf := hc.workerStep_frame hh
    exact ⟨by rw [hf.phase]; exact hph, hheld, hf.slot (.inr hclosed)⟩
  | recv e =>
    obtain ⟨⟨h, r⟩, hh, rfl⟩ := Option.map_eq_some_iff.mp hs
    cases e <;> simp [recvStep, hph, hpoll] at hh
  | dropLoan l => simp [step, hheld] at hs
  | close =>
    obtain ⟨h, hh, rfl⟩ := Option.map_eq_some_iff.mp hs
    simp [HashStream.close, hph] at hh
  | join =>
    obtain ⟨h, hh, rfl⟩ := Option.map_eq_some_iff.mp hs
    refine ⟨?_, hheld, (join_frame hh).1.slot⟩
    unfold HashStream.join at hh
    split at hh
    · split_ifs at hh <;> obtain rfl := Option.some.inj hh <;> simp
    · cases hh

/-- A worker whose buffer is not out on loan can run to its end alone. -/
theorem exists_exit (hc : s.stream.Control p s.held) (hph : s.stream.phase ≠ .alive) {i : Fin W}
    (hfree : i ∉ owners s.stream.chan s.held) :
    ∃ es h, run (step p F) s es = some { s with stream := h } ∧ (h.worker i).pc = .exited ∧
      h.Control p s.held ∧ h.phase = s.stream.phase ∧ h.chan.slot = s.stream.chan.slot ∧
      h.chan.recv = s.stream.chan.recv := by
  obtain ⟨d, hd⟩ : ∃ d, WorkerPc.distance (s.stream.worker i).pc = d := ⟨_, rfl⟩
  -- by induction on the distance of the worker from its end
  induction d using Nat.strong_induction_on generalizing s with
  | _ d ih =>
    by_cases hpc : (s.stream.worker i).pc = .exited
    · exact ⟨[], s.stream, rfl, hpc, hc, rfl, rfl, rfl⟩
    · obtain ⟨e, h, hs, hlt⟩ := hc.toward_exit (F := F) hph hfree hpc
      have hf := hc.workerStep_frame hs
      have hslot := hf.slot (.inr (hc.phase_closed hph).1)
      have hfree' : i ∉ owners h.chan s.held := by
        rw [owners, OrderedChannel.inFlight, hslot, hf.recv]
        exact hfree
      obtain ⟨es, h', hrun, h1, h2, h3, h4, h5⟩ := ih _ (hd ▸ hlt)
        (s := { s with stream := h }) (hc.workerStep hs) (by rw [hf.phase]; exact hph) hfree' rfl
      refine ⟨.worker i e :: es, h', ?_, h1, h2, h3.trans hf.phase, h4.trans hslot,
        h5.trans hf.recv⟩
      simp only [run_cons, step, hs, Option.map_some, Option.bind_some]
      exact hrun

/-- With a loan in the slot, `drop` comes to the worker that waits for it. -/
theorem exists_deadlock {v : Item W} (hc : s.stream.Control p s.held) (hheld : s.held = [])
    (hv : s.stream.chan.slot = some v) (hrecv : s.stream.chan.recv = .idle) {k : ℕ}
    (hph : s.stream.phase = .joining k) (hk : k ≤ v.2.data.tx) :
    ∃ es t, run (step p F) s es = some t ∧ t.stream.Deadlocked := by
  obtain ⟨d, hd⟩ := Nat.exists_eq_add_of_le hk
  -- by induction on the number of workers joined before that one
  induction d generalizing s k with
  | zero =>
    obtain ⟨hpc, hret⟩ := hc.waits_of_slot hv
    exact ⟨[], s, rfl, v.2.data.tx, by rw [hph, hd]; rfl, .inl ⟨hpc, hret, v, hv, rfl⟩⟩
  | succ d ih =>
    have hkW : k < W := by omega
    have hfree : (⟨k, hkW⟩ : Fin W) ∉ owners s.stream.chan s.held := by
      simp only [owners, OrderedChannel.inFlight, hrecv, hv, hheld, RecvCall.value,
        Option.toList_some, List.nil_append, List.map_cons, List.map_nil, List.append_nil,
        List.mem_singleton]
      intro heq
      simp only [← heq] at hd
      omega
    obtain ⟨es, h, hrun, hex, hc', hph', hslot, hrecv'⟩ :=
      exists_exit (F := F) hc (by simp [hph]) hfree
    have hjoin : h.join = some { h with phase := .joining (k + 1) } := by
      simp [HashStream.join, hph', hph, hkW, hex]
    obtain ⟨es', t, hrun', ht⟩ := ih
      (s := { s with stream := { h with phase := .joining (k + 1) } }) (k := k + 1)
      (hc'.join hjoin) hheld (by rw [← hv]; exact hslot) (by rw [← hrecv]; exact hrecv') rfl
      (by omega) (by omega)
    refine ⟨es ++ .join :: es', t, ?_, ht⟩
    rw [run_append, hrun, Option.bind_some, run_cons]
    simp only [step, hjoin, Option.map_some, Option.bind_some]
    exact hrun'

/-- When the consumer has dropped every loan it received, dropping the stream can
deadlock if and only if the slot of the channel is not empty at that moment. -/
theorem drop_deadlock_iff {es : List (HashEvent W)}
    (h : run (step p F) (new p W) es = some s) (hheld : s.held = [])
    (hs : s.step p F .close = some s') :
    (∀ es' t, run (step p F) s' es' = some t → ¬ t.stream.Deadlocked) ↔
      s.stream.chan.slot = none := by
  have hc : s.stream.Control p s.held :=
    run_invariant (I := fun s : HashSystem W => s.stream.Control p s.held)
      (fun _ _ _ hc ht => control_step hc ht) (control_hashFile p) h
  have hc' := control_step hc hs
  obtain ⟨g, hg, rfl⟩ := Option.map_eq_some_iff.mp hs
  obtain ⟨hf, hph⟩ := close_frame hg
  have hidle : g.chan.recv = .idle := hc'.polling (hc'.phase_closed (by simp [hph])).2
  constructor
  · intro hall
    by_contra hne
    obtain ⟨v, hv⟩ := Option.ne_none_iff_exists'.mp hne
    obtain ⟨es', t, hrun, ht⟩ := exists_deadlock (F := F) hc' hheld
      (v := v) (hf.slot.trans hv) hidle hph (Nat.zero_le _)
    exact hall es' t hrun ht
  · intro hslot es' t hrun
    -- the slot stays empty for the rest of the run
    obtain ⟨hct, -, -, hst⟩ := run_invariant
      (I := fun t : HashSystem W => t.stream.Control p t.held ∧ t.stream.phase ≠ .alive ∧
        t.held = [] ∧ t.stream.chan.slot = none)
      (fun u e t ⟨h1, h2, h3, h4⟩ ht =>
        have ⟨g1, g2, g3⟩ := slot_of_closed h1 h2 h3 ht
        ⟨control_step h1 ht, g1, g2, g3.trans h4⟩)
      ⟨hc', by simp [hph], hheld, hf.slot.trans hslot⟩ hrun
    exact hct.not_deadlocked hst

def twoBlocks : HashFile := .onFile crcDigests .crc32 1 [7, 8]

/-- A `recv` is cancelled after its announcement and called again; the first block comes and its
buffer goes back, and the worker of the second one waits for its turn. -/
def returnedRun : List (HashEvent 2) :=
  let first : Fin 2 := ⟨0, Nat.zero_lt_two⟩
  let second : Fin 2 := ⟨1, Nat.one_lt_two⟩
  let upToSend (i : Fin 2) : List (HashEvent 2) :=
    [.worker i (.openFile (.ok ())), .worker i (.seekStart (.ok ())), .worker i .loopHead,
      .worker i (.read 1), .worker i .send, .worker i .sendStep]
  [.recv .enter, .recv .poll, .recv .cancel] ++ upToSend first ++ upToSend second ++
    [.recv .enter, .recv .poll, .recv .take, .recv .finish, .dropLoan ⟨[7], first⟩,
      .worker first .reclaim]

theorem drop_deadlock_iff_returned :
    ∃ s s', run (step twoBlocks [7, 8]) (new twoBlocks 2) returnedRun = some s ∧
      s.results.length = 1 ∧ s.step twoBlocks [7, 8] .close = some s' ∧
      ∀ es' t, run (step twoBlocks [7, 8]) s' es' = some t → ¬ t.stream.Deadlocked := by
  have hrun : (run (step twoBlocks [7, 8]) (new twoBlocks 2) returnedRun).map
      (fun s => (s.results.length, s.held, s.stream.chan.slot,
        (s.step twoBlocks [7, 8] .close).isSome)) = some (1, [], none, true) := by rfl
  obtain ⟨s, hs, heq⟩ := Option.map_eq_some_iff.mp hrun
  simp only [Prod.mk.injEq] at heq
  obtain ⟨hlen, hheld, hslot, hclose⟩ := heq
  obtain ⟨s', hs'⟩ := Option.isSome_iff_exists.mp hclose
  exact ⟨s, s', hs, hlen, hs', (drop_deadlock_iff hs hheld hs').mpr hslot⟩

/-- A `recv` is cancelled after its announcement, the worker fills the slot, and the
consumer drops the stream. -/
def cancelledRun : List (HashEvent 1) :=
  [.worker solo (.openFile (.ok ())), .worker solo (.seekStart (.ok ())), .worker solo .loopHead,
    .worker solo (.read 1), .worker solo .send, .recv .enter, .recv .poll, .worker solo .sendStep,
    .recv .cancel]

theorem drop_deadlock_cancelled :
    ¬ ∀ (es : List (HashEvent 1)) s s', run (step oneByte [7]) (new oneByte 1) es = some s →
      s.held = [] → s.step oneByte [7] .close = some s' →
      ∀ es' t, run (step oneByte [7]) s' es' = some t → ¬ t.stream.Deadlocked := by
  intro hall
  have hrun : (run (step oneByte [7]) (new oneByte 1) cancelledRun).map
      (fun s => (s.held, (s.step oneByte [7] .close).map fun t =>
        (t.stream.phase, (t.stream.worker solo).pc, (t.stream.worker solo).returned,
          t.stream.chan.slot))) =
      some ([], some (.joining 0, .reclaiming, none, some (0, ⟨"ba37b786", ⟨[7], 0⟩⟩))) := by rfl
  obtain ⟨s, hs, heq⟩ := Option.map_eq_some_iff.mp hrun
  simp only [Prod.mk.injEq, Option.map_eq_some_iff] at heq
  obtain ⟨hheld, t, ht, hph, hpc, hret, hslot⟩ := heq
  exact hall cancelledRun s t hs hheld ht [] t rfl
    ⟨0, hph, .inl ⟨hpc, hret, _, hslot, rfl⟩⟩

end HashSystem

end Deltasync
