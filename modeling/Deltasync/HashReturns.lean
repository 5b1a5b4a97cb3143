import Deltasync.HashProgress
import Deltasync.HashWork

/-!
# `HashStream::recv` returns, and so does `HashStream::drop`

A consumer that holds no loan and waits in `recv` is answered after a bounded
number of steps, whichever file operations fail: by a block, by the end of the
stream, or by the error of a worker.  This rests on the watch channel: an error
published while `recv` is pending has not been seen, so that `changed` is ready.

A stream that is dropped with nothing in the slot of its channel joins its
workers after a bounded number of steps, and all of them have ended then.  With a
hash in the slot the worker that sent it is never joined.
-/

namespace Deltasync

open Blocks Transition

namespace HashStream

variable {W : ℕ} {p : HashFile} {D F : List UInt8} {h h' : HashStream W}
  {held : List (Loan (Fin W) (List UInt8))}

/-! ## A pending `recv` -/

/-- An error published while `recv` is pending wakes it up. -/
def Notices (h : HashStream W) : Prop :=
  h.polling = true → h.error.isSome = true → h.errorSeen = false

theorem notices_hashFile : (hashFile p W).Notices := fun hp => nomatch hp

theorem Notices.workerStep (hn : h.Notices) {i : Fin W} {e : WorkerEvent}
    (hs : h.workerStep p F i e = some h') : h'.Notices := by
  cases workerMove_of_step hs with
  | @sendStep c r =>
    rcases r with _ | _ | _ <;> exact hn
  | publish => exact fun _ _ => rfl
  | _ => exact hn

theorem Notices.recvStep (hn : h.Notices) {e : RecvEvent} {r : Option (RecvResult W)}
    (hs : h.recvStep e = some (h', r)) : h'.Notices := by
  cases recvMove_of_step hs with
  | enterFailed _ hp _ => exact fun hp' => absurd hp' (by simp [hp])
  | enter _ _ herr => exact fun _ he => absurd he (by simp [herr])
  | pollAgain | announce | take => exact hn
  | finish | ended | error | cancel => exact fun hp' => nomatch hp'

theorem Notices.consumes (hn : h.Notices) (hg : h.Consumes h') : h'.Notices := by
  induction hg with
  | refl => exact hn
  | @cancelRecv g _ ih =>
    unfold HashStream.cancelRecv
    split
    · next hs => exact ih.recvStep hs
    · exact ih
  | dropLoan _ l ih => exact ih
  | recvStep _ hs ih => exact ih.recvStep hs
  | close _ hs ih =>
    simp only [HashStream.close, Option.ite_none_right_eq_some, Option.map_eq_some_iff] at hs
    obtain ⟨-, c, -, rfl⟩ := hs
    exact ih
  | join _ hs ih =>
    unfold HashStream.join at hs
    split at hs
    case h_2 => cases hs
    case h_1 => split_ifs at hs <;> obtain rfl := Option.some.inj hs <;> exact ih

/-- `recv` goes on by itself, unless it waits for a value that has not come. -/
theorem Control.recv_moves_or_awaits (hc : h.Control p held) (halive : h.phase = .alive) :
    (∃ e r, e ≠ .cancel ∧ h.recvStep e = some r) ∨
      (h.polling = true ∧ h.chan.recv = .awaiting ∧ h.chan.slot = none) := by
  cases hp : h.polling with
  | false =>
    left
    cases herr : h.error with
    | none => exact ⟨.enter, _, by simp, by simp only [HashStream.recvStep, halive, hp, herr]; rfl⟩
    | some err =>
      exact ⟨.enter, _, by simp, by simp only [HashStream.recvStep, halive, hp, herr]; rfl⟩
  | true =>
    cases hr : h.chan.recv with
    | idle =>
      refine .inl ⟨.poll, ?_⟩
      simp only [HashStream.recvStep, hp, OrderedChannel.recvEnter, hr, hc.chan.lock_eq,
        Option.isSome_none, Bool.false_eq_true, if_false, if_true]
      split_ifs <;> simp
    | took v =>
      obtain ⟨r, hr⟩ := hc.finish_moves (by simp [busy, hr])
      exact .inl ⟨.finish, r, by simp, hr⟩
    | awaiting =>
      cases hs : h.chan.slot with
      | some v =>
        exact .inl ⟨.take, _, by simp, by
          simp only [HashStream.recvStep, hp, OrderedChannel.recvTake, hr, hs]; rfl⟩
      | none => exact .inr ⟨rfl, rfl, rfl⟩

/-- With every block delivered and no loan out, no worker waits. -/
theorem Control.idle_moves (hfit : Fits p W D) (hc : h.Control p []) (hC : h.Content p D)
    (hfl : h.chan.inFlight = [])
    (hall : divCeil D.length p.blockSize ≤ h.chan.delivered.length) {i : Fin W}
    (hpc : (h.worker i).pc ≠ .exited) :
    ∃ e h', e.progress = true ∧ h.workerStep p F i e = some h' := by
  refine hc.worker_moves hfit hC (by simp [owners, hfl]) ?_ hpc
  -- a worker in `send` would have a block past the last one
  intro idx v hwait
  have hw := hc.worker i
  have hsend : (h.worker i).pc = .sending := by
    by_contra hne
    have := hw.idle hne
    simp [hwait, SendCall.request] at this
  have hwin := (hw.window (by rw [hsend]; rfl)).1
  have hin := hw.inBlock (by rw [hsend]; rfl)
  simp only [Worker.nextIdx, hsend] at hwin
  rw [hc.chan.placed_eq, hfl, List.append_nil] at hwin
  rw [(hC.worker i).offset_eq hfit hw.offset_eq, hfit.size,
    ← lt_divCeil_iff hfit.blockSize_pos] at hin
  omega

/-- A `recv` on a stream without loans goes on, or a worker does, also after a failure. -/
theorem Control.recv_never_hangs (hfit : Fits p W D) (hc : h.Control p []) (hC : h.Content p D)
    (hn : h.Notices) (halive : h.phase = .alive) :
    (∃ e r, e ≠ .cancel ∧ h.recvStep e = some r) ∨
      ∃ i e h', e.progress = true ∧ h.workerStep p F i e = some h' := by
  rcases hc.recv_moves_or_awaits halive with hmove | ⟨hpoll, hawait, hslot⟩
  · exact .inl hmove
  have hfl : h.chan.inFlight = [] := by
    simp [OrderedChannel.inFlight, hawait, hslot, RecvCall.value]
  cases herr : h.error with
  | some err =>
    have hseen := hn hpoll (by rw [herr]; rfl)
    exact .inl ⟨.error, _, by simp, by
      simp only [HashStream.recvStep, hpoll, hseen, herr, OrderedChannel.recvCancel, hawait]; rfl⟩
  | none =>
    by_cases hh : h.Healthy
    · by_cases hlt : h.chan.delivered.length < divCeil D.length p.blockSize
      · exact .inr (hc.wanted_moves hfit hC hh halive hawait hslot hlt)
      · by_cases hex : ∀ i, (h.worker i).pc = .exited
        · -- every sender is dropped
          have hend : h.chan.slot = none ∧
              (h.chan.rxClosed = true ∨ ∀ i, h.chan.dropped i = true) :=
            ⟨hslot, .inr fun i => (hc.worker i).dropped.mpr (hex i)⟩
          exact .inl ⟨.none, _, by simp, by
            simp only [HashStream.recvStep, hpoll, OrderedChannel.recvNone, hawait, if_pos hend]
            rfl⟩
        · obtain ⟨i, hi⟩ := not_forall.mp hex
          exact .inr ⟨i, hc.idle_moves hfit hC hfl (Nat.not_lt.mp hlt) hi⟩
    · -- a worker has failed and has not published its error
      obtain ⟨i, hi⟩ : ∃ i,
          ¬ ((h.worker i).pc ≠ .closing ∧ ∀ msg, (h.worker i).pc ≠ .failed msg) := by
        by_contra hcon
        exact hh ⟨fun i => not_not.mp (not_exists.mp hcon i), herr⟩
      have hns : (h.worker i).pc ≠ .sending ∧ (h.worker i).pc ≠ .exited := by
        constructor <;> intro hpc <;> simp [hpc] at hi
      refine .inr ⟨i, hc.worker_moves hfit hC (by simp [owners, hfl]) ?_ hns.2⟩
      intro idx v hwait
      have := (hc.worker i).idle hns.1
      simp [hwait, SendCall.request] at this

/-- How many steps a `recv` that returns takes at most, but for the one that returns. -/
def recvWork (h : HashStream W) : ℕ :=
  if h.polling then
    match h.chan.recv with
    | .idle => 2
    | .awaiting => 1
    | .took _ => 0
  else 3

theorem recvStep_recvWork {e : RecvEvent} (he : e ≠ .cancel)
    (hs : h.recvStep e = some (h', none)) : h'.recvWork < h.recvWork := by
  cases recvMove_of_step hs with
  | enter halive hp herr =>
    simp only [recvWork, hp, if_true, Bool.false_eq_true, if_false]
    split <;> omega
  | pollAgain hp hidle => simp [recvWork, hp, hidle]
  | announce hp hidle hcs heq => simp [recvWork, hp, hidle, heq]
  | take hp hw => simp [recvWork, hp, hw]
  | cancel => exact absurd rfl he

theorem Control.workerStep_recvWork (hc : h.Control p held) {i : Fin W} {e : WorkerEvent}
    (hs : h.workerStep p F i e = some h') : h'.recvWork = h.recvWork := by
  have hf := hc.workerStep_frame hs
  rw [recvWork, recvWork, hf.polling, hf.recv]

/-! ## Joining the workers -/

/-- The workers joined so far have ended. -/
structure Joined (h : HashStream W) : Prop where
  joining : ∀ j, h.phase = .joining j → ∀ i : Fin W, i < j → (h.worker i).pc = .exited
  dropped : h.phase = .dropped → ∀ i, (h.worker i).pc = .exited

theorem Joined.of_alive (halive : h.phase = .alive) : h.Joined :=
  ⟨fun j hj => by simp [halive] at hj, fun hd => by simp [halive] at hd⟩

theorem Joined.mono (hj : h.Joined) (hph : h'.phase = h.phase)
    (hw : ∀ i, (h.worker i).pc = .exited → (h'.worker i).pc = .exited) : h'.Joined where
  joining j hp i hi := hw i (hj.joining j (hph ▸ hp) i hi)
  dropped hp i := hw i (hj.dropped (hph ▸ hp) i)

theorem Joined.workerStep (hj : h.Joined) (hc : h.Control p held) {i : Fin W} {e : WorkerEvent}
    (hs : h.workerStep p F i e = some h') : h'.Joined := by
  have hf := hc.workerStep_frame hs
  refine hj.mono hf.phase fun j hpc => ?_
  by_cases hji : j = i
  · -- a thread that has ended takes no step
    subst hji
    cases workerMove_of_step hs <;> simp_all
  · rw [hf.worker j hji]
    exact hpc

theorem Joined.join (hj : h.Joined) (hs : h.join = some h') : h'.Joined := by
  have hw := (join_frame hs).1.worker
  unfold HashStream.join at hs
  split at hs
  case h_2 => cases hs
  case h_1 j hph =>
    split_ifs at hs with hlt hex <;> obtain rfl := Option.some.inj hs
    · refine ⟨fun k hk i hi => ?_, fun hd => by simp at hd⟩
      obtain rfl : j + 1 = k := by simpa using hk
      rcases Nat.lt_succ_iff_lt_or_eq.mp hi with hi | hi
      · exact hj.joining j hph i hi
      · obtain rfl : i = ⟨j, hlt⟩ := Fin.ext hi
        exact hex
    · exact ⟨fun k hk => by simp at hk, fun _ i => hj.joining j hph i (by omega)⟩

theorem Joined.consumes (hj : h.Joined) (hg : h.Consumes h') : h'.Joined := by
  induction hg with
  | refl => exact hj
  | @cancelRecv g _ ih =>
    have hf := cancelRecv_frame g
    exact ih.mono hf.phase fun i hi => by rwa [hf.worker]
  | dropLoan _ l ih => exact ih.mono rfl fun i hi => by rwa [dropLoan_pc]
  | recvStep _ hs ih =>
    have hf := recvStep_frame hs
    exact ih.mono hf.phase fun i hi => by rwa [hf.worker]
  | close _ hs ih =>
    have hph := (close_frame hs).2
    refine ⟨fun j hj' i hi => ?_, fun hd => by simp [hph] at hd⟩
    obtain rfl : 0 = j := by simpa [hph] using hj'
    omega
  | join _ hs ih => exact ih.join hs

/-- How many joins are left, with the end of `drop`. -/
def joinWork (h : HashStream W) : ℕ :=
  match h.phase with
  | .alive => W + 2
  | .joining j => W - j + 1
  | .dropped => 0

theorem join_joinWork (hs : h.join = some h') : h'.joinWork < h.joinWork := by
  unfold HashStream.join at hs
  split at hs
  case h_2 => cases hs
  case h_1 j hph =>
    split_ifs at hs <;> obtain rfl := Option.some.inj hs <;> simp only [joinWork, hph] <;> omega

/-- A stream that is being dropped with an empty slot comes to its end. -/
theorem Control.join_moves (hseeks : usize p.bits ((W - 1) * p.blockSize) < 2 ^ 63)
    (hc : h.Control p [])
    (hfill : ∀ i, (h.worker i).pc = .reading → (h.worker i).filled ≤ (h.worker i).buffer.length)
    (hslot : h.chan.slot = none) {j : ℕ} (hph : h.phase = .joining j) :
    (∃ h', h.join = some h') ∨ ∃ i e h', e.progress = true ∧ h.workerStep p F i e = some h' := by
  have hclosed := hc.phase_closed (by simp [hph])
  have hidle := hc.polling hclosed.2
  by_cases hj : j < W
  · by_cases hex : (h.worker ⟨j, hj⟩).pc = .exited
    · exact .inl ⟨_, by simp only [HashStream.join, hph, dif_pos hj, if_pos hex]; rfl⟩
    · refine .inr ⟨⟨j, hj⟩, hc.worker_moves_of_filled hseeks (hfill _) ?_ ?_ hex⟩
      · simp [owners, OrderedChannel.inFlight, hidle, hslot, RecvCall.value]
      · intro idx v hwait
        simpa [hclosed.1] using hc.chan.waiting_open _ idx v hwait
  · exact .inl ⟨_, by simp only [HashStream.join, hph, dif_neg hj]; rfl⟩

/-! ## A hash left in the slot -/

/-- The stream is being dropped with a hash in the slot of its channel. -/
def Stuck (h : HashStream W) : Prop := h.phase ≠ .alive ∧ h.chan.slot ≠ none

/-- The worker whose buffer lies in the slot has not ended, and never will. -/
theorem Stuck.not_dropped (hg : h.Stuck) (hc : h.Control p held) (hj : h.Joined) :
    h.phase ≠ .dropped := by
  intro hd
  obtain ⟨v, hv⟩ := Option.ne_none_iff_exists'.mp hg.2
  have hout : v.2.data.tx ∈ owners h.chan held := by
    simp [owners, OrderedChannel.inFlight, hv]
  have hpc := ((hc.worker _).lent.mp hout).1
  rw [hj.dropped hd] at hpc
  cases hpc

theorem Stuck.workerStep (hg : h.Stuck) (hc : h.Control p held) {i : Fin W} {e : WorkerEvent}
    (hs : h.workerStep p F i e = some h') : h'.Stuck := by
  have hf := hc.workerStep_frame hs
  refine ⟨?_, ?_⟩
  · rw [hf.phase]
    exact hg.1
  · rw [hf.slot (.inl hg.2)]
    exact hg.2

theorem Stuck.close (hg : h.Stuck) : h.close = none := by
  simp [HashStream.close, hg.1]

theorem Stuck.join (hg : h.Stuck) (hs : h.join = some h') : h'.Stuck := by
  refine ⟨?_, ?_⟩
  · unfold HashStream.join at hs
    split at hs
    · split_ifs at hs <;> obtain rfl := Option.some.inj hs <;> simp
    · cases hs
  · rw [(join_frame hs).1.slot]
    exact hg.2

/-- The drop of a stream without loans goes on, unless it is stuck. -/
theorem Control.drop_moves_or_stuck (hseeks : usize p.bits ((W - 1) * p.blockSize) < 2 ^ 63)
    (hc : h.Control p [])
    (hfill : ∀ i, (h.worker i).pc = .reading → (h.worker i).filled ≤ (h.worker i).buffer.length)
    (hpoll : h.polling = false) (hph : h.phase ≠ .dropped) :
    h.Stuck ∨ (∃ h', h.close = some h') ∨ (∃ h', h.join = some h') ∨
      ∃ i e h', e.progress = true ∧ h.workerStep p F i e = some h' := by
  cases hd : h.phase with
  | alive => exact .inr (.inl (hc.close_moves hpoll hd))
  | dropped => exact absurd hd hph
  | joining j =>
    by_cases hslot : h.chan.slot = none
    · exact .inr (.inr (hc.join_moves hseeks hfill hslot hd))
    · exact .inl ⟨by simp [hd], hslot⟩

end HashStream

/-! ## Whole runs -/

namespace HashEvent

variable {W : ℕ}

/-- A step of the workers, or of a consumer that waits for the answer of `recv`. -/
def waits : HashEvent W → Bool
  | .worker _ e => !e.spurious
  | .recv e => e ≠ .cancel
  | _ => false

/-- A step of the workers, or of `drop`. -/
def drops : HashEvent W → Bool
  | .worker _ e => !e.spurious
  | .join => true
  | _ => false

end HashEvent

theorem WorkerEvent.not_spurious {e : WorkerEvent} (he : e.progress = true) :
    e.spurious = false := by
  cases e <;> first | rfl | cases he

namespace HashSystem

open HashStream

variable {W : ℕ} {p : HashFile} {F : List UInt8} {s s' t : HashSystem W}

/-- What holds of a stream on a file that stays as it is, whichever operations fail. -/
structure Watched (p : HashFile) (F : List UInt8) (s : HashSystem W) : Prop where
  control : s.stream.Control p s.held
  measured : s.stream.Measured p
  content : s.stream.Content p F
  notices : s.stream.Notices
  joined : s.stream.Joined

theorem watched_new (hfit : Fits p W F) : (new p W).Watched p F :=
  ⟨control_hashFile p, measured_hashFile hfit.blockSize_pos, content_hashFile hfit.blockSize_pos,
    notices_hashFile, .of_alive rfl⟩

theorem joined_step (hc : s.stream.Control p s.held) (hj : s.stream.Joined) {e : HashEvent W}
    (hs : s.step p F e = some s') : s'.stream.Joined := by
  rcases stream_step hs with ⟨i, e', -, h⟩ | h
  · exact hj.workerStep hc h
  · exact hj.consumes h

theorem Watched.step (hfit : Fits p W F) (hw : s.Watched p F) {e : HashEvent W}
    (hs : s.step p F e = some s') : s'.Watched p F where
  control := control_step hw.control hs
  measured := measured_step hfit.sizes hw.control hw.measured hs
  content := content_step hfit hw.control hw.content hs
  notices := by
    rcases stream_step hs with ⟨i, e', -, h⟩ | h
    · exact hw.notices.workerStep h
    · exact hw.notices.consumes h
  joined := joined_step hw.control hw.joined hs

/-- The work left after any run. -/
theorem watched_of_run (hfit : Fits p W F) {es : List (HashEvent W)}
    (h : run (step p F) (new p W) es = some s) :
    s.Watched p F ∧ s.stream.workersWork p ≤
      W * ((p.blocks + W) * (p.blockSize + 8) + p.blocks + W + 8) + es.countP (·.spurious) := by
  have hinv := run_invariant (I := fun s : HashSystem W => s.Watched p F)
    (fun s e t hw ht => hw.step hfit ht) (watched_new hfit) h
  have hle := run_countP_le (I := fun s : HashSystem W => s.Watched p F)
    (fun s => s.stream.workersWork p) (·.works) (·.spurious) 1
    (fun s e t hw ht => hw.step hfit ht)
    (fun s e t hw ht => step_work hfit.sizes hw.control hw.measured ht)
    (watched_new hfit) h
  have hstart := workersWork_hashFile_le p W
  simp only [new] at hle
  exact ⟨hinv, by omega⟩

/-- A step of the wait for `recv`: it returns, or there is less to wait for. -/
theorem Watched.waits_step (hfit : Fits p W F) (hw : s.Watched p F) {e : HashEvent W}
    (he : e.waits = true) (hs : s.step p F e = some s') :
    s'.results.length = s.results.length + 1 ∨
      s'.results = s.results ∧ s'.held = s.held ∧ s'.stream.phase = s.stream.phase ∧
        s'.stream.workersWork p + s'.stream.recvWork <
          s.stream.workersWork p + s.stream.recvWork := by
  have hsz := hfit.sizes
  cases e with
  | worker i e =>
    obtain ⟨h, hh, rfl⟩ := Option.map_eq_some_iff.mp hs
    have hlt := hw.control.workerStep_work hsz hw.measured hh (by simpa [HashEvent.waits] using he)
    have heq := hw.control.workerStep_recvWork hh
    exact .inr ⟨rfl, rfl, (hw.control.workerStep_frame hh).phase, by dsimp only; omega⟩
  | recv e =>
    obtain ⟨⟨h, r⟩, hh, rfl⟩ := Option.map_eq_some_iff.mp hs
    cases r with
    | some r => exact .inl (by simp)
    | none =>
      have hle := hw.control.recvStep_work hsz.blockSize_pos hw.measured hh
      have hlt := recvStep_recvWork (by simpa [HashEvent.waits] using he) hh
      refine .inr ⟨by simp, rfl, (recvStep_frame hh).phase, ?_⟩
      simp only [returns_stream]
      omega
  | dropLoan l => cases he
  | close => cases he
  | join => cases he

/-- A consumer without loans that waits for `recv` is answered: whichever file operations fail
and however the steps of the workers are interleaved, the wait takes a bounded number of steps,
and until `recv` returns one of them is always enabled. -/
theorem recv_returns (hfit : Fits p W F) {es₀ es : List (HashEvent W)}
    (h₀ : run (step p F) (new p W) es₀ = some s) (hheld : s.held = [])
    (halive : s.stream.phase = .alive)
    (h : run (restrict (fun _ e => e.waits) (step p F)) s es = some t)
    (hpending : t.results.length = s.results.length) :
    es.length ≤ W * ((p.blocks + W) * (p.blockSize + 8) + p.blocks + W + 8) +
        es₀.countP (·.spurious) + 3 ∧
      ∃ e u, e.waits = true ∧ t.step p F e = some u := by
  obtain ⟨hw, hwork⟩ := watched_of_run hfit h₀
  have hrecv : s.stream.recvWork ≤ 3 := by
    unfold recvWork
    split_ifs
    · split <;> omega
    · omega
  have hind : t.Watched p F ∧ s.results.length ≤ t.results.length ∧
      (t.results.length = s.results.length → t.held = [] ∧ t.stream.phase = .alive ∧
        t.stream.workersWork p + t.stream.recvWork + es.length ≤
          s.stream.workersWork p + s.stream.recvWork) := by
    refine run_induction (P := fun es t => t.Watched p F ∧ s.results.length ≤ t.results.length ∧
      (t.results.length = s.results.length → t.held = [] ∧ t.stream.phase = .alive ∧
        t.stream.workersWork p + t.stream.recvWork + es.length ≤
          s.stream.workersWork p + s.stream.recvWork))
      ⟨hw, le_rfl, fun _ => ⟨hheld, halive, by simp⟩⟩ ?_ h
    rintro es u e t - ⟨hu, hmono, hsame⟩ ht
    obtain ⟨he, ht⟩ := restrict_eq_some.mp ht
    refine ⟨hu.step hfit ht, ?_⟩
    rcases hu.waits_step hfit he ht with hone | ⟨hres, hh, hph, hlt⟩
    · exact ⟨by omega, fun heq => by omega⟩
    · rw [hres]
      refine ⟨hmono, fun heq => ?_⟩
      obtain ⟨h1, h2, h3⟩ := hsame heq
      refine ⟨hh.trans h1, hph.trans h2, ?_⟩
      rw [List.length_append, List.length_singleton]
      omega
  obtain ⟨ht, -, hsame⟩ := hind
  obtain ⟨hheld', halive', hle⟩ := hsame hpending
  refine ⟨by omega, ?_⟩
  have hc := ht.control
  rw [hheld'] at hc
  rcases hc.recv_never_hangs (F := F) hfit ht.content ht.notices halive' with
    ⟨e, r, hne, hr⟩ | ⟨i, e, g, hp, hg⟩
  · refine ⟨.recv e, t.returns r.1 r.2, by simpa [HashEvent.waits] using hne, ?_⟩
    simp only [HashSystem.step, hr, Option.map_some]
  · refine ⟨.worker i e, { t with stream := g }, ?_, by simp only [HashSystem.step, hg]; rfl⟩
    simp [HashEvent.waits, WorkerEvent.not_spurious hp]

theorem fits_oneByte : Fits oneByte 1 [7] :=
  fits_onFile _ _ (by decide) (by decide) (by decide) (by decide)

/-- The only worker has failed, and `recv` waits for it. -/
theorem recv_returns_failed :
    ∃ t, run (restrict (fun _ e => e.waits) (step oneByte [7])) (new oneByte 1)
        [.recv .enter, .recv .poll, .worker solo (.openFile (.error "")), .worker solo .publish,
          .worker solo .closeTx, .worker solo .exit] = some t ∧
      t.stream.error = some "Failed to open file: " ∧
      ∃ e u, e.waits = true ∧ t.step oneByte [7] e = some u := by
  have hrun : (run (restrict (fun _ e => e.waits) (step oneByte [7])) (new oneByte 1)
      [.recv .enter, .recv .poll, .worker solo (.openFile (.error "")), .worker solo .publish,
        .worker solo .closeTx, .worker solo .exit]).map (fun t => (t.stream.error, t.results)) =
      some (some "Failed to open file: ", []) := by rfl
  obtain ⟨t, ht, heq⟩ := Option.map_eq_some_iff.mp hrun
  simp only [Prod.mk.injEq] at heq
  have h₀ : run (step oneByte [7]) (new oneByte 1) [] = some (new oneByte 1) := rfl
  exact ⟨t, ht, heq.1, (recv_returns fits_oneByte h₀ rfl rfl ht (by rw [heq.2]; rfl)).2⟩

/-- A stream that is being dropped, with nothing left in it. -/
structure Closing (p : HashFile) (F : List UInt8) (s : HashSystem W) : Prop where
  watched : s.Watched p F
  held : s.held = []
  closed : s.stream.phase ≠ .alive
  slot : s.stream.chan.slot = none

theorem Closing.step (hfit : Fits p W F) (hd : s.Closing p F) {e : HashEvent W}
    (hs : s.step p F e = some s') : s'.Closing p F := by
  obtain ⟨h1, h2, h3⟩ := slot_of_closed hd.watched.control hd.closed hd.held hs
  exact ⟨hd.watched.step hfit hs, h2, h1, h3.trans hd.slot⟩

theorem Closing.drops_step (hfit : Fits p W F) (hd : s.Closing p F) {e : HashEvent W}
    (he : e.drops = true) (hs : s.step p F e = some s') :
    s'.stream.workersWork p + s'.stream.joinWork <
      s.stream.workersWork p + s.stream.joinWork := by
  cases e with
  | worker i e =>
    obtain ⟨h, hh, rfl⟩ := Option.map_eq_some_iff.mp hs
    have hc := hd.watched.control
    have hlt := hc.workerStep_work hfit.sizes hd.watched.measured hh
      (by simpa [HashEvent.drops] using he)
    have heq : h.joinWork = s.stream.joinWork := by
      rw [joinWork, joinWork, (hc.workerStep_frame hh).phase]
    dsimp only
    omega
  | join =>
    obtain ⟨h, hh, rfl⟩ := Option.map_eq_some_iff.mp hs
    have hlt := join_joinWork hh
    have heq := join_work (p := p) hh
    dsimp only
    omega
  | recv e => cases he
  | dropLoan l => cases he
  | close => cases he

/-- A stream that is dropped with nothing in the slot of its channel, after the consumer has
given back its loans, ends: the joins take a bounded number of steps, one of them is always
enabled, and when `drop` returns no worker is left. -/
theorem drop_returns (hfit : Fits p W F) {es₀ es : List (HashEvent W)}
    (h₀ : run (step p F) (new p W) es₀ = some s) (hheld : s.held = [])
    (hclosed : s.stream.phase ≠ .alive) (hslot : s.stream.chan.slot = none)
    (h : run (restrict (fun _ e => e.drops) (step p F)) s es = some t) :
    es.length ≤ W * ((p.blocks + W) * (p.blockSize + 8) + p.blocks + W + 8) +
        es₀.countP (·.spurious) + W + 1 ∧
      ((t.stream.phase = .dropped ∧ ∀ i, (t.stream.worker i).pc = .exited) ∨
        ∃ e u, e.drops = true ∧ t.step p F e = some u) := by
  obtain ⟨hw, hwork⟩ := watched_of_run hfit h₀
  have hs : s.Closing p F := ⟨hw, hheld, hclosed, hslot⟩
  have hjoins : s.stream.joinWork ≤ W + 1 := by
    unfold joinWork
    split
    · next halive => exact absurd halive hclosed
    · omega
    · omega
  have hstep : ∀ s e t, Closing p F s → restrict (fun _ e => e.drops) (step p F) s e = some t →
      Closing p F t := fun s e t hd ht => hd.step hfit (restrict_eq_some.mp ht).2
  have ht := run_invariant hstep hs h
  have hle := run_countP_le (fun s => s.stream.workersWork p + s.stream.joinWork)
    (fun _ => true) (fun _ => false) 0 hstep
    (fun s e t hd ht => by
      obtain ⟨he, ht⟩ := restrict_eq_some.mp ht
      have := hd.drops_step hfit he ht
      simp only [if_true, Bool.false_eq_true, if_false]
      omega) hs h
  rw [List.countP_true] at hle
  refine ⟨by omega, ?_⟩
  have hc := ht.watched.control
  rw [ht.held] at hc
  cases hph : t.stream.phase with
  | alive => exact absurd hph ht.closed
  | dropped => exact .inl ⟨rfl, ht.watched.joined.dropped hph⟩
  | joining j =>
    right
    have hfill : ∀ i, (t.stream.worker i).pc = .reading →
        (t.stream.worker i).filled ≤ (t.stream.worker i).buffer.length := fun i hi =>
      ((ht.watched.content.worker i).reading hi).2.1
    rcases hc.join_moves (F := F) hfit.seeks hfill ht.slot hph with ⟨g, hg⟩ | ⟨i, e, g, hp, hg⟩
    · exact ⟨.join, { t with stream := g }, rfl, by simp only [HashSystem.step, hg]; rfl⟩
    · refine ⟨.worker i e, { t with stream := g }, ?_, by simp only [HashSystem.step, hg]; rfl⟩
      simp [HashEvent.drops, WorkerEvent.not_spurious hp]

/-- The stream is dropped before its worker has opened the file. -/
theorem drop_returns_unused :
    ∃ s t, run (step oneByte [7]) (new oneByte 1) [.close] = some s ∧
      run (restrict (fun _ e => e.drops) (step oneByte [7])) s
        [.worker solo (.openFile (.ok ())), .worker solo (.seekStart (.ok ())),
          .worker solo .loopHead, .worker solo (.read 1), .worker solo .send,
          .worker solo .sendStep, .worker solo .exit, .join, .join] = some t ∧
      t.stream.phase = .dropped ∧
      ((t.stream.phase = .dropped ∧ ∀ i, (t.stream.worker i).pc = .exited) ∨
        ∃ e u, e.drops = true ∧ t.step oneByte [7] e = some u) := by
  have hclose : (run (step oneByte [7]) (new oneByte 1) [.close]).map
      (fun s => (s.held, s.stream.phase, s.stream.chan.slot, (run
        (restrict (fun _ e => e.drops) (step oneByte [7])) s
        [.worker solo (.openFile (.ok ())), .worker solo (.seekStart (.ok ())),
          .worker solo .loopHead, .worker solo (.read 1), .worker solo .send,
          .worker solo .sendStep, .worker solo .exit, .join, .join]).map (·.stream.phase))) =
      some ([], .joining 0, none, some .dropped) := by rfl
  obtain ⟨s, hs, heq⟩ := Option.map_eq_some_iff.mp hclose
  simp only [Prod.mk.injEq, Option.map_eq_some_iff] at heq
  obtain ⟨hheld, hph, hslot, t, ht, hdropped⟩ := heq
  exact ⟨s, t, hs, ht, hdropped,
    (drop_returns fits_oneByte hs hheld (by simp [hph]) hslot ht).2⟩

end HashSystem

end Deltasync
