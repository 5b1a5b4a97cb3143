import Deltasync.ClientLoop
import Deltasync.HashContent

/-!
# The loans that are out

A worker whose buffer is lent waits for it, so that no two loans come from one
worker and none is more than `W` blocks behind the last one sent.  A consumer
that keeps its loans stops the workers; it cannot make the queue grow.
-/

namespace Deltasync

open Transition

namespace HashStream

variable {W : ℕ} {p : HashFile} {F : List UInt8} {h h' : HashStream W}
  {held held' : List (Loan (Fin W) (List UInt8))}

/-- The loans on their way through the channel and those of the consumer. -/
def live (c : OrderedChannel (Fin W) ℕ (Item W)) (held : List (Loan (Fin W) (List UInt8))) :
    List (Loan (Fin W) (List UInt8)) :=
  c.inFlight.map (fun v => v.2.data) ++ held

theorem map_tx_live (c : OrderedChannel (Fin W) ℕ (Item W))
    (held : List (Loan (Fin W) (List UInt8))) : (live c held).map Loan.tx = owners c held := by
  simp [live, owners]

theorem Control.length_live_le (hc : h.Control p held) : (live h.chan held).length ≤ W := by
  have hlen := hc.owners_nodup.length_le_card
  rw [← map_tx_live, List.length_map, Fintype.card_fin] at hlen
  exact hlen

theorem Control.lent_of_live (hc : h.Control p held) {l : Loan (Fin W) (List UInt8)}
    (hl : l ∈ live h.chan held) :
    (h.worker l.tx).pc = .reclaiming ∧ (h.worker l.tx).returned = none := by
  apply (hc.worker l.tx).lent.mp
  rw [← map_tx_live]
  exact List.mem_map_of_mem hl

/-- The worker of a loan that is out does nothing. -/
theorem workerStep_of_lent {i : Fin W} (hpc : (h.worker i).pc = .reclaiming)
    (hret : (h.worker i).returned = none) (e : WorkerEvent) : h.workerStep p F i e = none := by
  cases hs : h.workerStep p F i e with
  | none => rfl
  | some h' =>
    cases workerMove_of_step hs with
    | reclaim _ hb => rw [hret] at hb; cases hb
    | openOk h | openError h | seekOk h | seekError h | enterBlock h | leaveLoop h | read h
    | readFails h | send h | sendStep h | wake h | nextBlock h | seekNextError h | publish h
    | closeTx h | exit h => rw [hpc] at h; cases h

/-- The block of a loan that is out is one of the last `W` sent. -/
theorem Control.window_of_live (hc : h.Control p held) {l : Loan (Fin W) (List UInt8)}
    (hl : l ∈ live h.chan held) : (h.worker l.tx).blockIdx < h.chan.placed.length ∧
      h.chan.placed.length ≤ (h.worker l.tx).blockIdx + W := by
  obtain ⟨hpc, -⟩ := hc.lent_of_live hl
  have hwin := (hc.worker l.tx).window (by rw [hpc]; rfl)
  simp only [Worker.nextIdx, hpc] at hwin
  omega

/-- The loan `l` is the one that was sent with the block its worker is on. -/
def SentWith (h : HashStream W) (l : Loan (Fin W) (List UInt8)) : Prop :=
  ∃ v, h.chan.placed[(h.worker l.tx).blockIdx]? = some v ∧ v.2.data = l

theorem SentWith.mono {l : Loan (Fin W) (List UInt8)} (hl : h.SentWith l)
    (hidx : (h'.worker l.tx).blockIdx = (h.worker l.tx).blockIdx)
    (hp : h.chan.placed <+: h'.chan.placed) : h'.SentWith l := by
  obtain ⟨v, hv, hdata⟩ := hl
  refine ⟨v, ?_, hdata⟩
  rw [hidx]
  obtain ⟨t, ht⟩ := hp
  rw [← ht, List.getElem?_append_left (List.getElem?_eq_some_iff.mp hv).1, hv]

/-- What is on its way through the channel was sent last. -/
theorem Control.sentWith_inFlight (hc : h.Control p held) {v : Item W}
    (hv : v ∈ h.chan.inFlight) : h.SentWith v.2.data := by
  have hlive : v.2.data ∈ live h.chan held :=
    List.mem_append_left _ (List.mem_map_of_mem (f := fun v : Item W => v.2.data) hv)
  obtain ⟨hlt, hle⟩ := hc.window_of_live hlive
  have hone : h.chan.inFlight = [v] := by
    have hle1 := hc.chan.inFlight_le
    match hfl : h.chan.inFlight with
    | [] => rw [hfl] at hv; cases hv
    | [u] => rw [hfl] at hv; rw [List.mem_singleton.mp hv]
    | _ :: _ :: _ => rw [hfl] at hle1; simp at hle1
  have hplaced := hc.chan.placed_eq
  rw [hone] at hplaced
  have hlen : h.chan.placed.length = h.chan.delivered.length + 1 := by rw [hplaced]; simp
  have hget : h.chan.placed[h.chan.delivered.length]? = some v := by
    rw [hplaced, List.getElem?_append_right le_rfl, Nat.sub_self]
    rfl
  -- of the last `W` indices only one has the residue of the worker
  have htx := (hc.call_idx _ v (hc.chan.placed_called _ v hget)).2
  simp only [Nat.cast_id] at htx
  have hres := (hc.worker v.2.data.tx).residue
  have heq : (h.worker v.2.data.tx).blockIdx = h.chan.delivered.length := by
    have hmod : h.chan.delivered.length % W = (h.worker v.2.data.tx).blockIdx % W := by
      rw [hres, htx]
    have hd := (Nat.modEq_iff_dvd' (by omega)).mp
      (show (h.worker v.2.data.tx).blockIdx ≡ h.chan.delivered.length [MOD W] from hmod.symm)
    obtain ⟨q, hq⟩ := hd
    rcases q with _ | q
    · omega
    · rw [Nat.mul_succ] at hq
      omega
  exact ⟨v, by rw [heq, hget], rfl⟩

theorem Control.sentWith_workerStep (hc : h.Control p held) {l : Loan (Fin W) (List UInt8)}
    (hl : l ∈ held) (hsent : h.SentWith l) {i : Fin W} {e : WorkerEvent}
    (hs : h.workerStep p F i e = some h') : h'.SentWith l := by
  obtain ⟨hpc, hret⟩ := hc.lent_of_live (List.mem_append_right _ hl)
  have hf := hc.workerStep_frame hs
  have hne : l.tx ≠ i := by
    rintro rfl
    rw [workerStep_of_lent hpc hret e] at hs
    cases hs
  exact hsent.mono (by rw [hf.worker _ hne]) hf.placed

theorem sentWith_dropLoan {l l' : Loan (Fin W) (List UInt8)} (hsent : h.SentWith l) :
    (h.dropLoan l').SentWith l := by
  refine hsent.mono ?_ List.prefix_rfl
  simp only [HashStream.dropLoan, HashStream.setWorker, Function.update_apply]
  split_ifs with heq
  · rw [heq]
  · rfl

end HashStream

namespace HashSystem

open HashStream

variable {W : ℕ} {p : HashFile} {F : List UInt8} {s s' : HashSystem W}

/-- The loans that the workers miss. -/
def live (s : HashSystem W) : List (Loan (Fin W) (List UInt8)) :=
  HashStream.live s.stream.chan s.held

/-- Every loan that the consumer holds is the last one its worker sent. -/
structure Lends (p : HashFile) (s : HashSystem W) : Prop where
  control : s.stream.Control p s.held
  held : ∀ l ∈ s.held, s.stream.SentWith l

theorem lends_new (p : HashFile) (W : ℕ) : (new p W).Lends p :=
  ⟨control_hashFile p, by simp [new]⟩

theorem Lends.step (hl : s.Lends p) {e : HashEvent W} (hs : s.step p F e = some s') :
    s'.Lends p := by
  refine ⟨control_step hl.control hs, ?_⟩
  have hc := hl.control
  cases e with
  | worker i e =>
    obtain ⟨h, hh, rfl⟩ := Option.map_eq_some_iff.mp hs
    exact fun l hmem => hc.sentWith_workerStep hmem (hl.held l hmem) hh
  | recv e =>
    obtain ⟨⟨h, r⟩, hh, rfl⟩ := Option.map_eq_some_iff.mp hs
    have hf := recvStep_frame hh
    have keep : ∀ l, s.stream.SentWith l → h.SentWith l := fun l hsent =>
      hsent.mono (by rw [hf.worker]) (by rw [hf.placed])
    rcases r with _ | _ | _ | v
    · exact fun l hmem => keep l (hl.held l hmem)
    · exact fun l hmem => keep l (hl.held l hmem)
    · exact fun l hmem => keep l (hl.held l hmem)
    · -- the block that `recv` returns was the one on its way
      intro l hmem
      rcases List.mem_cons.mp hmem with rfl | hmem
      · refine keep _ (hc.sentWith_inFlight ?_)
        cases recvMove_of_step hh with
        | finish hp ht hc heq => simp [OrderedChannel.inFlight, ht, RecvCall.value]
      · exact keep l (hl.held l hmem)
  | dropLoan l' =>
    simp only [HashSystem.step, Option.ite_none_right_eq_some, Option.some.injEq] at hs
    obtain ⟨-, rfl⟩ := hs
    exact fun l hmem => sentWith_dropLoan (hl.held l (List.mem_of_mem_erase hmem))
  | close =>
    obtain ⟨h, hh, rfl⟩ := Option.map_eq_some_iff.mp hs
    have hf := (close_frame hh).1
    exact fun l hmem => (hl.held l hmem).mono (by rw [hf.worker]) (by rw [hf.placed])
  | join =>
    obtain ⟨h, hh, rfl⟩ := Option.map_eq_some_iff.mp hs
    have hf := (join_frame hh).1
    exact fun l hmem => (hl.held l hmem).mono (by rw [hf.worker]) (by rw [hf.placed])

theorem Lends.sentWith (hl : s.Lends p) {l : Loan (Fin W) (List UInt8)} (hmem : l ∈ s.live) :
    s.stream.SentWith l := by
  rcases List.mem_append.mp hmem with h | h
  · obtain ⟨v, hv, rfl⟩ := List.mem_map.mp h
    exact hl.control.sentWith_inFlight hv
  · exact hl.held l h

end HashSystem

/-- The loans that are out belong to different workers, and to blocks among the last `W` sent;
until its loan is dropped, a worker does not get on.  The client's queue, with the block
being written, is therefore at most as long as there are workers. -/
theorem loans_in_window (W : ℕ) :
    (∀ (p : HashFile) (F : List UInt8) (es : List (HashEvent W)) (s : HashSystem W),
      run (HashSystem.step p F) (.new p W) es = some s →
      (s.live.map Loan.tx).Nodup ∧ s.live.length ≤ W ∧
      ∀ l ∈ s.live, ∃ k v, s.stream.chan.placed[k]? = some v ∧ v.1 = k ∧ v.2.data = l ∧
        (s.stream.worker l.tx).blockIdx = k ∧
        k < s.stream.chan.placed.length ∧ s.stream.chan.placed.length ≤ k + W ∧
        ∀ G e, s.stream.workerStep p G l.tx e = none) ∧
    ∀ (o : NewProcess) (F : List UInt8) (es : List (ClientEvent W)) (c : Client W),
      run (Client.step o F) (.new o W) es = some c →
      c.blocksIdxToSend.length + c.writeBlock.toList.length ≤ W := by
  constructor
  · intro p F es s hrun
    have hl : s.Lends p :=
      run_invariant (fun _ _ _ h hs => h.step hs) (HashSystem.lends_new p W) hrun
    have hc := hl.control
    refine ⟨?_, hc.length_live_le, ?_⟩
    · rw [HashSystem.live, HashStream.map_tx_live]
      exact hc.owners_nodup
    · intro l hmem
      obtain ⟨v, hv, hdata⟩ := hl.sentWith hmem
      obtain ⟨hpc, hret⟩ := hc.lent_of_live hmem
      obtain ⟨hlt, hle⟩ := hc.window_of_live hmem
      have hidx := (hc.call_idx _ v (hc.chan.placed_called _ v hv)).1
      exact ⟨_, v, hv, hidx, hdata, rfl, hlt, hle,
        fun G e => HashStream.workerStep_of_lent hpc hret e⟩
  · intro o F es c hrun
    have ho : c.Owns o := run_invariant (fun _ _ _ h hs => h.step hs) Client.owns_new hrun
    have hlen := ho.control.length_live_le
    have hle : c.loans.length ≤ W := by
      rw [HashStream.live, List.length_append] at hlen
      omega
    have hloans : c.loans.length = c.writeBlock.toList.length + c.blocksIdxToSend.length := by
      rw [Client.loans, List.length_append, List.length_map]
      cases c.writeBlock <;> rfl
    omega

/-- Two workers, both blocks with the consumer: neither worker gets on. -/
theorem loans_in_window_twoWorkers :
    ∃ s, run (HashSystem.step (.onFile crcDigests .crc32 1 [7, 8]) [7, 8])
        (.new (.onFile crcDigests .crc32 1 [7, 8]) 2) HashSystem.twoWorkersRun = some s ∧
      s.held.length = 2 ∧ (s.live.map Loan.tx).Nodup := by
  have hlen : (run (HashSystem.step (.onFile crcDigests .crc32 1 [7, 8]) [7, 8])
      (.new (.onFile crcDigests .crc32 1 [7, 8]) 2) HashSystem.twoWorkersRun).map
        (·.held.length) = some 2 := by rfl
  obtain ⟨s, hrun, hheld⟩ := Option.map_eq_some_iff.mp hlen
  exact ⟨s, hrun, hheld, ((loans_in_window 2).1 _ _ _ s hrun).1⟩

end Deltasync
