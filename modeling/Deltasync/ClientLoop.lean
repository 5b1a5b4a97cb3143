import Deltasync.Client
import Deltasync.HashControl
import Deltasync.Framing

/-!
# What the client loop keeps true

Two facts hold whatever the server sends, whatever the source holds and whatever
fails.  The remote hashes waiting are the decoded ones from `block_idx` on; and
the loans in `resumable_write_block` and `blocks_idx_to_send` are exactly those
that the hash workers miss.

From the first one follows when the loop can be left with nothing to do: only if
the stream of the server ends before as many hashes as there are blocks.
-/

namespace Deltasync.Client

open HashStream Transition

variable {W : ℕ} {o : NewProcess} {F : List UInt8} {c c' : Client W}

/-! ## The pieces of a branch -/

theorem prepareNextWriteBlock_cases (o : NewProcess) (c : Client W) :
    (c.prepareNextWriteBlock o = c ∧ (c.writeBlock = none → c.blocksIdxToSend = [])) ∨
      ∃ idx data rest, c.writeBlock = none ∧ c.blocksIdxToSend = (idx, data) :: rest ∧
        c.prepareNextWriteBlock o = { c with
          blocksIdxToSend := rest
          writeBlock := some (.new (usize o.bits (idx * o.blockSize)) data)
          accepted := (idx, []) :: c.accepted } := by
  unfold prepareNextWriteBlock
  cases hw : c.writeBlock with
  | some w => exact .inl ⟨rfl, by simp⟩
  | none =>
    cases hq : c.blocksIdxToSend with
    | nil => exact .inl ⟨rfl, fun _ => rfl⟩
    | cons x rest => exact .inr ⟨x.1, x.2, rest, rfl, rfl, rfl⟩

/-- The loop without a block being written has none queued. -/
theorem prepareNextWriteBlock_queued (o : NewProcess) (c : Client W) :
    (c.prepareNextWriteBlock o).writeBlock = none →
      (c.prepareNextWriteBlock o).blocksIdxToSend = [] := by
  rcases prepareNextWriteBlock_cases o c with ⟨h1, h2⟩ | ⟨idx, data, rest, -, -, h1⟩
  · rw [h1]
    exact h2
  · rw [h1]
    simp

/-- What `prepare_next_write_block` leaves alone. -/
structure Keeps (c c' : Client W) : Prop where
  hasher : c'.hasher = c.hasher
  remoteHashes : c'.remoteHashes = c.remoteHashes
  remoteHashesDone : c'.remoteHashesDone = c.remoteHashesDone
  hashComparisonOver : c'.hashComparisonOver = c.hashComparisonOver
  readString : c'.readString = c.readString
  blockIdx : c'.blockIdx = c.blockIdx
  phase : c'.phase = c.phase
  consumed : c'.consumed = c.consumed
  decoded : c'.decoded = c.decoded
  loans : c'.loans = c.loans

theorem prepareNextWriteBlock_keeps (o : NewProcess) (c : Client W) :
    Keeps c (c.prepareNextWriteBlock o) := by
  rcases prepareNextWriteBlock_cases o c with ⟨h, -⟩ | ⟨idx, data, rest, h1, h2, h⟩
  · rw [h]
    exact ⟨rfl, rfl, rfl, rfl, rfl, rfl, rfl, rfl, rfl, rfl⟩
  · rw [h]
    refine ⟨rfl, rfl, rfl, rfl, rfl, rfl, rfl, rfl, rfl, ?_⟩
    simp [Client.loans, h1, h2, ResumableWriteFileBlock.new]

theorem advance_cases (o : NewProcess) (c : Client W) :
    (usize o.bits (c.blockIdx + 1) ≠ o.endBlockIdx ∧
        c.advance o = { c with blockIdx := usize o.bits (c.blockIdx + 1) }) ∨
      (usize o.bits (c.blockIdx + 1) = o.endBlockIdx ∧ c.writeBlock = none ∧
        c.advance o = { c with
          blockIdx := o.endBlockIdx, hashComparisonOver := true, phase := .leaving (.ok ()) }) ∨
      (usize o.bits (c.blockIdx + 1) = o.endBlockIdx ∧ c.writeBlock ≠ none ∧
        c.advance o = { c with blockIdx := o.endBlockIdx, hashComparisonOver := true }) := by
  unfold advance
  dsimp only
  split_ifs with hk hw
  · exact .inr (.inl ⟨hk, by simpa using hw, by rw [hk]⟩)
  · exact .inr (.inr ⟨hk, by simpa using hw, by rw [hk]⟩)
  · exact .inl ⟨hk, rfl⟩

/-- What a ready `write` can lead to. -/
theorem write_cases {r : Except String ℕ} (hs : c.write o r = some c') :
    ∃ w, c.writeBlock = some w ∧ bytesWritten r ≤ w.slice.length ∧
      ((∃ w' s, w.poll r = (w', .io s) ∧
          c' = { c with writeBlock := some w', accepted := logWrite w r c.accepted }) ∨
        ∃ w' res, w.poll r = (w', .done res) ∧
          c' = ({ c with accepted := logWrite w r c.accepted }.blockWritten o w').nextIteration)
    := by
  unfold write at hs
  split at hs
  · cases hs
  · next w hw =>
    split_ifs at hs with hle
    refine ⟨w, hw, hle, ?_⟩
    dsimp only at hs
    split at hs
    · next w' s hp => exact .inl ⟨w', s, hp, (Option.some.inj hs).symm⟩
    · next w' res hp => exact .inr ⟨w', res, hp, (Option.some.inj hs).symm⟩

/-- What a ready `read` can lead to. -/
theorem read_cases {r : Except String (List UInt8)} (hs : c.read o r = some c') :
    (bytesRead r).length ≤ c.readString.room o.bits ∧
      ((∃ rs n, c.readString.poll o.bits r = (rs, .io n) ∧
          c' = { c with consumed := c.consumed ++ bytesRead r, readString := rs }) ∨
        (∃ rs hash, c.readString.poll o.bits r = (rs, .done (.ok hash)) ∧
          c' = { c with
            consumed := c.consumed ++ bytesRead r
            readString := rs
            remoteHashes := c.remoteHashes ++ [hash]
            decoded := c.decoded ++ [hash] }.nextIteration) ∨
        ∃ rs err, c.readString.poll o.bits r = (rs, .done (.error err)) ∧
          c' = { c with
            consumed := c.consumed ++ bytesRead r
            readString := rs
            remoteHashesDone := true }.nextIteration) := by
  unfold read at hs
  split_ifs at hs with hle
  refine ⟨hle, ?_⟩
  dsimp only at hs
  split at hs
  · next rs n hp => exact .inl ⟨rs, n, hp, (Option.some.inj hs).symm⟩
  · next rs hash hp => exact .inr (.inl ⟨rs, hash, hp, (Option.some.inj hs).symm⟩)
  · next rs err hp => exact .inr (.inr ⟨rs, err, hp, (Option.some.inj hs).symm⟩)

/-- What a poll of `hasher.recv()` can lead to. -/
theorem recv_cases {e : RecvEvent} (hs : c.recv o e = some c') :
    ∃ remoteHash rest h r, c.remoteHashes = remoteHash :: rest ∧
      c.hasher.recvStep e = some (h, r) ∧
      ((r = none ∧ c' = { c with hasher := h }) ∨
        (∃ err, r = some (.error err) ∧
          c' = { c with hasher := h, phase := .leaving (.error err) }) ∨
        (r = some (.ok none) ∧ c' = { c with hasher := h, phase := .leaving (.ok ()) }) ∨
        ∃ v, r = some (.ok (some v)) ∧
          c' = { c with hasher := h, remoteHashes := rest }.compare o v.2 remoteHash) := by
  unfold recv at hs
  split at hs
  · next remoteHash rest h r hrem hrec =>
    refine ⟨remoteHash, rest, h, r, hrem, hrec, ?_⟩
    rcases r with _ | err | _ | v
    · exact .inl ⟨rfl, (Option.some.inj hs).symm⟩
    · exact .inr (.inl ⟨err, rfl, (Option.some.inj hs).symm⟩)
    · exact .inr (.inr (.inl ⟨rfl, (Option.some.inj hs).symm⟩))
    · exact .inr (.inr (.inr ⟨v, rfl, (Option.some.inj hs).symm⟩))
  · cases hs

/-- Everything a step can do, with what it found. -/
inductive Move (o : NewProcess) (F : List UInt8) (c : Client W) :
    ClientEvent W → Client W → Prop where
  | tick (hrun : c.phase = .running) (hfree : c.hasher.busy = false) :
      Move o F c .tick c.nextIteration
  | write {r c'} (hrun : c.phase = .running) (hfree : c.hasher.busy = false)
      (h : c.write o r = some c') : Move o F c (.write r) c'
  | read {r c'} (hrun : c.phase = .running) (hfree : c.hasher.busy = false)
      (hdone : c.remoteHashesDone = false) (h : c.read o r = some c') : Move o F c (.read r) c'
  | recv {e c'} (hrun : c.phase = .running) (hover : c.hashComparisonOver = false)
      (hne : e ≠ .cancel) (h : c.recv o e = some c') : Move o F c (.recv e) c'
  | worker {i e g} (h : c.hasher.workerStep o.hashFile F i e = some g) :
      Move o F c (.worker i e) { c with hasher := g }
  | dropLocals {r} (hph : c.phase = .leaving r) :
      Move o F c .dropLocals { c with
        hasher := c.loans.foldl HashStream.dropLoan c.hasher
        writeBlock := none
        blocksIdxToSend := []
        phase := .dropping r }
  | closeHasher {r g} (hph : c.phase = .dropping r) (h : c.hasher.close = some g) :
      Move o F c .closeHasher { c with hasher := g }
  | join {r g} (hph : c.phase = .dropping r) (h : c.hasher.join = some g) :
      Move o F c .join { c with hasher := g }
  | finish {r} (hph : c.phase = .dropping r) (h : c.hasher.phase = .dropped) :
      Move o F c .finish { c with phase := .returned r }

theorem move_of_step {e : ClientEvent W} (hs : c.step o F e = some c') : Move o F c e c' := by
  cases e with
  | tick =>
    simp only [step, Option.ite_none_right_eq_some, Option.some.injEq] at hs
    obtain ⟨⟨h1, h2⟩, rfl⟩ := hs
    exact .tick h1 h2
  | write r =>
    simp only [step, Option.ite_none_right_eq_some] at hs
    exact .write hs.1.1 hs.1.2 hs.2
  | read r =>
    simp only [step, Option.ite_none_right_eq_some] at hs
    exact .read hs.1.1 hs.1.2.1 hs.1.2.2 hs.2
  | recv e =>
    simp only [step, Option.ite_none_right_eq_some] at hs
    exact .recv hs.1.1 hs.1.2.1 hs.1.2.2 hs.2
  | worker i e =>
    obtain ⟨h, hh, rfl⟩ := Option.map_eq_some_iff.mp hs
    exact .worker hh
  | dropLocals =>
    simp only [step] at hs
    split at hs
    · next r hph =>
      obtain rfl := Option.some.inj hs
      exact .dropLocals hph
    · cases hs
  | closeHasher =>
    simp only [step] at hs
    split at hs
    · next r hph =>
      obtain ⟨h, hh, rfl⟩ := Option.map_eq_some_iff.mp hs
      exact .closeHasher hph hh
    · cases hs
  | join =>
    simp only [step] at hs
    split at hs
    · next r hph =>
      obtain ⟨h, hh, rfl⟩ := Option.map_eq_some_iff.mp hs
      exact .join hph hh
    · cases hs
  | finish =>
    simp only [step] at hs
    split at hs
    · next r hph =>
      simp only [Option.ite_none_right_eq_some, Option.some.injEq] at hs
      obtain ⟨hd, rfl⟩ := hs
      exact .finish hph hd
    · cases hs

/-! ## Counting the remote hashes -/

/-- `block_idx` counts the remote hashes compared. -/
structure Counts (o : NewProcess) (c : Client W) : Prop where
  remote : c.remoteHashes = c.decoded.drop c.blockIdx
  le_decoded : c.blockIdx ≤ c.decoded.length
  comparing : c.phase = .running → c.hashComparisonOver = false → c.blockIdx < o.endBlockIdx
  compared : c.hashComparisonOver = true → c.blockIdx = o.endBlockIdx
  sending : c.phase = .running → c.hashComparisonOver = true → c.writeBlock ≠ none
  queued : c.writeBlock = none → c.blocksIdxToSend = []
  bounded : c.blockIdx ≤ o.endBlockIdx

theorem endBlockIdx_lt (hb : 0 < o.blockSize) : o.endBlockIdx < 2 ^ o.bits := by
  have hlt : usize o.bits o.srcSize < 2 ^ o.bits := Nat.mod_lt _ (by positivity)
  refine lt_of_le_of_lt ?_ hlt
  rw [NewProcess.endBlockIdx, Blocks.divCeil_le_iff hb]
  exact Nat.le_mul_of_pos_right _ hb

theorem counts_new (h0 : 0 < o.endBlockIdx) : (new o W).Counts o :=
  ⟨rfl, le_rfl, fun _ _ => h0, by simp [new], by simp [new], fun _ => rfl, Nat.zero_le _⟩

/-- The counters do not depend on the hash stream. -/
theorem Counts.setHasher (hc : c.Counts o) (h : HashStream W) : { c with hasher := h }.Counts o :=
  ⟨hc.remote, hc.le_decoded, hc.comparing, hc.compared, hc.sending, hc.queued, hc.bounded⟩

theorem Counts.nextIteration (hc : c.Counts o) : c.nextIteration.Counts o := hc.setHasher _

theorem Counts.blockWritten (hc : c.Counts o) (w : ResumableWriteFileBlock (Fin W)) :
    (c.blockWritten o w).Counts o := by
  unfold Client.blockWritten
  dsimp only
  split_ifs with hlast
  · exact ⟨hc.remote, hc.le_decoded, by simp, hc.compared, by simp, fun _ => hlast.2, hc.bounded⟩
  · rcases prepareNextWriteBlock_cases o
      { c with writeBlock := none, hasher := c.hasher.dropLoan w.buf } with
      ⟨h1, h2⟩ | ⟨idx, data, rest, -, -, h1⟩
    · rw [h1]
      -- an empty queue with all blocks compared would have ended the loop
      have hq := h2 rfl
      exact ⟨hc.remote, hc.le_decoded, hc.comparing, hc.compared,
        fun _ hover => absurd ⟨hover, hq⟩ hlast, h2, hc.bounded⟩
    · rw [h1]
      exact ⟨hc.remote, hc.le_decoded, hc.comparing, hc.compared, by simp, by simp, hc.bounded⟩

/-- The end of the compare branch, where the remote hash is popped and not counted yet. -/
theorem counts_advance (hb : 0 < o.blockSize)
    (hrem : c.remoteHashes = c.decoded.drop (c.blockIdx + 1))
    (hlt : c.blockIdx < c.decoded.length) (hover : c.hashComparisonOver = false)
    (hend : c.blockIdx < o.endBlockIdx) (hq : c.writeBlock = none → c.blocksIdxToSend = []) :
    (c.advance o).Counts o := by
  have hno : usize o.bits (c.blockIdx + 1) = c.blockIdx + 1 :=
    usize_of_lt (by have := endBlockIdx_lt hb; omega)
  have hcases := advance_cases o c
  rw [hno] at hcases
  rcases hcases with ⟨hne, h1⟩ | ⟨heq, hw, h1⟩ | ⟨heq, hw, h1⟩
  · rw [h1]
    exact ⟨hrem, hlt, fun _ _ => by dsimp only; omega, by simp [hover], by simp [hover], hq, hend⟩
  · rw [h1, ← heq]
    exact ⟨hrem, hlt, by simp, fun _ => heq, by simp, hq, hend⟩
  · rw [h1, ← heq]
    exact ⟨hrem, hlt, by simp, fun _ => heq, fun _ _ => hw, hq, hend⟩

/-- The hash popped is the one of block `block_idx`. -/
theorem Counts.popped (hc : c.Counts o) {remoteHash : String} {rest : List String}
    (hrem : c.remoteHashes = remoteHash :: rest) :
    c.decoded[c.blockIdx]? = some remoteHash ∧ rest = c.decoded.drop (c.blockIdx + 1) := by
  have hdrop := hc.remote.symm.trans hrem
  constructor
  · rw [← Nat.add_zero c.blockIdx, ← List.getElem?_drop, hdrop]
    rfl
  · rw [← List.tail_drop, hdrop, List.tail_cons]

theorem Counts.step (hb : 0 < o.blockSize) (hc : c.Counts o) {e : ClientEvent W}
    (hs : c.step o F e = some c') : c'.Counts o := by
  cases move_of_step hs with
  | tick => exact hc.nextIteration
  | write hrun hfree h =>
    obtain ⟨w, hw, -, ⟨w', s, -, rfl⟩ | ⟨w', res, -, rfl⟩⟩ := write_cases h
    · exact ⟨hc.remote, hc.le_decoded, hc.comparing, hc.compared, by simp, by simp, hc.bounded⟩
    · refine (Counts.blockWritten ?_ w').nextIteration
      exact ⟨hc.remote, hc.le_decoded, hc.comparing, hc.compared, hc.sending, hc.queued, hc.bounded⟩
  | read hrun hfree hdone h =>
    obtain ⟨-, ⟨rs, n, -, rfl⟩ | ⟨rs, hash, -, rfl⟩ | ⟨rs, err, -, rfl⟩⟩ := read_cases h
    · exact ⟨hc.remote, hc.le_decoded, hc.comparing, hc.compared, hc.sending, hc.queued, hc.bounded⟩
    · refine Counts.nextIteration
        ⟨?_, ?_, hc.comparing, hc.compared, hc.sending, hc.queued, hc.bounded⟩
      · dsimp only
        rw [hc.remote, List.drop_append_of_le_length hc.le_decoded]
      · have := hc.le_decoded
        simp only [List.length_append]
        omega
    · refine Counts.nextIteration ?_
      exact ⟨hc.remote, hc.le_decoded, hc.comparing, hc.compared, hc.sending, hc.queued, hc.bounded⟩
  | recv hrun hover hne h =>
    obtain ⟨remoteHash, rest, g, r, hrem, -, ⟨-, rfl⟩ | ⟨err, -, rfl⟩ | ⟨-, rfl⟩ | ⟨v, -, rfl⟩⟩ :=
      recv_cases h
    · exact hc.setHasher g
    · exact ⟨hc.remote, hc.le_decoded, by simp, hc.compared, by simp, hc.queued, hc.bounded⟩
    · exact ⟨hc.remote, hc.le_decoded, by simp, hc.compared, by simp, hc.queued, hc.bounded⟩
    · -- the compare branch pops one hash and counts it
      obtain ⟨hget, hrest⟩ := hc.popped hrem
      have hlt : c.blockIdx < c.decoded.length := (List.getElem?_eq_some_iff.mp hget).1
      have hend := hc.comparing hrun hover
      unfold Client.compare
      split_ifs
      · have hk := prepareNextWriteBlock_keeps o { c with
          hasher := g
          remoteHashes := rest
          blocksIdxToSend := c.blocksIdxToSend ++ [(c.blockIdx, v.2.data)] }
        refine counts_advance hb ?_ ?_ ?_ ?_ (prepareNextWriteBlock_queued o _)
        · rw [hk.remoteHashes, hk.decoded, hk.blockIdx]
          exact hrest
        · rw [hk.decoded, hk.blockIdx]
          exact hlt
        · rw [hk.hashComparisonOver]
          exact hover
        · rw [hk.blockIdx]
          exact hend
      · exact counts_advance hb hrest hlt hover hend hc.queued
  | worker h => exact hc.setHasher _
  | dropLocals hph =>
    exact ⟨hc.remote, hc.le_decoded, by simp, hc.compared, by simp, fun _ => rfl, hc.bounded⟩
  | closeHasher hph h => exact hc.setHasher _
  | join hph h => exact hc.setHasher _
  | finish hph h =>
    exact ⟨hc.remote, hc.le_decoded, by simp, hc.compared, by simp, hc.queued, hc.bounded⟩

/-! ## Decoding the remote hashes -/

/-- The bytes read are the frames of the hashes decoded and the beginning of the next one. -/
def Reads (o : NewProcess) (c : Client W) : Prop :=
  ∃ frames got, List.Forall₂ (ReadsAs o.bits 256) frames c.decoded ∧
    c.consumed = frames.flatten ++ got ∧
    (c.remoteHashesDone = false → ResumableReadString.Partial o.bits 256 c.readString got)

theorem reads_new : (new o W).Reads o :=
  ⟨[], [], .nil, rfl, fun _ => ResumableReadString.partial_new o.bits 256⟩

theorem room_eq {bits maxLen : ℕ} {r : ResumableReadString} {got : List UInt8}
    (h : ResumableReadString.Partial bits maxLen r got) :
    (r.enter bits).2 = .io (r.room bits) ∧ 0 < r.room bits := by
  obtain ⟨r', room, he, hpos, -⟩ := ResumableReadString.enter_partial h
  rw [ResumableReadString.room, he]
  exact ⟨rfl, hpos⟩

/-- One ready `read`, when `got` has been read of the next hash: inside a frame, at the end of
a frame, or at the end of it all. -/
theorem read_outcome {got : List UInt8}
    (hp : ResumableReadString.Partial o.bits 256 c.readString got)
    (hdone : c.remoteHashesDone = false) {r : Except String (List UInt8)}
    (hs : c.read o r = some c') :
    (c'.decoded = c.decoded ∧ c'.remoteHashesDone = false ∧
        ResumableReadString.Partial o.bits 256 c'.readString (got ++ bytesRead r)) ∨
      (∃ hash, c'.decoded = c.decoded ++ [hash] ∧ c'.remoteHashesDone = false ∧
        ReadsAs o.bits 256 (got ++ bytesRead r) hash ∧
        ResumableReadString.Partial o.bits 256 c'.readString []) ∨
      (c'.decoded = c.decoded ∧ c'.remoteHashesDone = true ∧
        (bytesRead r = [] ∨ ∀ rest, ∃ e,
          Deltasync.readString o.bits 256 (got ++ bytesRead r ++ rest) = .error e)) := by
  obtain ⟨hle, hcases⟩ := read_cases hs
  by_cases hnil : bytesRead r = []
  · -- end of file, or an error of the socket
    obtain ⟨r', e, hpoll⟩ := ResumableReadString.poll_error hp hnil
    rw [hpoll] at hcases
    rcases hcases with ⟨rs, n, heq, -⟩ | ⟨rs, hash, heq, -⟩ | ⟨rs, err, -, rfl⟩
    · cases heq
    · cases heq
    · exact .inr (.inr ⟨rfl, rfl, .inl hnil⟩)
  · -- some bytes: what the reader makes of them decides
    have hok : r = .ok (bytesRead r) := by
      cases r with
      | ok bytes => rfl
      | error e => exact absurd rfl hnil
    have hout := ResumableReadString.poll_outcome hp hnil (room_eq hp).1 hle
    rw [← hok] at hout
    rcases hcases with ⟨rs, n, heq, rfl⟩ | ⟨rs, hash, heq, rfl⟩ | ⟨rs, err, heq, rfl⟩
    · rw [heq] at hout
      exact .inl ⟨rfl, hdone, hout⟩
    · rw [heq] at hout
      exact .inr (.inl ⟨hash, rfl, hdone, hout.1, hout.2⟩)
    · rw [heq] at hout
      exact .inr (.inr ⟨rfl, rfl, .inr hout⟩)

theorem read_grows {r : Except String (List UInt8)} (hs : c.read o r = some c') :
    c'.consumed = c.consumed ++ bytesRead r ∧ c.decoded <+: c'.decoded := by
  obtain ⟨-, ⟨rs, n, -, rfl⟩ | ⟨rs, hash, -, rfl⟩ | ⟨rs, err, -, rfl⟩⟩ := read_cases hs
  · exact ⟨rfl, List.prefix_rfl⟩
  · exact ⟨rfl, List.prefix_append _ _⟩
  · exact ⟨rfl, List.prefix_rfl⟩

/-- A read does not end the stream of hashes where it goes on with the frame of one. -/
theorem read_goes_on {got : List UInt8}
    (hp : ResumableReadString.Partial o.bits 256 c.readString got)
    (hdone : c.remoteHashesDone = false) {bytes f rest tail : List UInt8} (hne : bytes ≠ [])
    {hash : String} (hf : ReadsAs o.bits 256 f hash)
    (hcome : got ++ bytes ++ rest = f ++ tail) (hs : c.read o (.ok bytes) = some c') :
    c'.remoteHashesDone = false := by
  rcases read_outcome hp hdone hs with ⟨-, h, -⟩ | ⟨a, -, h, -⟩ | ⟨-, -, hnil | hbad⟩
  · exact h
  · exact h
  · exact absurd hnil hne
  · obtain ⟨err, herr⟩ := hbad rest
    rw [bytesRead, hcome, hf tail] at herr
    cases herr

/-- Only the read branch touches what `Reads` is about. -/
structure SameReader (c c' : Client W) : Prop where
  readString : c'.readString = c.readString
  consumed : c'.consumed = c.consumed
  decoded : c'.decoded = c.decoded
  done : c'.remoteHashesDone = c.remoteHashesDone

theorem sameReader_advance (o : NewProcess) (c : Client W) : SameReader c (c.advance o) := by
  rcases advance_cases o c with ⟨-, h⟩ | ⟨-, -, h⟩ | ⟨-, -, h⟩ <;> rw [h] <;>
    exact ⟨rfl, rfl, rfl, rfl⟩

theorem Keeps.sameReader (hk : Keeps c c') : SameReader c c' :=
  ⟨hk.readString, hk.consumed, hk.decoded, hk.remoteHashesDone⟩

theorem SameReader.trans {c₁ c₂ c₃ : Client W} (h : SameReader c₁ c₂) (h' : SameReader c₂ c₃) :
    SameReader c₁ c₃ :=
  ⟨h'.readString.trans h.readString, h'.consumed.trans h.consumed, h'.decoded.trans h.decoded,
    h'.done.trans h.done⟩

theorem sameReader_step {e : ClientEvent W} (hs : c.step o F e = some c')
    (he : ∀ r, e ≠ .read r) : SameReader c c' := by
  cases move_of_step hs with
  | read hrun hfree hdone h => exact absurd rfl (he _)
  | write hrun hfree h =>
    obtain ⟨w, -, -, ⟨w', s, -, rfl⟩ | ⟨w', res, -, rfl⟩⟩ := write_cases h
    · exact ⟨rfl, rfl, rfl, rfl⟩
    · refine SameReader.trans ?_ (show SameReader (Client.blockWritten o _ w') _ from
        ⟨rfl, rfl, rfl, rfl⟩)
      unfold blockWritten
      dsimp only
      split_ifs
      · exact ⟨rfl, rfl, rfl, rfl⟩
      · refine SameReader.trans ?_ (prepareNextWriteBlock_keeps o _).sameReader
        exact ⟨rfl, rfl, rfl, rfl⟩
  | recv hrun hover hne h =>
    obtain ⟨remoteHash, rest, g, r, -, -, ⟨-, rfl⟩ | ⟨err, -, rfl⟩ | ⟨-, rfl⟩ | ⟨v, -, rfl⟩⟩ :=
      recv_cases h
    · exact ⟨rfl, rfl, rfl, rfl⟩
    · exact ⟨rfl, rfl, rfl, rfl⟩
    · exact ⟨rfl, rfl, rfl, rfl⟩
    · unfold compare
      split_ifs
      · refine SameReader.trans ?_ (sameReader_advance o _)
        refine SameReader.trans ?_ (prepareNextWriteBlock_keeps o _).sameReader
        exact ⟨rfl, rfl, rfl, rfl⟩
      · refine SameReader.trans ?_ (sameReader_advance o _)
        exact ⟨rfl, rfl, rfl, rfl⟩
  | _ => exact ⟨rfl, rfl, rfl, rfl⟩

theorem SameReader.reads (hk : SameReader c c') (hr : c.Reads o) : c'.Reads o := by
  unfold Reads
  rw [hk.readString, hk.consumed, hk.decoded, hk.done]
  exact hr

theorem Reads.step (hr : c.Reads o) {e : ClientEvent W} (hs : c.step o F e = some c') :
    c'.Reads o := by
  by_cases he : ∀ r, e ≠ .read r
  · exact (sameReader_step hs he).reads hr
  · push Not at he
    obtain ⟨r, rfl⟩ := he
    cases move_of_step hs with
    | read hrun hfree hdone h =>
    obtain ⟨frames, got, hframes, hcon, hpart⟩ := hr
    have hcon' : c'.consumed = frames.flatten ++ (got ++ bytesRead r) := by
      rw [(read_grows h).1, hcon, List.append_assoc]
    rcases read_outcome (hpart hdone) hdone h with ⟨hd, -, hp⟩ | ⟨hash, hd, -, hf, hp⟩ | ⟨hd, ht, -⟩
    · exact ⟨frames, _, by rw [hd]; exact hframes, hcon', fun _ => hp⟩
    · refine ⟨frames ++ [got ++ bytesRead r], [], ?_, by simpa using hcon', fun _ => hp⟩
      rw [hd]
      exact List.rel_append hframes (.cons hf .nil)
    · exact ⟨frames, _, by rw [hd]; exact hframes, hcon', fun h => by rw [ht] at h; cases h⟩

/-! ## The loans of the client -/

theorem control_dropLoans {p : HashFile} {h : HashStream W}
    {loans held : List (Loan (Fin W) (List UInt8))} (hc : h.Control p (loans ++ held)) :
    (loans.foldl HashStream.dropLoan h).Control p held := by
  induction loans generalizing h with
  | nil => exact hc
  | cons l loans ih => exact ih hc.dropLoan

/-- The loans in `resumable_write_block` and `blocks_idx_to_send` are those that the hash
workers miss; `recv` is pending only while the compare branch is enabled. -/
structure Owns (o : NewProcess) (c : Client W) : Prop where
  control : c.hasher.Control o.hashFile c.loans
  polling : c.hasher.polling = true →
    c.phase = .running ∧ c.hashComparisonOver = false ∧ c.remoteHashes ≠ []
  alive : c.phase = .running ∨ (∃ r, c.phase = .leaving r) → c.hasher.phase = .alive

theorem owns_new : (new o W).Owns o :=
  ⟨control_hashFile _, by simp [new, Deltasync.hashFile], fun _ => rfl⟩

/-- The end of an iteration. -/
theorem owns_nextIteration (hc : c.hasher.Control o.hashFile c.loans)
    (hfree : c.hasher.busy = false) (halive : c.hasher.phase = .alive) :
    c.nextIteration.Owns o := by
  have heq := hc.cancelRecv_eq hfree
  refine ⟨hc.cancelRecv hfree, ?_, fun _ => ?_⟩
  · change c.hasher.cancelRecv.polling = true → _
    rw [heq]
    simp
  · change c.hasher.cancelRecv.phase = _
    rw [heq]
    exact halive

theorem foldl_dropLoan_frame (loans : List (Loan (Fin W) (List UInt8))) (h : HashStream W) :
    (loans.foldl HashStream.dropLoan h).chan = h.chan ∧
      (loans.foldl HashStream.dropLoan h).phase = h.phase ∧
      (loans.foldl HashStream.dropLoan h).polling = h.polling ∧
      (loans.foldl HashStream.dropLoan h).error = h.error := by
  induction loans generalizing h with
  | nil => exact ⟨rfl, rfl, rfl, rfl⟩
  | cons l loans ih => exact ih (h.dropLoan l)

theorem blockWritten_owns {w : ResumableWriteFileBlock (Fin W)}
    (hc : c.hasher.Control o.hashFile (w.buf :: c.blocksIdxToSend.map Prod.snd))
    (hfree : c.hasher.busy = false) (halive : c.hasher.phase = .alive) :
    (c.blockWritten o w).nextIteration.Owns o := by
  unfold blockWritten
  dsimp only
  split_ifs
  · exact owns_nextIteration hc.dropLoan hfree halive
  · have hk := prepareNextWriteBlock_keeps o
      { c with writeBlock := none, hasher := c.hasher.dropLoan w.buf }
    refine owns_nextIteration ?_ ?_ ?_
    · rw [hk.hasher, hk.loans]
      exact hc.dropLoan
    · rw [hk.hasher]
      exact hfree
    · rw [hk.hasher]
      exact halive

theorem blockWritten_keeps (o : NewProcess) (c : Client W) (w : ResumableWriteFileBlock (Fin W)) :
    (c.blockWritten o w).hasher = c.hasher.dropLoan w.buf ∧
      (c.blockWritten o w).blockIdx = c.blockIdx := by
  unfold blockWritten
  dsimp only
  split_ifs
  · exact ⟨rfl, rfl⟩
  · have hk := prepareNextWriteBlock_keeps o
      { c with writeBlock := none, hasher := c.hasher.dropLoan w.buf }
    exact ⟨hk.hasher, hk.blockIdx⟩

theorem write_keeps {r : Except String ℕ} (hs : c.write o r = some c') :
    c'.blockIdx = c.blockIdx ∧ c'.hasher.chan.delivered = c.hasher.chan.delivered := by
  obtain ⟨w, -, -, ⟨w', s, -, rfl⟩ | ⟨w', res, -, rfl⟩⟩ := write_cases hs
  · exact ⟨rfl, rfl⟩
  · obtain ⟨hh, hidx⟩ := blockWritten_keeps o { c with accepted := logWrite w r c.accepted } w'
    refine ⟨hidx, ?_⟩
    rw [nextIteration, delivered_cancelRecv, hh]
    rfl

theorem advance_hasher (o : NewProcess) (c : Client W) :
    (c.advance o).hasher = c.hasher ∧ (c.advance o).loans = c.loans := by
  rcases advance_cases o c with ⟨-, h⟩ | ⟨-, -, h⟩ | ⟨-, -, h⟩ <;> rw [h] <;> exact ⟨rfl, rfl⟩

/-- The loan of a block that `recv` returned is queued or dropped. -/
theorem owns_compare {d : FileBlockData (Fin W)}
    (hc : c.hasher.Control o.hashFile (d.data :: c.loans)) (hpoll : c.hasher.polling = false)
    (halive : c.hasher.phase = .alive) (remoteHash : String) :
    (c.compare o d remoteHash).Owns o := by
  unfold compare
  split_ifs
  · have hk := prepareNextWriteBlock_keeps o
      { c with blocksIdxToSend := c.blocksIdxToSend ++ [(c.blockIdx, d.data)] }
    have hl : Client.loans { c with
        blocksIdxToSend := c.blocksIdxToSend ++ [(c.blockIdx, d.data)] } =
        c.loans ++ [d.data] := by simp [loans]
    refine ⟨?_, ?_, fun _ => ?_⟩
    · rw [(advance_hasher o _).1, (advance_hasher o _).2, hk.hasher, hk.loans, hl]
      exact hc.perm (List.perm_append_singleton _ _).symm
    · rw [(advance_hasher o _).1, hk.hasher]
      simp [hpoll]
    · rw [(advance_hasher o _).1, hk.hasher]
      exact halive
  · refine ⟨?_, ?_, fun _ => ?_⟩
    · rw [(advance_hasher o _).1, (advance_hasher o _).2]
      exact hc.dropLoan
    · rw [(advance_hasher o _).1]
      simp [HashStream.dropLoan, HashStream.setWorker, hpoll]
    · rw [(advance_hasher o _).1]
      exact halive

theorem compare_hasher (o : NewProcess) (c : Client W) (d : FileBlockData (Fin W))
    (remoteHash : String) : (c.compare o d remoteHash).hasher = c.hasher ∨
      (c.compare o d remoteHash).hasher = c.hasher.dropLoan d.data := by
  unfold compare
  split_ifs
  · left
    rw [(advance_hasher o _).1, (prepareNextWriteBlock_keeps o _).hasher]
  · right
    rw [(advance_hasher o _).1]

/-- For the hash stream, a step of the client is one of a worker or one of a consumer. -/
theorem hasher_step {e : ClientEvent W} (hs : c.step o F e = some c') :
    (∃ i e', e = .worker i e' ∧ c.hasher.workerStep o.hashFile F i e' = some c'.hasher) ∨
      c.hasher.Consumes c'.hasher := by
  cases move_of_step hs with
  | worker h => exact .inl ⟨_, _, rfl, h⟩
  | tick => exact .inr (.cancelRecv .refl)
  | write hrun hfree h =>
    right
    obtain ⟨w, -, -, ⟨w', s, -, rfl⟩ | ⟨w', res, -, rfl⟩⟩ := write_cases h
    · exact .refl
    · refine .cancelRecv ?_
      rw [(blockWritten_keeps o _ w').1]
      exact .dropLoan .refl _
  | read hrun hfree hdone h =>
    right
    obtain ⟨-, ⟨rs, n, -, rfl⟩ | ⟨rs, hash, -, rfl⟩ | ⟨rs, err, -, rfl⟩⟩ := read_cases h
    · exact .refl
    · exact .cancelRecv .refl
    · exact .cancelRecv .refl
  | recv hrun hover hne h =>
    right
    obtain ⟨remoteHash, rest, g, r, -, hrec, hcases⟩ := recv_cases h
    have hg : c.hasher.Consumes g := .recvStep .refl hrec
    rcases hcases with ⟨-, rfl⟩ | ⟨err, -, rfl⟩ | ⟨-, rfl⟩ | ⟨v, -, rfl⟩
    · exact hg
    · exact hg
    · exact hg
    · rcases compare_hasher o { c with hasher := g, remoteHashes := rest } v.2 remoteHash
        with hh | hh
      · rw [hh]
        exact hg
      · rw [hh]
        exact hg.dropLoan _
  | dropLocals hph => exact .inr (.dropLoans .refl _)
  | closeHasher hph h => exact .inr (.close .refl h)
  | join hph h => exact .inr (.join .refl h)
  | finish hph h => exact .inr .refl

theorem Owns.step (ho : c.Owns o) {e : ClientEvent W} (hs : c.step o F e = some c') :
    c'.Owns o := by
  have hc := ho.control
  cases move_of_step hs with
  | tick hrun hfree => exact owns_nextIteration hc hfree (ho.alive (.inl hrun))
  | write hrun hfree h =>
    obtain ⟨w, hw, -, ⟨w', s, hp, rfl⟩ | ⟨w', res, hp, rfl⟩⟩ := write_cases h
    · have hbuf : w'.buf = w.buf := by rw [← ResumableWriteFileBlock.poll_buf w, hp]
      refine ⟨?_, ho.polling, ho.alive⟩
      simpa [loans, hw, hbuf] using hc
    · have hbuf : w'.buf = w.buf := by rw [← ResumableWriteFileBlock.poll_buf w, hp]
      refine blockWritten_owns ?_ hfree (ho.alive (.inl hrun))
      simpa [loans, hw, hbuf] using hc
  | read hrun hfree hdone h =>
    have halive := ho.alive (.inl hrun)
    obtain ⟨-, ⟨rs, n, -, rfl⟩ | ⟨rs, hash, -, rfl⟩ | ⟨rs, err, -, rfl⟩⟩ := read_cases h
    · exact ⟨hc, ho.polling, ho.alive⟩
    · exact owns_nextIteration hc hfree halive
    · exact owns_nextIteration hc hfree halive
  | recv hrun hover hne h =>
    obtain ⟨remoteHash, rest, g, r, hrem, hrec, hcases⟩ := recv_cases h
    have hf := recvStep_frame hrec
    have hg := hc.recvStep hrec
    have halive : g.phase = .alive := hf.phase.trans (ho.alive (.inl hrun))
    rcases hcases with ⟨rfl, rfl⟩ | ⟨err, rfl, rfl⟩ | ⟨rfl, rfl⟩ | ⟨v, rfl, rfl⟩
    · exact ⟨hg, fun _ => ⟨hrun, hover, by simp [hrem]⟩, fun _ => halive⟩
    · exact ⟨hg, by simp [hf.polling], fun _ => halive⟩
    · exact ⟨hg, by simp [hf.polling], fun _ => halive⟩
    · exact owns_compare (c := { c with hasher := g, remoteHashes := rest }) hg
        (hf.polling (by simp)) halive remoteHash
  | worker h =>
    have hf := hc.workerStep_frame h
    exact ⟨hc.workerStep h, by rw [hf.polling]; exact ho.polling,
      by rw [hf.phase]; exact ho.alive⟩
  | dropLocals hph =>
    obtain ⟨-, -, hpoll, -⟩ := foldl_dropLoan_frame c.loans c.hasher
    have hc' : c.hasher.Control o.hashFile (c.loans ++ []) := by simpa using hc
    refine ⟨control_dropLoans hc', ?_, by simp⟩
    dsimp only
    rw [hpoll]
    -- no `recv` is pending outside the loop
    intro hp
    have := (ho.polling hp).1
    simp [hph] at this
  | closeHasher hph h =>
    refine ⟨hc.close h, ?_, by simp [hph]⟩
    have hp := ((hc.close h).phase_closed (by simp [(close_frame h).2])).2
    simp [hp]
  | join hph h =>
    have hpoll : c.hasher.polling ≠ true := fun hp => by simpa [hph] using (ho.polling hp).1
    refine ⟨hc.join h, fun hp => absurd ?_ hpoll, by simp [hph]⟩
    rw [← (join_frame h).1.polling]
    exact hp
  | finish hph h =>
    have hpoll : c.hasher.polling ≠ true := fun hp => by simpa [hph] using (ho.polling hp).1
    exact ⟨hc, fun hp => absurd hp hpoll, by simp⟩

/-! ## A loop with nothing to do -/

/-- The loop runs and only the progress timer can fire, now and later. -/
def Idle (c : Client W) : Prop :=
  c.phase = .running ∧ c.writeBlock = none ∧ c.remoteHashesDone = true ∧
    (c.remoteHashes = [] ∨ c.hashComparisonOver = true)

/-- The reads bring the bytes of `inp` one after the other, and then the end of file. -/
def fedBy (inp : List UInt8) (c : Client W) : ClientEvent W → Bool
  | .read (.ok bytes) =>
    if bytes = [] then c.consumed = inp else (c.consumed ++ bytes).isPrefixOf inp
  | .read (.error _) => false
  | _ => true

/-- The server sends `inp` and closes the connection, which may also break at any time. -/
def hears (inp : List UInt8) (c : Client W) : ClientEvent W → Bool
  | .read (.error _) => true
  | e => c.fedBy inp e

/-- The bytes read are the next ones that the server has sent. -/
theorem consumed_prefix {inp : List UInt8} {e : ClientEvent W} (hh : c.hears inp e = true)
    (hc : c.consumed <+: inp) (hs : c.step o F e = some c') : c'.consumed <+: inp := by
  cases e with
  | read r =>
    cases move_of_step hs with
    | read hrun hfree hdone h =>
      rw [(read_grows h).1]
      cases r with
      | error err => simpa [bytesRead] using hc
      | ok bytes =>
        simp only [hears, fedBy] at hh
        split_ifs at hh with hnil
        · simpa [bytesRead, hnil] using hc
        · simpa [bytesRead] using hh
  | _ =>
    rw [(sameReader_step hs (by simp)).consumed]
    exact hc

theorem hears_of_fedBy {inp : List UInt8} {e : ClientEvent W} (h : c.fedBy inp e = true) :
    c.hears inp e = true := by
  unfold hears
  split
  · rfl
  · exact h

/-- `inp` begins with `n` strings that a reader accepts. -/
def BeginsWith (bits : ℕ) : ℕ → List UInt8 → Prop
  | 0, _ => True
  | n + 1, inp =>
    match Deltasync.readString bits 256 inp with
    | .ok (_, rest) => BeginsWith bits n rest
    | .error _ => False

theorem BeginsWith.frames {bits n : ℕ} {inp : List UInt8} (h : BeginsWith bits n inp) :
    ∃ frames hashes, List.Forall₂ (ReadsAs bits 256) frames hashes ∧ hashes.length = n ∧
      frames.flatten <+: inp := by
  induction n generalizing inp with
  | zero => exact ⟨[], [], .nil, rfl, List.nil_prefix⟩
  | succ n ih =>
    unfold BeginsWith at h
    split at h
    · next s rest hread =>
      obtain ⟨f, rfl, hf⟩ := readString_ok_iff.mp hread
      obtain ⟨frames, hashes, hframes, hlen, hpre⟩ := ih h
      exact ⟨f :: frames, s :: hashes, .cons hf hframes, by rw [List.length_cons, hlen],
        (List.prefix_append_right_inj f).mpr hpre⟩
    · exact h.elim

/-- A read ends the stream of hashes only after `n` of them. -/
structure Enough (o : NewProcess) (n : ℕ) (inp : List UInt8) (c : Client W) : Prop where
  reads : c.Reads o
  consumed : c.consumed <+: inp
  ended : c.remoteHashesDone = true → n ≤ c.decoded.length

/-- While fewer than `n` hashes are decoded, the stream goes on with the next one. -/
theorem exists_next {bits n : ℕ} {inp : List UInt8} (hinp : BeginsWith bits n inp)
    {frames : List (List UInt8)} {decoded : List String}
    (hframes : List.Forall₂ (ReadsAs bits 256) frames decoded) (hpre : frames.flatten <+: inp)
    (hlt : decoded.length < n) :
    ∃ f hash tail, ReadsAs bits 256 f hash ∧ inp = frames.flatten ++ (f ++ tail) := by
  obtain ⟨all, hashes, hall, hlen, hbegin⟩ := hinp.frames
  have hcode := isPrefixCode_readsAs bits 256
  rcases List.prefix_or_prefix_of_prefix hpre hbegin with h | h
  · obtain ⟨ds, m, rfl, rfl, -⟩ :=
      hcode.exists_tail hframes hall (by rwa [List.append_nil] : _ ++ [] <+: _)
    have hm : List.Forall₂ (ReadsAs bits 256) ds m := by
      have hdrop := List.forall₂_drop_append _ _ _ hall
      rwa [← hframes.length_eq, List.drop_left] at hdrop
    cases hm with
    | nil => simp at hlen; omega
    | @cons f hash ds m hf hm =>
      obtain ⟨tail, rfl⟩ := hbegin
      exact ⟨f, hash, ds.flatten ++ tail, hf, by simp⟩
  · obtain ⟨ds, m, -, rfl, -⟩ :=
      hcode.exists_tail hall hframes (by rwa [List.append_nil] : _ ++ [] <+: _)
    rw [List.length_append] at hlt
    omega

theorem Enough.read {n : ℕ} {inp bytes : List UInt8} (hinp : BeginsWith o.bits n inp)
    (hn : c.Enough o n inp) (hdone : c.remoteHashesDone = false)
    (hfed : c.fedBy inp (.read (.ok bytes)) = true) (hs : c.read o (.ok bytes) = some c')
    (hpre : c'.consumed <+: inp) (hend : c'.remoteHashesDone = true) : n ≤ c'.decoded.length := by
  by_contra hfew
  obtain ⟨hcon, hdec⟩ := read_grows hs
  simp only [bytesRead] at hcon
  obtain ⟨frames, got, hframes, hgot, hpart⟩ := hn.reads
  have hle := hdec.length_le
  obtain ⟨f, hash, tail, hf, hnext⟩ := exists_next hinp hframes
    (List.IsPrefix.trans ⟨got, hgot.symm⟩ hn.consumed) (by omega)
  by_cases hnil : bytes = []
  · -- the stream does not end before the next hash
    have hall : c.consumed = inp := by simpa [fedBy, hnil] using hfed
    rw [hnext, hgot] at hall
    exact (hpart hdone).ne_append hf tail (List.append_cancel_left hall).symm
  · -- the bytes go on with the next hash
    obtain ⟨rest, hrest⟩ := hpre
    rw [hcon, hgot, hnext, List.append_assoc, List.append_assoc] at hrest
    have hcome : got ++ bytes ++ rest = f ++ tail := by
      rw [List.append_assoc]
      exact List.append_cancel_left hrest
    rw [read_goes_on (hpart hdone) hdone hnil hf hcome hs] at hend
    cases hend

theorem Enough.step {n : ℕ} {inp : List UInt8} (hinp : BeginsWith o.bits n inp)
    (hn : c.Enough o n inp) {e : ClientEvent W} (hfed : c.fedBy inp e = true)
    (hs : c.step o F e = some c') : c'.Enough o n inp := by
  have hpre := consumed_prefix (hears_of_fedBy hfed) hn.consumed hs
  refine ⟨hn.reads.step hs, hpre, ?_⟩
  by_cases he : ∀ r, e ≠ .read r
  · have hk := sameReader_step hs he
    rw [hk.decoded, hk.done]
    exact hn.ended
  · push Not at he
    obtain ⟨r, rfl⟩ := he
    cases move_of_step hs with
    | read hrun hfree hdone h =>
      cases r with
      | error err => cases hfed
      | ok bytes => exact hn.read hinp hdone hfed h hpre

/-- The loop does not idle, when there are blocks to compare and the stream of the server
begins with a hash for each of them. -/
theorem never_idle (hb : 0 < o.blockSize) (hend : 0 < o.endBlockIdx) {inp : List UInt8}
    (hinp : BeginsWith o.bits o.endBlockIdx inp) {es : List (ClientEvent W)}
    (h : run (restrict (fedBy inp) (step o F)) (new o W) es = some c) : ¬ c.Idle := by
  have hinit : (new o W).Enough o o.endBlockIdx inp :=
    ⟨reads_new, List.nil_prefix, by simp [new]⟩
  obtain ⟨hc, hn⟩ := run_invariant
    (I := fun c : Client W => c.Counts o ∧ c.Enough o o.endBlockIdx inp)
    (fun u e t ⟨hc, hn⟩ ht => by
      obtain ⟨hfed, ht⟩ := restrict_eq_some.mp ht
      exact ⟨hc.step hb ht, hn.step hinp hfed ht⟩) ⟨counts_new hend, hinit⟩ h
  rintro ⟨hrun, hwrite, hdone, hrem⟩
  cases hover : c.hashComparisonOver with
  | true => exact hc.sending hrun hover hwrite
  | false =>
    -- all decoded hashes are compared, and they were enough
    have hnil : c.decoded.drop c.blockIdx = [] := by
      rw [← hc.remote]
      simpa [hover] using hrem
    rw [List.drop_eq_nil_iff] at hnil
    have hlt := hc.comparing hrun hover
    have hle := hn.ended hdone
    omega

/-- A source of one byte, in blocks of one byte. -/
def oneByte : NewProcess := .onFile 64 crcDigests .crc32 1 [7]

/-- The only hash comes in two pieces, with a tick in between, and then the stream ends. -/
def oneHashRun : List (ClientEvent 1) :=
  [.read (.ok ((writeString "ba37b786").take 8)), .tick,
    .read (.ok ((writeString "ba37b786").drop 8)), .read (.ok [])]

theorem never_idle_oneByte :
    ∃ c, run (restrict (fedBy (writeString "ba37b786")) (step oneByte [7])) (new oneByte 1)
      oneHashRun = some c ∧ ¬ c.Idle := by
  have hsome : (run (restrict (fedBy (writeString "ba37b786")) (step oneByte [7])) (new oneByte 1)
      oneHashRun).isSome = true := by rfl
  obtain ⟨c, hc⟩ := Option.isSome_iff_exists.mp hsome
  refine ⟨c, hc, never_idle (by decide) (by decide) ?_ hc⟩
  have hread : Deltasync.readString 64 256 (writeString "ba37b786") = .ok ("ba37b786", []) := by
    have h := readsAs_writeString (s := "ba37b786") le_rfl (by decide) (by decide : _ ≤ 256) []
    rwa [List.append_nil] at h
  change BeginsWith 64 1 _
  rw [BeginsWith, hread]
  trivial

/-- The server closes the connection without having sent a hash. -/
theorem idle_of_eof :
    ¬ ∀ (inp : List UInt8) (es : List (ClientEvent 1)) c,
      run (restrict (fedBy inp) (step oneByte [7])) (new oneByte 1) es = some c → ¬ c.Idle := by
  intro hall
  have hrun : (run (restrict (fedBy []) (step oneByte [7])) (new oneByte 1) [.read (.ok [])]).map
      (fun c => (c.phase, c.writeBlock, c.remoteHashesDone, c.remoteHashes)) =
      some (.running, none, true, []) := by rfl
  obtain ⟨c, hc, heq⟩ := Option.map_eq_some_iff.mp hrun
  simp only [Prod.mk.injEq] at heq
  exact hall [] _ c hc ⟨heq.1, heq.2.1, heq.2.2.1, .inl heq.2.2.2⟩

end Deltasync.Client
