import Deltasync.SessionWork

/-!
# A session in which nothing fails ends, and what it leaves behind

The steps that make progress are bounded in number, and while one of the two
functions has not returned such a step is enabled.  So both return, the client
with `Ok(())` and the server with `Ok(StatusCode::Ack)`; and then every block of
the destination is the one of the source, except where the two blocks have the
same hash: there it is the one that the destination had.
-/

namespace Deltasync

open Blocks Transition

/-- The result of the server, if it is not an error, is `Ack`. -/
def Server.Acks {W : ℕ} (s : Server W) : Prop :=
  ∀ code, s.phase.result = some (.ok code) → code = .ack

theorem Server.Acks.step {W : ℕ} {o : ProcessNewClient} {s s' : Server W} (ha : s.Acks)
    {e : ServerEvent W} (hs : s.step o e = some s') : s'.Acks := by
  intro code hcode
  cases move_of_step hs with
  | disk hrun hfree h =>
    obtain ⟨w, -, -, -, ⟨n, -, -, rfl⟩ | ⟨n, -, -, rfl⟩ | ⟨err, -, rfl⟩⟩ := disk_cases h <;>
      simp [nextIteration, wrote, hrun, ServerPhase.result] at hcode
  | diskDone hrun hfree h =>
    obtain ⟨w, -, -, rfl⟩ := diskDone_cases h
    simp [nextIteration, hrun, ServerPhase.result] at hcode
  | read hrun hfree hdisk h =>
    obtain ⟨-, ⟨rb, buf, n, -, rfl⟩ | ⟨rb, buf, off, -, rfl⟩ | ⟨rb, buf, err, -, rfl⟩⟩ :=
      read_cases h <;> simp [nextIteration, hrun, ServerPhase.result] at hcode
  | hashOut hrun hfree h =>
    obtain ⟨w, -, -, ⟨w', t, -, rfl⟩ | ⟨w', res, -, rfl⟩⟩ := hashOut_cases h <;>
      simp [nextIteration, hrun, ServerPhase.result] at hcode
  | recv hrun hhash hdone hne h =>
    obtain ⟨g, r, -, ⟨-, rfl⟩ | ⟨err, -, rfl⟩ | ⟨-, rfl⟩ | ⟨v, -, rfl⟩⟩ := recv_cases h <;>
      simp [hrun, ServerPhase.result] at hcode
  | syncOk hph => simpa [ServerPhase.result] using hcode.symm
  | seekOk | seekError | flushOk | flushError | syncError => simp [ServerPhase.result] at hcode
  | worker h => exact ha code hcode
  | closeHasher hph h => exact ha code hcode
  | join hph h => exact ha code hcode
  | finish hph h =>
    apply ha code
    rw [hph]
    exact hcode

namespace Setup

/-- The block that a session leaves at position `k`. -/
def merged (x : Setup) (k : ℕ) : List UInt8 :=
  if hashData x.digests (block x.blockSize x.source k) x.hashAlgorithm =
      hashData x.digests (block x.blockSize x.dest k) x.hashAlgorithm
  then block x.blockSize x.dest k else block x.blockSize x.source k

/-- Bound for the number of steps of a session. -/
def budget (x : Setup) : ℕ :=
  let workers (W : ℕ) := W * ((x.blocks + W) * (x.blockSize + 8) + x.blocks + W + 9)
  workers x.clientWorkers + workers x.serverWorkers + 9 * x.maxFrames + 8 * x.maxHashes +
    8 * x.blocks + 29

end Setup

namespace Session

open HashStream

variable {x : Setup} {s s' : Session x.clientWorkers x.serverWorkers}

/-! ## The result -/

/-- Past the end of the file there is no block. -/
theorem block_eq_nil {b k : ℕ} {l : List UInt8} (hle : l.length ≤ k * b) : block b l k = [] := by
  rw [block, List.drop_eq_nil_of_le hle, List.take_nil]

theorem Sound.merged_eq (hS : s.Sound x) {r : Except String Unit}
    (hr : s.client.phase.result = some r) (hin : ¬ s.server.InLoop) :
    s.server.file.content.length = x.source.length ∧
      ∀ k, block x.blockSize s.server.file.content k = x.merged k := by
  have hcon := (hS.wire.applies.resolve_left hS.announces.unfailed).content_eq hS.wire.writes hin
    hS.announces.unfailed
  have hlen : s.server.file.content.length = x.source.length := by
    rw [hcon, length_overwrite hS.wire.inRange, x.dest_length]
  rw [hS.received_eq hr hin] at hcon
  have hfits : ∀ k ∈ Client.diverging x.newProcess x.source s.client.decoded
      (divCeil x.source.length x.blockSize), k * x.blockSize ≤ x.source.length := fun k hk =>
    ((lt_divCeil_iff x.blockSize_pos).mp (Client.mem_diverging.mp hk).1).le
  refine ⟨hlen, fun k => ?_⟩
  rw [hcon, block_overwrite x.dest_length hfits, Setup.merged]
  by_cases hlt : k < divCeil x.source.length x.blockSize
  · -- the client has decoded the hash of the block of the destination
    have hidx := (hS.client_delivered hr).2.1
    have hdec := hS.wire.sends.counts.le_decoded
    obtain ⟨hash, hhash⟩ : ∃ hash, s.client.decoded[k]? = some hash :=
      ⟨_, List.getElem?_eq_getElem (by omega)⟩
    have heq := hS.hash_eq hhash
    simp only [Client.mem_diverging, hlt, true_and, hhash, heq, ne_eq, Option.some.injEq]
    by_cases hsame : hashData x.digests (block x.blockSize x.source k) x.hashAlgorithm =
        hashData x.digests (block x.blockSize x.dest k) x.hashAlgorithm
    · rw [if_neg, if_pos hsame]
      exact not_not.mpr hsame.symm
    · rw [if_pos, if_neg hsame]
      exact fun h => hsame h.symm
  · have hle : x.source.length ≤ k * x.blockSize := by
      rw [← divCeil_le_iff x.blockSize_pos]
      omega
    rw [block_eq_nil hle, block_eq_nil (by rw [x.dest_length]; exact hle)]
    simp

theorem acks_of_run {es : List (SessionEvent x.clientWorkers x.serverWorkers)}
    (h : run (restrict succeeds (step x)) (start x) es = some s) : s.server.Acks := by
  refine run_invariant (I := fun s => s.server.Acks) ?_ ?_ h
  · intro u e t ha ht
    obtain ⟨-, ht⟩ := restrict_eq_some.mp ht
    cases move_of_step ht with
    | client | write | writeLost | read | readEnd | cut => exact ha
    | server _ _ h | hashOut _ _ h | hashLost _ h | serverRead _ _ h | serverReadEnd _ _ h =>
      exact ha.step h
  · intro code hcode
    simp [start, Server.new, ServerPhase.result] at hcode

theorem streamWork_hashFile_le (p : HashFile) (W : ℕ) :
    (hashFile p W).streamWork p ≤
      W * ((p.blocks + W) * (p.blockSize + 8) + p.blocks + W + 9) + 4 * p.blocks + 5 := by
  have hle := workersWork_hashFile_le p W
  have hrest : (hashFile p W).streamWork p =
      (hashFile p W).workersWork p + 3 + 4 * p.blocks + (W + 2) := rfl
  have hone : W * ((p.blocks + W) * (p.blockSize + 8) + p.blocks + W + 9) =
      W * ((p.blocks + W) * (p.blockSize + 8) + p.blocks + W + 8) + W := Nat.mul_succ _ _
  omega

theorem Heard.step_work (hH : s.Heard x) {e : SessionEvent x.clientWorkers x.serverWorkers}
    (hok : e.succeeds = true) (hs : s.step x e = some s') :
    s'.work x + (if e.progress then 1 else 0) ≤ s.work x + (if !e.progress then 3 else 0) := by
  cases hp : e.progress with
  | true =>
    have := hH.work_lt hp hs
    simp only [if_true, Bool.not_true, Bool.false_eq_true, if_false]
    omega
  | false =>
    have := hH.work_le hok hp hs
    simp only [if_true, Bool.not_false, Bool.false_eq_true, if_false]
    omega

/-- Both functions have returned, or a step that makes progress is enabled. -/
theorem Sound.moves (hS : s.Sound x) :
    (∃ r r', s.client.phase = .returned r ∧ s.server.phase = .returned r') ∨ s.CanMove x := by
  cases hserver : s.server.phase with
  | seeking off | flushing | syncing | leaving r =>
    exact .inr (hS.server_leaves (by simp [hserver]) (by simp [hserver]))
  | returned r' =>
    have hc := (hS.closed (by simp [Server.InLoop, hserver])).1
    cases hph : s.client.phase with
    | running | leaving r => simp [Client.connected, hph] at hc
    | dropping r => exact .inr (hS.client_leaves (r := r) (by rw [hph]; rfl) (by simp [hph]))
    | returned r => exact .inl ⟨r, r', rfl, rfl⟩
  | running =>
    right
    rcases hS.server_runs hserver with hmove | ⟨hbusy, hto, hc⟩
    · exact hmove
    cases hph : s.client.phase with
    | dropping r | returned r => simp [Client.connected, hph] at hc
    | leaving r => exact hS.client_leaves (r := r) (by rw [hph]; rfl) (by simp [hph])
    | running =>
      rcases hS.client_runs hph hto with hmove | ⟨hcl, hlt, hrem⟩
      · exact hmove
      · exact hS.server_hashes hserver hbusy hc hcl hlt hrem

end Session

end Deltasync
