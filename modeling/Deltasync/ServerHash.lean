import Deltasync.ServerLoop
import Deltasync.HashContent

/-!
# The hashes that the server sends

The loop drops the data of a block at once, so that no worker waits for the
consumer.  When nothing fails, the bytes accepted by the socket and those still
to be written are the hashes delivered, in order.

The workers read the file that the loop writes to.  Their hashes are those of
the original content `dest` as long as the blocks not yet placed on the channel
are untouched; this is the premise on the content in each step.
-/

namespace Deltasync

open Blocks HashStream

/-- No operation of the server fails in this step. -/
def ServerEvent.succeeds {W : ℕ} : ServerEvent W → Bool
  | .disk (.error _) | .read (.error _) | .seek (.error _) | .hashOut (.error _)
  | .flush (.error _) | .sync (.error _) => false
  | .worker _ e => e.succeeds
  | _ => true

/-! ## The length of a hash -/

theorem length_asBytes_ofList (l : List Char) :
    (asBytes (String.ofList l)).length ≤ 4 * l.length := by
  rw [asBytes, String.toByteArray_ofList, Array.length_toList]
  change l.utf8Encode.size ≤ _
  induction l with
  | nil => simp
  | cons c l ih =>
    have hc := Char.utf8Size_le_four c
    rw [List.utf8Encode_cons, ByteArray.size_append, List.utf8Encode_singleton,
      List.size_toByteArray, String.length_utf8EncodeChar, List.length_cons]
    omega

theorem length_hexEncode (bytes : List UInt8) :
    (asBytes (hexEncode bytes)).length ≤ 8 * bytes.length := by
  refine (length_asBytes_ofList _).trans ?_
  induction bytes with
  | nil => simp
  | cons b bs ih =>
    simp only [List.flatMap_cons, List.length_append, List.length_cons, List.length_nil] at ih ⊢
    omega

/-- A hash is not longer than what the client accepts. -/
theorem length_hashData (d : Digests) (data : List UInt8) (alg : HashAlgorithm) :
    (asBytes (hashData d data alg)).length ≤ 256 := by
  cases alg with
  | crc32 =>
    refine (length_hexEncode _).trans ?_
    simp [toLeBytes]
  | md5 =>
    refine (length_hexEncode _).trans ?_
    simp

namespace Server

variable {W : ℕ} {o : ProcessNewClient} {s s' : Server W} {dest : List UInt8}

/-! ## The hash stream -/

/-- The server holds no loan, and `recv` is pending only while its branch is enabled. -/
structure Owns (o : ProcessNewClient) (s : Server W) : Prop where
  control : s.hasher.Control o.hashFile []
  polling : s.hasher.polling = true →
    s.phase = .running ∧ s.writeHash = none ∧ s.hashingDone = false
  alive : s.phase.result = none → s.hasher.phase = .alive

theorem owns_new (dest : List UInt8) : (new o W dest).Owns o :=
  ⟨control_hashFile _, by simp [new, Deltasync.hashFile], fun _ => rfl⟩

/-- A change of the loop, with the hash stream left alone. -/
theorem Owns.of_eq (ho : s.Owns o) (hh : s'.hasher = s.hasher)
    (hph : s'.phase.result = none → s.phase.result = none)
    (hpoll : s.hasher.polling = true →
      s'.phase = .running ∧ s'.writeHash = none ∧ s'.hashingDone = false) : s'.Owns o where
  control := by rw [hh]; exact ho.control
  polling := by rw [hh]; exact hpoll
  alive h := by rw [hh]; exact ho.alive (hph h)

/-- The end of an iteration. -/
theorem Owns.nextIteration (ho : s.Owns o) (hfree : s.hasher.busy = false)
    (hrun : s.phase = .running) (hh : s'.hasher = s.hasher.cancelRecv) : s'.Owns o := by
  have heq := ho.control.cancelRecv_eq hfree
  refine ⟨by rw [hh]; exact ho.control.cancelRecv hfree, ?_, fun _ => ?_⟩
  · rw [hh, heq]
    simp
  · rw [hh, heq]
    exact ho.alive (by rw [hrun]; rfl)

/-- For the hash stream, a step of the server is one of a worker or one of a consumer. -/
theorem hasher_step {e : ServerEvent W} (hs : s.step o e = some s') :
    (∃ i e', e = .worker i e' ∧
        s.hasher.workerStep o.hashFile s.file.content i e' = some s'.hasher) ∨
      s.hasher.Consumes s'.hasher := by
  have hcancel : s.hasher.Consumes s.hasher.cancelRecv := .cancelRecv .refl
  cases move_of_step hs with
  | worker h => exact .inl ⟨_, _, rfl, h⟩
  | disk hrun hfree h =>
    right
    obtain ⟨w, -, -, -, ⟨n, -, -, rfl⟩ | ⟨n, -, -, rfl⟩ | ⟨err, -, rfl⟩⟩ := disk_cases h
    · exact .refl
    · exact hcancel
    · exact hcancel
  | diskDone hrun hfree h =>
    obtain ⟨w, -, -, rfl⟩ := diskDone_cases h
    exact .inr hcancel
  | read hrun hfree hdisk h =>
    right
    obtain ⟨-, ⟨rb, buf, n, -, rfl⟩ | ⟨rb, buf, off, -, rfl⟩ | ⟨rb, buf, err, -, rfl⟩⟩ :=
      read_cases h
    · exact .refl
    · exact hcancel
    · exact hcancel
  | hashOut hrun hfree h =>
    right
    obtain ⟨w, -, -, ⟨w', t, -, rfl⟩ | ⟨w', res, -, rfl⟩⟩ := hashOut_cases h
    · exact .refl
    · exact hcancel
  | recv hrun hhash hdone hne h =>
    right
    obtain ⟨g, r, hrec, hcases⟩ := recv_cases h
    have hg : s.hasher.Consumes g := .recvStep .refl hrec
    rcases hcases with ⟨-, rfl⟩ | ⟨err, -, rfl⟩ | ⟨-, rfl⟩ | ⟨v, -, rfl⟩
    · exact hg
    · exact hg
    · exact hg
    · exact hg.dropLoan _
  | closeHasher hph h => exact .inr (.close .refl h)
  | join hph h => exact .inr (.join .refl h)
  | _ => exact .inr .refl

theorem Owns.step (ho : s.Owns o) {e : ServerEvent W} (hs : s.step o e = some s') :
    s'.Owns o := by
  have hidle : s.phase ≠ .running → s.hasher.polling ≠ true := fun hne hp =>
    hne (ho.polling hp).1
  cases move_of_step hs with
  | disk hrun hfree h =>
    obtain ⟨w, -, -, -, ⟨n, -, -, rfl⟩ | ⟨n, -, -, rfl⟩ | ⟨err, -, rfl⟩⟩ := disk_cases h
    · exact ho.of_eq rfl id ho.polling
    · exact ho.nextIteration hfree hrun rfl
    · exact ho.nextIteration hfree hrun rfl
  | diskDone hrun hfree h =>
    obtain ⟨w, -, -, rfl⟩ := diskDone_cases h
    exact ho.nextIteration hfree hrun rfl
  | read hrun hfree hdisk h =>
    obtain ⟨-, ⟨rb, buf, n, -, rfl⟩ | ⟨rb, buf, off, -, rfl⟩ | ⟨rb, buf, err, -, rfl⟩⟩ :=
      read_cases h
    · exact ho.of_eq rfl id ho.polling
    · exact ho.nextIteration hfree hrun rfl
    · exact ho.nextIteration hfree hrun rfl
  | seekOk hph | seekError hph | flushOk hph | flushError hph | syncOk hph | syncError hph
  | finish hph =>
    exact ho.of_eq rfl (by simp [hph, ServerPhase.result])
      fun hp => absurd hp (hidle (by simp [hph]))
  | hashOut hrun hfree h =>
    obtain ⟨w, hw, -, ⟨w', t, -, rfl⟩ | ⟨w', res, -, rfl⟩⟩ := hashOut_cases h
    · -- `recv` is not polled while a hash is being written
      refine ho.of_eq rfl id fun hp => ?_
      have hnone := (ho.polling hp).2.1
      rw [hw] at hnone
      cases hnone
    · exact ho.nextIteration hfree hrun rfl
  | recv hrun hhash hdone hne h =>
    obtain ⟨g, r, hrec, hcases⟩ := recv_cases h
    have hf := recvStep_frame hrec
    have hg := ho.control.recvStep hrec
    have halive : g.phase = .alive := hf.phase.trans (ho.alive (by rw [hrun]; rfl))
    rcases hcases with ⟨rfl, rfl⟩ | ⟨err, rfl, rfl⟩ | ⟨rfl, rfl⟩ | ⟨v, rfl, rfl⟩
    · exact ⟨hg, fun _ => ⟨hrun, hhash, hdone⟩, fun _ => halive⟩
    · exact ⟨hg, by simp [hf.polling], fun _ => halive⟩
    · exact ⟨hg, by simp [hf.polling], fun _ => halive⟩
    · have hpoll : g.polling = false := hf.polling (by simp)
      exact ⟨hg.dropLoan, by simp [HashStream.dropLoan, HashStream.setWorker, hpoll],
        fun _ => halive⟩
  | worker h =>
    have hf := ho.control.workerStep_frame h
    exact ⟨ho.control.workerStep h, by rw [hf.polling]; exact ho.polling,
      by rw [hf.phase]; exact ho.alive⟩
  | closeHasher hph h =>
    have hp := ((ho.control.close h).phase_closed (by simp [(close_frame h).2])).2
    exact ⟨ho.control.close h, by simp [hp], by simp [hph, ServerPhase.result]⟩
  | join hph h =>
    refine ⟨ho.control.join h, fun hp => absurd ?_ (hidle (by simp [hph])),
      by simp [hph, ServerPhase.result]⟩
    rw [← (join_frame h).1.polling]
    exact hp

/-! ## The bytes of the hashes -/

/-- The bytes of the hash being written that the socket has not accepted. -/
def unsent (s : Server W) : List UInt8 :=
  match s.writeHash with
  | some w => w.remaining
  | none => []

/-- The hashes delivered by the workers. -/
def hashes (s : Server W) : List String := s.hasher.chan.delivered.map fun v => v.2.hash

/-- A hash being written has bytes left to write. -/
def Pending (s : Server W) : Prop := ∀ w, s.writeHash = some w → w.remaining ≠ []

/-- What a step does to the hashes and to the one being written: nothing, the next one is
delivered, some bytes are accepted, or the rest of it is dropped with an error. -/
inductive HashMove (s : Server W) : ServerEvent W → Server W → Prop where
  | same {e t} (he : ∀ r, e ≠ .hashOut r) (hh : t.hashes = s.hashes) (hu : t.unsent = s.unsent) :
      HashMove s e t
  | next {e t} (he : ∀ r, e ≠ .hashOut r) (hnil : s.unsent = []) (hash : String)
      (hh : t.hashes = s.hashes ++ [hash]) (hu : t.unsent = writeString hash) : HashMove s e t
  | accepted {n t} (hh : t.hashes = s.hashes) (hu : s.offered.take n ++ t.unsent = s.unsent) :
      HashMove s (.hashOut (.ok n)) t
  | lost {err t} (hh : t.hashes = s.hashes) (hu : t.unsent = []) :
      HashMove s (.hashOut (.error err)) t

theorem Pending.hashOut (hp : s.Pending) {r : Except String ℕ} (hs : s.hashOut r = some s') :
    s'.Pending ∧ HashMove s (.hashOut r) s' := by
  obtain ⟨w, hw, -, hcases⟩ := hashOut_cases hs
  have hne := hp w hw
  have hdel := delivered_cancelRecv s.hasher
  cases r with
  | error err =>
    have hpoll : w.poll (.error err) = (w, .done (.error err)) := by
      simp [ResumableWriteString.poll, ResumableWriteString.enter_eq, hne,
        ResumableWriteString.onWrite]
    rw [hpoll] at hcases
    rcases hcases with ⟨w', t, heq, -⟩ | ⟨w', res, -, rfl⟩
    · cases heq
    · exact ⟨by simp [Pending, Server.nextIteration],
        .lost (by simp [hashes, Server.nextIteration, hdel]) rfl⟩
  | ok n =>
    obtain ⟨w₁, hrem, hpoll⟩ := ResumableWriteString.poll_ok w hne n
    have hall : s.offered.take n ++ w₁.remaining = s.unsent := by
      rw [offered, unsent, hw]
      dsimp only
      rw [hrem, ResumableWriteString.slice_eq, List.take_append_drop]
    rw [hpoll] at hcases
    split_ifs at hcases with hnil
    · rcases hcases with ⟨w', t, heq, -⟩ | ⟨w', res, -, rfl⟩
      · cases heq
      · rw [hnil] at hall
        exact ⟨by simp [Pending, Server.nextIteration],
          .accepted (by simp [hashes, Server.nextIteration, hdel]) hall⟩
    · rcases hcases with ⟨w', t, heq, rfl⟩ | ⟨w', res, heq, -⟩
      · obtain rfl : w₁ = w' := congrArg Prod.fst heq
        refine ⟨fun w' hw' => ?_, .accepted rfl hall⟩
        obtain rfl := Option.some.inj hw'
        exact hnil
      · cases heq

theorem Pending.of_eq (hp : s.Pending) {e : ServerEvent W} (he : ∀ r, e ≠ .hashOut r)
    (hw : s'.writeHash = s.writeHash)
    (hd : s'.hasher.chan.delivered = s.hasher.chan.delivered) :
    s'.Pending ∧ HashMove s e s' :=
  ⟨by rw [Pending, hw]; exact hp, .same he (by rw [hashes, hd, hashes])
    (by rw [unsent, hw, unsent])⟩

theorem Pending.step (ho : s.Owns o) (hp : s.Pending) {e : ServerEvent W}
    (hs : s.step o e = some s') : s'.Pending ∧ HashMove s e s' := by
  have hcancel := delivered_cancelRecv s.hasher
  cases move_of_step hs with
  | hashOut hrun hfree h => exact hp.hashOut h
  | disk hrun hfree h =>
    obtain ⟨w, -, -, -, ⟨n, -, -, rfl⟩ | ⟨n, -, -, rfl⟩ | ⟨err, -, rfl⟩⟩ := disk_cases h
    · exact hp.of_eq (by simp) rfl rfl
    · exact hp.of_eq (by simp) rfl hcancel
    · exact hp.of_eq (by simp) rfl hcancel
  | diskDone hrun hfree h =>
    obtain ⟨w, -, -, rfl⟩ := diskDone_cases h
    exact hp.of_eq (by simp) rfl hcancel
  | read hrun hfree hdisk h =>
    obtain ⟨-, ⟨rb, buf, n, -, rfl⟩ | ⟨rb, buf, off, -, rfl⟩ | ⟨rb, buf, err, -, rfl⟩⟩ :=
      read_cases h
    · exact hp.of_eq (by simp) rfl rfl
    · exact hp.of_eq (by simp) rfl hcancel
    · exact hp.of_eq (by simp) rfl hcancel
  | recv hrun hhash hdone hne h =>
    obtain ⟨g, r, hrec, hcases⟩ := recv_cases h
    have hf := recvStep_frame hrec
    rcases hcases with ⟨rfl, rfl⟩ | ⟨err, rfl, rfl⟩ | ⟨rfl, rfl⟩ | ⟨v, rfl, rfl⟩
    · exact hp.of_eq (by simp) rfl (by simpa using hf.delivered)
    · exact hp.of_eq (by simp) rfl (by simpa [RecvResult.blocks] using hf.delivered)
    · exact hp.of_eq (by simp) rfl (by simpa [RecvResult.blocks] using hf.delivered)
    · -- the hash just delivered is the one to write
      have hdel : g.chan.delivered = s.hasher.chan.delivered ++ [v] := by
        simpa [RecvResult.blocks] using hf.delivered
      refine ⟨fun w hw => ?_, .next (by simp) (by rw [unsent, hhash]) v.2.hash ?_ rfl⟩
      · obtain rfl := Option.some.inj hw
        rw [ResumableWriteString.remaining_new]
        exact writeString_ne_nil _
      · change g.chan.delivered.map _ = _
        rw [hdel, hashes]
        simp
  | worker h => exact hp.of_eq (by simp) rfl (ho.control.workerStep_frame h).delivered
  | closeHasher hph h => exact hp.of_eq (by simp) rfl (close_frame h).1.delivered
  | join hph h => exact hp.of_eq (by simp) rfl (join_frame h).1.delivered
  | seekOk hph | seekError hph | flushOk hph | flushError hph | syncOk hph | syncError hph
  | finish hph => exact hp.of_eq (by simp) rfl rfl
/-- When nothing has failed: the workers hash `dest`, and what they deliver is sent. -/
structure Announces (o : ProcessNewClient) (dest : List UInt8) (s : Server W) : Prop where
  owns : s.Owns o
  content : s.hasher.Content o.hashFile dest
  healthy : s.hasher.Healthy
  unfailed : ¬ s.Failed
  sent : s.sent ++ s.unsent = s.hashes.flatMap writeString
  pending : ∀ w, s.writeHash = some w → w.remaining ≠ []
  ended : s.hashingDone = true → divCeil dest.length o.blockSize ≤ s.hasher.chan.delivered.length

theorem announces_new (hb : 0 < o.blockSize) : (new o W dest).Announces o dest :=
  ⟨owns_new dest, content_hashFile hb, healthy_hashFile, by simp [new, Failed, ServerPhase.result],
    rfl, by simp [new], by simp [new]⟩

/-- A hash delivered was sent by a worker that had read its block, the one of `dest`. -/
theorem Owns.hash_eq (ho : s.Owns o) (hC : s.hasher.Content o.hashFile dest) {k : ℕ}
    {hash : String} (hk : s.hashes[k]? = some hash) :
    k * o.blockSize < dest.length ∧ hash = o.hash (block o.blockSize dest k) ∧
      ∃ v, (k, v) ∈ s.hasher.chan.calls := by
  simp only [hashes, List.getElem?_map, Option.map_eq_some_iff] at hk
  obtain ⟨v, hv, rfl⟩ := hk
  have hplaced : s.hasher.chan.placed[k]? = some v := by
    have hlt := (List.getElem?_eq_some_iff.mp hv).1
    rw [ho.control.chan.placed_eq, List.getElem?_append_left hlt, hv]
  have hcall := ho.control.chan.placed_called k v hplaced
  obtain ⟨h1, h2, -⟩ := hC.calls k v hcall
  exact ⟨h1, h2, v, hcall⟩

/-- The hashes delivered stay delivered. -/
theorem Owns.hashes_step (ho : s.Owns o) {e : ServerEvent W} (hs : s.step o e = some s') :
    s.hashes <+: s'.hashes := by
  suffices s.hasher.chan.delivered <+: s'.hasher.chan.delivered from this.map _
  rcases hasher_step hs with ⟨i, e', -, h⟩ | h
  · rw [(ho.control.workerStep_frame h).delivered]
  · exact h.delivered

/-- Only a write of a hash changes what was sent. -/
theorem sent_step {e : ServerEvent W} (hs : s.step o e = some s') (he : ∀ r, e ≠ .hashOut r) :
    s'.sent = s.sent := by
  cases move_of_step hs with
  | hashOut hrun hfree h => exact absurd rfl (he _)
  | disk hrun hfree h =>
    obtain ⟨w, -, -, -, ⟨n, -, -, rfl⟩ | ⟨n, -, -, rfl⟩ | ⟨err, -, rfl⟩⟩ := disk_cases h <;> rfl
  | diskDone hrun hfree h =>
    obtain ⟨w, -, -, rfl⟩ := diskDone_cases h
    rfl
  | read hrun hfree hdisk h =>
    obtain ⟨-, ⟨rb, buf, n, -, rfl⟩ | ⟨rb, buf, off, -, rfl⟩ | ⟨rb, buf, err, -, rfl⟩⟩ :=
      read_cases h <;> rfl
  | recv hrun hhash hdone hne h =>
    obtain ⟨g, r, -, ⟨-, rfl⟩ | ⟨err, -, rfl⟩ | ⟨-, rfl⟩ | ⟨v, -, rfl⟩⟩ := recv_cases h <;> rfl
  | _ => rfl

theorem sent_hashOut {r : Except String ℕ} (hs : s.step o (.hashOut r) = some s') :
    s'.sent = s.sent ++ s.offered.take (bytesWritten r) := by
  cases move_of_step hs with
  | hashOut hrun hfree h =>
    obtain ⟨w, hw, -, ⟨w', t, -, rfl⟩ | ⟨w', res, -, rfl⟩⟩ := hashOut_cases h <;>
      simp [offered, hw, Server.nextIteration]

/-- Hashing is found done by a `recv` that finds the end. -/
theorem hashingDone_step {e : ServerEvent W} (hs : s.step o e = some s')
    (hd : s'.hashingDone = true) (hnot : ¬ s.hashingDone = true) :
    ∃ e' h, e = .recv e' ∧ s.hasher.recvStep e' = some (h, some (.ok none)) := by
  cases move_of_step hs with
  | recv hrun hhash hdone hne h =>
    obtain ⟨g, r, hrec, ⟨-, rfl⟩ | ⟨err, -, rfl⟩ | ⟨rfl, -⟩ | ⟨v, -, rfl⟩⟩ := recv_cases h
    · exact absurd hd hnot
    · exact absurd hd hnot
    · exact ⟨_, g, rfl, hrec⟩
    · exact absurd hd hnot
  | disk hrun hfree h =>
    obtain ⟨w, -, -, -, ⟨n, -, -, rfl⟩ | ⟨n, -, -, rfl⟩ | ⟨err, -, rfl⟩⟩ := disk_cases h <;>
      exact absurd hd hnot
  | diskDone hrun hfree h =>
    obtain ⟨w, -, -, rfl⟩ := diskDone_cases h
    exact absurd hd hnot
  | read hrun hfree hdisk h =>
    obtain ⟨-, ⟨rb, buf, n, -, rfl⟩ | ⟨rb, buf, off, -, rfl⟩ | ⟨rb, buf, err, -, rfl⟩⟩ :=
      read_cases h <;> exact absurd hd hnot
  | hashOut hrun hfree h =>
    obtain ⟨w, -, -, ⟨w', t, -, rfl⟩ | ⟨w', res, -, rfl⟩⟩ := hashOut_cases h <;>
      exact absurd hd hnot
  | _ => exact absurd hd hnot

/-- What the socket has accepted and what it is still to accept are the hashes delivered. -/
theorem Announces.sent_step (hA : s.Announces o dest) {e : ServerEvent W}
    (hok : e.succeeds = true) (hs : s.step o e = some s') :
    s'.sent ++ s'.unsent = s'.hashes.flatMap writeString := by
  have hsent := hA.sent
  cases (Pending.step hA.owns hA.pending hs).2 with
  | same he hh hu => rw [Server.sent_step hs he, hh, hu, hsent]
  | next he hnil hash hh hu =>
    rw [hnil, List.append_nil] at hsent
    rw [Server.sent_step hs he, hh, hu, hsent, List.flatMap_append, List.flatMap_singleton]
  | accepted hh hu => rw [sent_hashOut hs, hh, List.append_assoc, bytesWritten, hu, hsent]
  | lost => cases hok

/-- `Ok(None)` comes after the last block. -/
theorem Announces.ended_step (hfit : Fits o.hashFile W dest) (hA : s.Announces o dest)
    {e : ServerEvent W} (hs : s.step o e = some s') (hd : s'.hashingDone = true) :
    divCeil dest.length o.blockSize ≤ s'.hasher.chan.delivered.length := by
  have hmono : s.hasher.chan.delivered.length ≤ s'.hasher.chan.delivered.length := by
    have hle := (hA.owns.hashes_step hs).length_le
    rwa [hashes, hashes, List.length_map, List.length_map] at hle
  by_cases hdone : s.hashingDone = true
  · exact (hA.ended hdone).trans hmono
  · obtain ⟨e', h, rfl, hrec⟩ := hashingDone_step hs hd hdone
    obtain rfl := (recvStep_frame hrec).ended rfl
    have hall := hA.owns.control.recvNone_complete hfit.workers_pos hfit.blockSize_pos
      hA.healthy.error hrec
    rw [hfit.size] at hall
    exact hall.trans hmono

theorem Announces.unfailed_step (hA : s.Announces o dest) {e : ServerEvent W}
    (hok : e.succeeds = true) (hs : s.step o e = some s') : ¬ s'.Failed := by
  have hfail : ¬ ∃ err, s.phase.result = some (.error err) := hA.unfailed
  cases move_of_step hs with
  | disk hrun hfree h =>
    obtain ⟨w, -, -, -, ⟨n, -, -, rfl⟩ | ⟨n, -, -, rfl⟩ | ⟨err, -, rfl⟩⟩ := disk_cases h <;>
      exact hfail
  | diskDone hrun hfree h =>
    obtain ⟨w, -, -, rfl⟩ := diskDone_cases h
    exact hfail
  | read hrun hfree hdisk h =>
    obtain ⟨-, ⟨rb, buf, n, -, rfl⟩ | ⟨rb, buf, off, -, rfl⟩ | ⟨rb, buf, err, -, rfl⟩⟩ :=
      read_cases h
    · exact hfail
    · simp [Failed, Server.nextIteration, ServerPhase.result]
    · simp [Failed, Server.nextIteration, ServerPhase.result]
  | hashOut hrun hfree h =>
    obtain ⟨w, -, -, ⟨w', t, -, rfl⟩ | ⟨w', res, -, rfl⟩⟩ := hashOut_cases h <;> exact hfail
  | recv hrun hhash hdone hne h =>
    obtain ⟨g, r, hrec, ⟨-, rfl⟩ | ⟨err, rfl, rfl⟩ | ⟨-, rfl⟩ | ⟨v, -, rfl⟩⟩ := recv_cases h
    · exact hfail
    · exact absurd hA.healthy.error ((recvStep_frame hrec).failed err rfl)
    · exact hfail
    · exact hfail
  | seekOk | flushOk | syncOk => simp [Failed, ServerPhase.result]
  | seekError | flushError | syncError => cases hok
  | finish hph =>
    rw [hph] at hfail
    exact hfail
  | worker | closeHasher | join => exact hfail

/-- A step in which nothing fails, with the blocks not yet hashed in place. -/
theorem Announces.step (hfit : Fits o.hashFile W dest) (hA : s.Announces o dest)
    (hblk : ∀ k, s.hasher.chan.placed.length ≤ k →
      block o.blockSize s.file.content k = block o.blockSize dest k)
    {e : ServerEvent W} (hok : e.succeeds = true) (hs : s.step o e = some s') :
    s'.Announces o dest := by
  obtain ⟨hC, hh⟩ : s'.hasher.Content o.hashFile dest ∧ s'.hasher.Healthy := by
    rcases hasher_step hs with ⟨i, e', rfl, h⟩ | h
    · exact ⟨hA.content.workerStep hfit hA.owns.control hblk h,
        hA.healthy.workerStep hA.owns.control hA.content hblk hok h⟩
    · exact ⟨hA.content.consumes h, hA.healthy.consumes h⟩
  exact ⟨hA.owns.step hs, hC, hh, hA.unfailed_step hok hs, hA.sent_step hok hs,
    (Pending.step hA.owns hA.pending hs).1, fun hd => hA.ended_step hfit hs hd⟩

end Server

end Deltasync
