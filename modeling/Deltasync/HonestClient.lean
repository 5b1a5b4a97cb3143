import Deltasync.ServerRefine
import Deltasync.ServerHash
import Deltasync.ClientExact

/-!
# The hashes are those of the original destination

The server reads and writes one file through several descriptors, without a
lock.  What keeps its writes away from the blocks that a worker still has to read
is the client: it sends block `k` only after it has read the `k`-th hash, which
the server sends only after a worker has read the block.

The client here is any one that keeps to this order, and to blocks of the file.
Nothing else is assumed of it, nor of the time that the bytes are on their way.
-/

namespace Deltasync

open Blocks HashStream PrefixCode Transition

/-- The server hashes `dest` as it is, and the client can tell where a hash ends. -/
structure ProcessNewClient.Serves (o : ProcessNewClient) (W : ℕ) (dest : List UInt8) : Prop where
  fits : Fits o.hashFile W dest
  bits : o.bits ≤ 64
  size : o.filesize = dest.length
  length : dest.length < 2 ^ o.bits
  hash : ∀ data, (asBytes (o.hash data)).length ≤ 256

theorem ProcessNewClient.serves_onFile {W bits : ℕ} (d : Digests) (alg : HashAlgorithm)
    {blockSize : ℕ} (hbits : bits ≤ 64) (hb : 1 ≤ blockSize ∧ blockSize ≤ 2 ^ 30)
    (hW : 1 ≤ W ∧ W ≤ 255) {D : List UInt8} (hfit : OffsetsFit bits blockSize D.length W) :
    Serves (.onFile bits d alg blockSize D) W D where
  fits := fits_of_offsets _ hb hW hfit
  bits := hbits
  size := rfl
  length := hfit.size_lt hb.1 hW.1
  hash data := length_hashData d data alg

namespace Server

variable {W : ℕ} {o : ProcessNewClient} {s s' : Server W} {dest : List UInt8}

/-! ## The blocks whose hash is not delivered -/

/-- The frame of a block whose hash has been delivered. -/
def Known (o : ProcessNewClient) (s : Server W) (f : ℕ × List UInt8) : Prop :=
  ∃ k < s.hashes.length, f.1 = k * o.blockSize ∧
    f.2.length = min o.blockSize (o.filesize - k * o.blockSize)

/-- The bytes written of a block lie inside it. -/
def WrittenInside (s : Server W) : Prop :=
  ∀ b ∈ s.received, ∀ x ∈ b.written, b.offset ≤ x.2 ∧ x.2 < b.offset + b.data.length

/-- What holds whatever fails, as long as only known blocks are received: the other ones are
as they were. -/
structure Guarded (o : ProcessNewClient) (dest : List UInt8) (s : Server W) : Prop where
  owns : s.Owns o
  content : s.hasher.Content o.hashFile dest
  reads : s.Reads o
  writes : s.Writes
  written : s.WrittenInside
  pending : s.Pending
  length : s.file.content.length = dest.length
  untouched : ∀ k, s.hashes.length ≤ k →
    block o.blockSize s.file.content k = block o.blockSize dest k

theorem guarded_new (hb : 0 < o.blockSize) : (new o W dest).Guarded o dest where
  owns := owns_new dest
  content := content_hashFile hb
  reads := reads_new dest
  writes := writes_new dest
  written := by simp [WrittenInside, new]
  pending := by simp [Pending, new]
  length := rfl
  untouched _ _ := rfl

theorem Known.mono {f : ℕ × List UInt8} (hf : s.Known o f) (hpre : s.hashes <+: s'.hashes) :
    s'.Known o f := by
  obtain ⟨k, hk, hoff, hlen⟩ := hf
  exact ⟨k, lt_of_lt_of_le hk hpre.length_le, hoff, hlen⟩

/-- A known block is a block of the file. -/
theorem Guarded.fits (hG : s.Guarded o dest) (hsize : o.filesize = dest.length)
    {f : ℕ × List UInt8} (hf : s.Known o f) : FitsFile o.blockSize dest.length f := by
  obtain ⟨k, hk, hoff, hlen⟩ := hf
  have hlt := (hG.owns.hash_eq hG.content (List.getElem?_eq_getElem hk)).1
  rw [hsize] at hlen
  exact ⟨by omega, by rw [hlen, hoff]⟩

theorem WrittenInside.step (hw : s.Writes) (hI : s.WrittenInside) {e : ServerEvent W}
    (hs : s.step o e = some s') : s'.WrittenInside := by
  rcases hw.file_cases hs with ⟨-, hrec | ⟨b, hrec, hnil⟩⟩ |
    ⟨b, rest, m, chunk, hrec, hle, -, -, hrec'⟩
  · rw [WrittenInside, hrec]
    exact hI
  · rw [WrittenInside, hrec, List.forall_mem_cons, hnil]
    exact ⟨by simp, hI⟩
  · rw [WrittenInside, hrec, List.forall_mem_cons] at hI
    rw [WrittenInside, hrec', List.forall_mem_cons]
    refine ⟨fun x hx => ?_, hI.2⟩
    rcases List.mem_append.mp hx with hx | hx
    · exact hI.1 x hx
    · obtain ⟨h1, h2, -⟩ := List.mem_zipIdx hx
      dsimp only
      omega

/-- A step writes to the block received last only. -/
theorem Guarded.block_step (hG : s.Guarded o dest) (hsize : o.filesize = dest.length)
    (hknown : ∀ b ∈ s.blocks, s.Known o b) {e : ServerEvent W} (hs : s.step o e = some s') {k : ℕ}
    (hk : s.hashes.length ≤ k) :
    block o.blockSize s'.file.content k = block o.blockSize s.file.content k := by
  rcases hG.writes.file_cases hs with ⟨heq, -⟩ | ⟨b, rest, m, chunk, hrec, hle, hcur, hfile, -⟩
  · rw [heq]
  · have hmem := mem_blocks_of_received hrec
    obtain ⟨hoff, hlen⟩ := hG.fits hsize (hknown _ hmem)
    obtain ⟨j, hj, hjoff, -⟩ := hknown _ hmem
    dsimp only at hoff hlen hjoff
    have hbound : s.file.cursor + chunk.length ≤ s.file.content.length := by
      rw [hG.length]
      omega
    rw [hfile, content_write (by omega),
      block_patch_of_ne (k := j) (by omega) (by omega) (by omega) hbound]

theorem Guarded.step (ho : o.Serves W dest) (hG : s.Guarded o dest)
    (hknown : ∀ b ∈ s.blocks, s.Known o b) {e : ServerEvent W} (hs : s.step o e = some s') :
    s'.Guarded o dest where
  owns := hG.owns.step hs
  content := by
    rcases hasher_step hs with ⟨i, e', rfl, h⟩ | h
    · -- what is not placed on the channel is not delivered
      refine hG.content.workerStep ho.fits hG.owns.control (fun k hk => hG.untouched k ?_) h
      rw [hG.owns.control.chan.placed_eq, List.length_append] at hk
      rw [hashes, List.length_map]
      omega
    · exact hG.content.consumes h
  reads := hG.reads.step hs
  writes := hG.writes.step hs
  written := hG.written.step hG.writes hs
  pending := (hG.pending.step hG.owns hs).1
  length := by
    refine hG.writes.length_step (fun b hb => ?_) hG.length hs
    obtain ⟨hoff, hlen⟩ := hG.fits ho.size (hknown b hb)
    omega
  untouched k hk := by
    have hle := (hG.owns.hashes_step hs).length_le
    rw [hG.block_step ho.size hknown hs (by omega), hG.untouched k (by omega)]

/-- The hash of the block that a worker is reading is not delivered. -/
theorem Guarded.le_blockIdx (hG : s.Guarded o dest) {i : Fin W}
    (hpc : (s.hasher.worker i).pc = .reading) :
    s.hashes.length ≤ (s.hasher.worker i).blockIdx := by
  have hwin := ((hG.owns.control.worker i).window (by rw [hpc]; rfl)).1
  simp only [Worker.nextIdx, hpc, hG.owns.control.chan.placed_eq, List.length_append] at hwin
  rw [hashes, List.length_map]
  omega

end Server

/-- The server and what it shares with its client.  `toClient` is all that the connection has
taken of the hashes, of which the client has read the first `clientRead` bytes;
`toServer` is what the client has sent and the server has not read. -/
structure HonestSession (W : ℕ) where
  server : Server W
  toServer : List UInt8
  toClient : List UInt8
  clientRead : ℕ
  broken : Bool

inductive HonestEvent (W : ℕ) where
  | server (e : ServerEvent W)
  | clientReads (n : ℕ)
  /-- The client sends block `k`, having read `hashes`. -/
  | clientSends (k : ℕ) (payload : List UInt8) (hashes : List String)
  /-- The connection is lost. -/
  | breaks

namespace HonestSession

variable {W : ℕ}

def start (o : ProcessNewClient) (W : ℕ) (dest : List UInt8) : HonestSession W where
  server := .new o W dest
  toServer := []
  toClient := []
  clientRead := 0
  broken := false

/-- The client has read the hashes up to number `k`. -/
def knows (s : HonestSession W) (k : ℕ) (hashes : List String) : Bool :=
  hashes.length = k + 1 && hashes.all (fun hash => (asBytes hash).length < 2 ^ 64) &&
    (hashes.flatMap writeString).isPrefixOf (s.toClient.take s.clientRead)

def step (o : ProcessNewClient) (s : HonestSession W) : HonestEvent W → Option (HonestSession W)
  | .server (.read (.ok bytes)) =>
    -- no byte means the end of the stream, which may come at any time
    if bytes.isPrefixOf s.toServer then
      (s.server.step o (.read (.ok bytes))).map fun v =>
        { s with server := v, toServer := s.toServer.drop bytes.length }
    else none
  | .server (.hashOut (.ok n)) =>
    -- on a broken connection bytes may be accepted, but go nowhere
    (s.server.step o (.hashOut (.ok n))).map fun v =>
      { s with
        server := v
        toClient := if s.broken then s.toClient else s.toClient ++ s.server.offered.take n }
  | .server (.hashOut (.error err)) =>
    (s.server.step o (.hashOut (.error err))).map fun v => { s with server := v, broken := true }
  | .server e => (s.server.step o e).map fun v => { s with server := v }
  | .clientReads n =>
    if s.clientRead + n ≤ s.toClient.length then some { s with clientRead := s.clientRead + n }
    else none
  | .clientSends k payload hashes =>
    if s.knows k hashes ∧ payload.length = min o.blockSize (o.filesize - k * o.blockSize) then
      some { s with toServer := s.toServer ++ blockFrame (k * o.blockSize, payload) }
    else none
  | .breaks => some { s with broken := true }

variable {o : ProcessNewClient} {s s' : HonestSession W} {dest : List UInt8}

/-- Everything a step can do. -/
inductive Move (o : ProcessNewClient) (s : HonestSession W) : HonestSession W → Prop where
  | read {bytes rest v} (hst : s.toServer = bytes ++ rest)
      (h : s.server.step o (.read (.ok bytes)) = some v) :
      Move o s { s with server := v, toServer := rest }
  | accepted {n v} (hup : s.broken = false) (h : s.server.step o (.hashOut (.ok n)) = some v) :
      Move o s { s with server := v, toClient := s.toClient ++ s.server.offered.take n }
  | lost {r v} (h : s.server.step o (.hashOut r) = some v) :
      Move o s { s with server := v, broken := true }
  | server {e v} (hread : ∀ bytes, e ≠ .read (.ok bytes)) (hwrite : ∀ r, e ≠ .hashOut r)
      (h : s.server.step o e = some v) : Move o s { s with server := v }
  | clientReads {n} (h : s.clientRead + n ≤ s.toClient.length) :
      Move o s { s with clientRead := s.clientRead + n }
  | clientSends {k payload hashes} (hk : s.knows k hashes = true)
      (hlen : payload.length = min o.blockSize (o.filesize - k * o.blockSize)) :
      Move o s { s with toServer := s.toServer ++ blockFrame (k * o.blockSize, payload) }
  | breaks : Move o s { s with broken := true }

theorem move_of_step {e : HonestEvent W} (hs : s.step o e = some s') : Move o s s' := by
  cases e with
  | server e =>
    cases e with
    | read r =>
      cases r with
      | error err =>
        obtain ⟨v, h, rfl⟩ := Option.map_eq_some_iff.mp hs
        exact .server (by simp) (by simp) h
      | ok bytes =>
        simp only [step, Option.ite_none_right_eq_some, List.isPrefixOf_iff_prefix] at hs
        obtain ⟨⟨rest, hrest⟩, hv⟩ := hs
        obtain ⟨v, h, rfl⟩ := Option.map_eq_some_iff.mp hv
        rw [← hrest, List.drop_left]
        exact .read hrest.symm h
    | hashOut r =>
      cases r with
      | error err =>
        obtain ⟨v, h, rfl⟩ := Option.map_eq_some_iff.mp hs
        exact .lost h
      | ok n =>
        obtain ⟨v, h, rfl⟩ := Option.map_eq_some_iff.mp hs
        by_cases hb : s.broken = true
        · have hsame : (⟨v, s.toServer, s.toClient, s.clientRead, s.broken⟩ : HonestSession W) =
              { s with server := v, broken := true } := by rw [hb]
          rw [if_pos hb, hsame]
          exact .lost h
        · rw [if_neg hb]
          exact .accepted (by simpa using hb) h
    | _ =>
      obtain ⟨v, h, rfl⟩ := Option.map_eq_some_iff.mp hs
      exact .server (by simp) (by simp) h
  | clientReads n =>
    simp only [step, Option.ite_none_right_eq_some, Option.some.injEq] at hs
    obtain ⟨h, rfl⟩ := hs
    exact .clientReads h
  | clientSends k payload hashes =>
    simp only [step, Option.ite_none_right_eq_some, Option.some.injEq] at hs
    obtain ⟨⟨hk, hlen⟩, rfl⟩ := hs
    exact .clientSends hk hlen
  | breaks =>
    obtain rfl := Option.some.inj hs
    exact .breaks

/-! ## The order of things -/

/-- What holds whatever fails, and whenever the connection is lost. -/
structure Keeps (o : ProcessNewClient) (dest : List UInt8) (s : HonestSession W) : Prop where
  guarded : s.server.Guarded o dest
  sending : s.broken = false →
    s.toClient ++ s.server.unsent = s.server.hashes.flatMap writeString
  sent : s.toClient <+: s.server.hashes.flatMap writeString
  frames : ∃ fs : List (ℕ × List UInt8),
    s.server.consumed ++ s.toServer = fs.flatMap blockFrame ∧ ∀ f ∈ fs, s.server.Known o f

theorem keeps_start (hb : 0 < o.blockSize) : (start o W dest).Keeps o dest :=
  ⟨Server.guarded_new hb, fun _ => rfl, List.nil_prefix, [], rfl, by simp⟩

/-- The blocks received are among those that the client has sent. -/
theorem Keeps.known (ho : o.Serves W dest) (hK : s.Keeps o dest) :
    ∀ b ∈ s.server.blocks, s.server.Known o b := by
  obtain ⟨fs, hfs, hknown⟩ := hK.frames
  obtain ⟨frames, got, hframes, hcon, -⟩ := hK.guarded.reads
  have hpre : frames.flatten ++ got <+: (fs.map blockFrame).flatten := by
    rw [← hcon, ← List.flatMap_def, ← hfs]
    exact List.prefix_append _ _
  have hsent : List.Forall₂ (Server.IsFrame o) (fs.map blockFrame) fs := forall₂_map_enc fun f hf =>
    (hK.guarded.fits ho.size (hknown f hf)).isFrame ho.bits ho.length ho.size
  obtain ⟨-, m, -, hm, -⟩ := (Server.isPrefixCode_isFrame o).exists_tail hframes hsent hpre
  intro b hb
  exact hknown b (by rw [hm]; exact List.mem_append_left m hb)

theorem Keeps.length_hash (ho : o.Serves W dest) (hK : s.Keeps o dest) {hash : String}
    (h : hash ∈ s.server.hashes) : (asBytes hash).length ≤ 256 := by
  obtain ⟨k, hk⟩ := List.mem_iff_getElem?.mp h
  rw [(hK.guarded.owns.hash_eq hK.guarded.content hk).2.1]
  exact ho.hash _

/-- A hash that the client has read has been delivered. -/
theorem Keeps.lt_of_knows (ho : o.Serves W dest) (hK : s.Keeps o dest) {k : ℕ}
    {hashes : List String} (hk : s.knows k hashes = true) : k < s.server.hashes.length := by
  simp only [knows, Bool.and_eq_true, decide_eq_true_eq, List.all_eq_true,
    List.isPrefixOf_iff_prefix] at hk
  obtain ⟨⟨hcount, hfit⟩, hpre⟩ := hk
  have hall : (hashes.map writeString).flatten ++ [] <+:
      s.server.hashes.flatMap writeString := by
    rw [List.append_nil, ← List.flatMap_def]
    exact (hpre.trans (List.take_prefix _ _)).trans hK.sent
  have hread : List.Forall₂ (ReadsAs 64 (2 ^ 64 - 1)) (hashes.map writeString) hashes :=
    forall₂_map_enc fun hash hmem => readsAs_writeString le_rfl (hfit hash hmem)
      (Nat.le_sub_one_of_lt (hfit hash hmem))
  obtain ⟨-, m, hm, -⟩ := exists_strings le_rfl (by norm_num) hread
    (fun _ h => lt_of_le_of_lt (hK.length_hash ho h) (by norm_num)) hall
  rw [hm, List.length_append]
  omega

/-- What the client has sent, after the server has read some of it. -/
theorem Keeps.frames_step (hK : s.Keeps o dest) {v : Server W} {rest : List UInt8}
    (hcon : v.consumed ++ rest = s.server.consumed ++ s.toServer)
    (hpre : s.server.hashes <+: v.hashes) :
    ∃ fs : List (ℕ × List UInt8),
      v.consumed ++ rest = fs.flatMap blockFrame ∧ ∀ f ∈ fs, v.Known o f := by
  obtain ⟨fs, hfs, hknown⟩ := hK.frames
  exact ⟨fs, hcon.trans hfs, fun f hf => (hknown f hf).mono hpre⟩

/-- The hashes delivered begin as those on the connection do. -/
theorem Keeps.sent_step (hK : s.Keeps o dest) {v : Server W}
    (hpre : s.server.hashes <+: v.hashes) : s.toClient <+: v.hashes.flatMap writeString := by
  obtain ⟨t, ht⟩ := hpre
  rw [← ht, List.flatMap_append]
  exact hK.sent.trans (List.prefix_append _ _)

/-- A step of the server that writes no hash. -/
theorem Keeps.sending_step (hK : s.Keeps o dest) {e : ServerEvent W} {v : Server W}
    (hs : s.server.step o e = some v) (he : ∀ r, e ≠ .hashOut r) (hup : s.broken = false) :
    s.toClient ++ v.unsent = v.hashes.flatMap writeString := by
  have hsending := hK.sending hup
  cases (hK.guarded.pending.step hK.guarded.owns hs).2 with
  | same _ hh hu => rw [hh, hu, hsending]
  | next _ hnil hash hh hu =>
    rw [hnil, List.append_nil] at hsending
    rw [hh, hu, hsending, List.flatMap_append, List.flatMap_singleton]
  | accepted => exact absurd rfl (he _)
  | lost => exact absurd rfl (he _)

theorem Keeps.step (ho : o.Serves W dest) (hK : s.Keeps o dest) {e : HonestEvent W}
    (hs : s.step o e = some s') : s'.Keeps o dest := by
  have hG := hK.guarded
  have hknown := hK.known ho
  cases move_of_step hs with
  | @read bytes rest v hst h =>
    have hpre := hG.owns.hashes_step h
    refine ⟨hG.step ho hknown h, hK.sending_step h (by simp), hK.sent_step hpre,
      hK.frames_step ?_ hpre⟩
    rw [Server.consumed_step h, hst, List.append_assoc]
    rfl
  | @accepted n v hup h =>
    have hpre := hG.owns.hashes_step h
    have hsending : s.toClient ++ s.server.offered.take n ++ v.unsent =
        v.hashes.flatMap writeString := by
      cases (hG.pending.step hG.owns h).2 with
      | same he => exact absurd rfl (he _)
      | next he => exact absurd rfl (he _)
      | accepted hh hu => rw [List.append_assoc, hu, hh, hK.sending hup]
    refine ⟨hG.step ho hknown h, fun _ => hsending, ?_, hK.frames_step ?_ hpre⟩
    · exact ⟨v.unsent, hsending⟩
    · simp [Server.consumed_step h]
  | @lost r v h =>
    have hpre := hG.owns.hashes_step h
    refine ⟨hG.step ho hknown h, by simp, hK.sent_step hpre, hK.frames_step ?_ hpre⟩
    simp [Server.consumed_step h]
  | @server e v hread hwrite h =>
    have hpre := hG.owns.hashes_step h
    refine ⟨hG.step ho hknown h, hK.sending_step h hwrite, hK.sent_step hpre,
      hK.frames_step ?_ hpre⟩
    rw [Server.consumed_step h]
    rcases e with _ | _ | (err | bytes) | _
    case read.ok => exact absurd rfl (hread bytes)
    all_goals simp [bytesRead]
  | clientReads h => exact ⟨hG, hK.sending, hK.sent, hK.frames⟩
  | @clientSends k payload hashes hk hlen =>
    obtain ⟨fs, hfs, hknown⟩ := hK.frames
    refine ⟨hG, hK.sending, hK.sent, fs ++ [(k * o.blockSize, payload)], ?_, ?_⟩
    · rw [← List.append_assoc, hfs, List.flatMap_append, List.flatMap_singleton]
    · intro f hf
      rcases List.mem_append.mp hf with hf | hf
      · exact hknown f hf
      · rw [List.mem_singleton.mp hf]
        exact ⟨k, hK.lt_of_knows ho hk, rfl, hlen⟩
  | breaks => exact ⟨hG, by simp, hK.sent, hK.frames⟩

/-- The hashes of the blocks of `D`, in order. -/
def blockHashes (o : ProcessNewClient) (D : List UInt8) : List String :=
  (List.range (divCeil D.length o.blockSize)).map fun k => o.hash (block o.blockSize D k)

theorem Keeps.hashes_prefix (hb : 0 < o.blockSize) (hK : s.Keeps o dest) :
    s.server.hashes <+: blockHashes o dest := by
  have hpre := hK.guarded.content.delivered_prefix hb hK.guarded.owns.control
  have hmap := hpre.map (fun x : ℕ × String × List UInt8 => x.2.1)
  rw [List.map_map, sequential, List.map_map] at hmap
  exact hmap

/-- A byte written belongs to a block whose hash has been delivered. -/
theorem Keeps.written_lt (ho : o.Serves W dest) (hK : s.Keeps o dest)
    {b : ReceivedBlock} (hmem : b ∈ s.server.received) {x : UInt8 × ℕ} (hx : x ∈ b.written) :
    x.2 / o.blockSize < s.server.hashes.length := by
  have hknown := Server.forall_received_iff.mpr (hK.known ho)
  obtain ⟨k, hk, hoff, hlen⟩ := hknown b hmem
  dsimp only at hoff hlen
  obtain ⟨h1, h2⟩ := hK.guarded.written b hmem x hx
  have hb : 0 < o.blockSize := ho.fits.blockSize_pos
  refine lt_of_le_of_lt ?_ hk
  rw [← Nat.lt_succ_iff, Nat.div_lt_iff_lt_mul hb, Nat.succ_mul]
  omega

/-- The server's writes never disturb its hashes, on a file whose offsets fit a `usize`.
Whatever the client sends, as long as it sends blocks of the file and each one only after it
has read the hash of it, and whatever the order of the steps: the hashes that the server
sends are those of the original destination, in order; every byte written lies in a block that
a worker has read to the end and sent the hash of; and the block that a worker is reading is as
it was, with no byte of it written. -/
theorem hashes_undisturbed {bits : ℕ} (d : Digests) (alg : HashAlgorithm) {blockSize : ℕ}
    (hbits : bits ≤ 64) (hb : 1 ≤ blockSize ∧ blockSize ≤ 2 ^ 30) (hW : 1 ≤ W ∧ W ≤ 255)
    {D : List UInt8} (hfit : OffsetsFit bits blockSize D.length W) {es : List (HonestEvent W)}
    (h : run (step (.onFile bits d alg blockSize D))
      (start (.onFile bits d alg blockSize D) W D) es = some s) :
    s.toClient <+: s.server.hashes.flatMap writeString ∧
      s.server.hashes <+: blockHashes (.onFile bits d alg blockSize D) D ∧
      (∀ b ∈ s.server.received, ∀ x ∈ b.written,
        ∃ v, (x.2 / blockSize, v) ∈ s.server.hasher.chan.calls) ∧
      ∀ i, (s.server.hasher.worker i).pc = .reading →
        block blockSize s.server.file.content (s.server.hasher.worker i).blockIdx =
          block blockSize D (s.server.hasher.worker i).blockIdx ∧
        ∀ b ∈ s.server.received, ∀ x ∈ b.written,
          x.2 / blockSize ≠ (s.server.hasher.worker i).blockIdx := by
  have ho := ProcessNewClient.serves_onFile d alg hbits hb hW hfit
  have hK : s.Keeps (.onFile bits d alg blockSize D) D :=
    run_invariant (fun _ _ _ hK ht => hK.step ho ht) (keeps_start ho.fits.blockSize_pos) h
  have hG := hK.guarded
  refine ⟨hK.sent, hK.hashes_prefix ho.fits.blockSize_pos, fun b hmem x hx => ?_, fun i hpc => ?_⟩
  · have hk := List.getElem?_eq_getElem (hK.written_lt ho hmem hx)
    exact (hG.owns.hash_eq hG.content hk).2.2
  · have hle := hG.le_blockIdx hpc
    refine ⟨hG.untouched _ hle, fun b hmem x hx heq => ?_⟩
    have hlt : x.2 / blockSize < s.server.hashes.length := hK.written_lt ho hmem hx
    omega

/-- Two blocks of one byte.  The first one is hashed, and then sent by the client and written
while the worker is at the second one. -/
def readAheadRun : List (HonestEvent 1) :=
  [.server (.worker solo (.openFile (.ok ()))), .server (.worker solo (.seekStart (.ok ()))),
    .server (.worker solo .loopHead), .server (.worker solo (.read 1)),
    .server (.worker solo .send), .server (.recv .enter), .server (.recv .poll),
    .server (.worker solo .sendStep), .server (.recv .take), .server (.recv .finish),
    .server (.worker solo .reclaim), .server (.worker solo (.seekNext (.ok ()))),
    .server (.hashOut (.ok 3)), .server (.hashOut (.ok 13)), .clientReads 16,
    .clientSends 0 [7] [hashData crcDigests [5] .crc32],
    .server (.read (.ok [0, 0, 0, 0, 0, 0, 0, 0])), .server (.worker solo .loopHead),
    .server (.read (.ok [7])), .server (.seek (.ok ())), .server (.disk (.ok 1))]

theorem hashes_undisturbed_readAhead :
    ∃ s, run (step (.onFile 64 crcDigests .crc32 1 [5, 6]))
        (start (.onFile 64 crcDigests .crc32 1 [5, 6]) 1 [5, 6]) readAheadRun = some s ∧
      s.server.file.content = [7, 6] ∧ s.server.hashes <+:
        [hashData crcDigests [5] .crc32, hashData crcDigests [6] .crc32] := by
  have hrun : (run (step (.onFile 64 crcDigests .crc32 1 [5, 6]))
      (start (.onFile 64 crcDigests .crc32 1 [5, 6]) 1 [5, 6]) readAheadRun).map
      (fun s => s.server.file.content) = some [7, 6] := by decide +kernel
  obtain ⟨s, hs, hfile⟩ := Option.map_eq_some_iff.mp hrun
  exact ⟨s, hs, hfile, (hashes_undisturbed crcDigests .crc32 (D := [5, 6]) (by decide) (by decide)
    (by decide) (by decide) hs).2.1⟩

/-- What a 32-bit server takes a destination of one byte more than four gigabytes for, in
blocks of two bytes. -/
def wrapped : ProcessNewClient where
  bits := 32
  blockSize := 2
  filesize := 2 ^ 32 + 1
  fileSize := 1
  hash data := hashData crcDigests data .crc32

theorem onFile_wrapped (b : UInt8) :
    ProcessNewClient.onFile 32 crcDigests .crc32 2 (b :: fourGigabytes) = wrapped := by
  rw [ProcessNewClient.onFile, List.length_cons, length_fourGigabytes]
  rfl

/-- The only hash is the one of the first byte. -/
theorem shortened_of_wrapped_size :
    ¬ ∀ (es : List (HonestEvent 1)) s,
      run (step (.onFile 32 crcDigests .crc32 2 (5 :: fourGigabytes)))
        (start (.onFile 32 crcDigests .crc32 2 (5 :: fourGigabytes)) 1 (5 :: fourGigabytes)) es =
        some s →
      s.server.hashes <+:
        blockHashes (.onFile 32 crcDigests .crc32 2 (5 :: fourGigabytes)) (5 :: fourGigabytes) := by
  intro hall
  have hrun : (run (step wrapped) (start wrapped 1 (5 :: fourGigabytes))
      (readAheadRun.take 10)).map (·.server.hashes) = some [hashData crcDigests [5] .crc32] := by
    decide +kernel
  obtain ⟨s, hs, hhashes⟩ := Option.map_eq_some_iff.mp hrun
  obtain ⟨t, ht⟩ := hall _ s (by rw [onFile_wrapped]; exact hs)
  have hblock : block 2 (5 :: fourGigabytes) 0 = [5, 0] := by decide +kernel
  have hpos : 0 < divCeil (5 :: fourGigabytes).length 2 :=
    divCeil_pos (by norm_num) (by rw [List.length_cons]; omega)
  have hfirst : some (hashData crcDigests [5] .crc32) = some (hashData crcDigests [5, 0] .crc32) :=
    calc some (hashData crcDigests [5] .crc32)
        = (s.server.hashes ++ t)[0]? := by rw [hhashes]; rfl
      _ = ((List.range (divCeil (5 :: fourGigabytes).length 2)).map fun k =>
            hashData crcDigests (block 2 (5 :: fourGigabytes) k) .crc32)[0]? := by rw [ht]; rfl
      _ = some (hashData crcDigests [5, 0] .crc32) := by
        rw [List.getElem?_map, List.getElem?_range hpos, Option.map_some, hblock]
  revert hfirst
  decide +kernel

end HonestSession

end Deltasync
