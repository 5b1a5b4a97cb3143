import Deltasync.ClientSend

/-!
# The bytes that the client sends, exactly

The remote hashes are any list of strings, arriving at any pace.  What has been
decoded of them is a first part of the list, and so the blocks found diverging are
those that the list says.  A string of more than 256 bytes stops the reader: the
client then compares no further.
-/

namespace Deltasync.Client

open Blocks HashStream PrefixCode Transition

variable {W : ℕ} {o : NewProcess} {D : List UInt8} {c c' : Client W} {hashes : List String}

/-! ## The hashes decoded -/

/-- The bytes read begin the stream of the hashes. -/
structure Decodes (o : NewProcess) (hashes : List String) (c : Client W) : Prop where
  reads : c.Reads o
  consumed : c.consumed <+: hashes.flatMap writeString

theorem decodes_new : (new o W).Decodes o hashes := ⟨reads_new, List.nil_prefix⟩

theorem Decodes.step (hc : c.Decodes o hashes) {e : ClientEvent W}
    (hfed : c.fedBy (hashes.flatMap writeString) e = true) (hs : c.step o D e = some c') :
    c'.Decodes o hashes :=
  ⟨hc.reads.step hs, consumed_prefix (hears_of_fedBy hfed) hc.consumed hs⟩

/-- The reader has decoded the first hashes of the stream. -/
theorem Decodes.decoded (hbits : 16 ≤ o.bits ∧ o.bits ≤ 64)
    (hlen : ∀ s ∈ hashes, (asBytes s).length < 2 ^ o.bits) (hc : c.Decodes o hashes) :
    c.decoded <+: hashes := by
  obtain ⟨frames, got, hframes, hcon, -⟩ := hc.reads
  have hpre := hc.consumed
  rw [hcon] at hpre
  obtain ⟨-, m, hm, -⟩ := exists_strings hbits.2 (lt_two_pow hbits.1) hframes hlen hpre
  exact ⟨m, hm.symm⟩

/-! ## The blocks that diverge -/

theorem diverging_congr {decoded : List String} {m : ℕ} (hd : decoded <+: hashes)
    (hm : m ≤ decoded.length) : diverging o D decoded m = diverging o D hashes m := by
  apply List.filter_congr
  intro k hk
  obtain ⟨t, rfl⟩ := hd
  rw [List.getElem?_append_left (by have := List.mem_range.mp hk; omega)]

theorem diverging_mono {m n : ℕ} (hmn : m ≤ n) :
    diverging o D hashes m <+: diverging o D hashes n := by
  induction n, hmn using Nat.le_induction with
  | base => exact List.prefix_rfl
  | succ n _ ih =>
    rw [diverging_succ]
    exact ih.trans (List.prefix_append _ _)

/-- The frames begun are of diverging blocks, the first ones. -/
theorem begun_prefix (hS : c.Sends o D) (hF : c.Finishes o D) (hd : c.decoded <+: hashes) :
    c.begun <+: diverging o D hashes o.endBlockIdx := by
  have hle := hS.counts.le_decoded
  refine List.IsPrefix.trans ?_ (diverging_mono hS.counts.bounded)
  rw [← diverging_congr hd hle]
  cases hph : c.phase with
  | running => exact ⟨_, hS.frames.begun (.inl hph)⟩
  | leaving r => exact ⟨_, hS.frames.begun (.inr ⟨r, hph⟩)⟩
  | dropping r | returned r =>
    obtain ⟨-, -, -, -, hall⟩ := hF.ended r (by rw [hph]; rfl)
    rw [begun, hall]

/-- No file operation of a worker fails, and no read or write of the socket; the reads bring
the hashes one after the other. -/
def undisturbed (hashes : List String) (c : Client W) (e : ClientEvent W) : Bool :=
  c.workersSucceed e && c.fedBy (hashes.flatMap writeString) e &&
    match e with
    | .write (.error _) => false
    | _ => true

theorem finished_of_undisturbed (ho : o.Reads W D) {es : List (ClientEvent W)}
    (h : run (restrict (undisturbed hashes) (step o D)) (new o W) es = some c) :
    c.Sends o D ∧ c.Finishes o D ∧ ∀ x ∈ c.finished, x.2 = frame o D x.1 := by
  have hrun : run (restrict workersSucceed (step o D)) (new o W) es = some c := by
    refine run_restrict_mono (fun c e hok => ?_) h
    simp only [undisturbed, Bool.and_eq_true] at hok
    exact hok.1.1
  obtain ⟨hS, hF, hiff⟩ := finished_iff ho hrun
  refine ⟨hS, hF, hiff.mpr fun err hmem => ?_⟩
  obtain ⟨u, hu⟩ := ok_of_mem_restrict h hmem
  simp [undisturbed] at hu

theorem decodes_of_undisturbed {es : List (ClientEvent W)}
    (h : run (restrict (undisturbed hashes) (step o D)) (new o W) es = some c) :
    c.Decodes o hashes := by
  refine run_invariant (I := Decodes o hashes) (fun u e t hu ht => ?_) decodes_new h
  obtain ⟨hok, ht⟩ := restrict_eq_some.mp ht
  simp only [undisturbed, Bool.and_eq_true] at hok
  exact hu.step hok.1.2 ht

/-- The client sends the diverging blocks, each once and in order, of a source on which no
counter wraps around.  Throughout an undisturbed run the bytes written are the first of
their frames, and all of them when the loop is left; no block is ever queued without one
being written. -/
theorem sent_eq_diverging {bits : ℕ} (d : Digests) (alg : HashAlgorithm) {blockSize : ℕ}
    (hbits : 16 ≤ bits ∧ bits ≤ 64) (hb : 1 ≤ blockSize ∧ blockSize ≤ 2 ^ 30)
    (hW : 1 ≤ W ∧ W ≤ 255) (hne : D ≠ []) (hfit : OffsetsFit bits blockSize D.length W)
    (hlen : ∀ s ∈ hashes, (asBytes s).length < 2 ^ bits) {es : List (ClientEvent W)}
    (h : run (restrict (undisturbed hashes) (step (.onFile bits d alg blockSize D) D))
      (new (.onFile bits d alg blockSize D) W) es = some c) :
    let whole := ((List.range (divCeil D.length blockSize)).filter fun k =>
      hashes[k]? ≠ some (hashData d (block blockSize D k) alg)).flatMap fun k =>
        blockFrame (k * blockSize, block blockSize D k)
    c.sent <+: whole ∧ (c.phase ≠ .running → c.sent = whole) ∧
      (c.writeBlock = none → c.blocksIdxToSend = []) := by
  have ho := NewProcess.reads_onFile d alg hbits hb hW hne hfit
  obtain ⟨hS, hF, hfin⟩ := finished_of_undisturbed ho h
  have hdec := (decodes_of_undisturbed h).decoded hbits hlen
  have hbegun := begun_prefix hS hF hdec
  have hend := ho.endBlockIdx_eq
  dsimp only
  refine ⟨?_, ?_, hS.counts.queued⟩
  · refine (hS.sent_prefix hfin).trans ?_
    obtain ⟨t, ht⟩ := hbegun
    rw [hend] at ht
    refine ⟨t.flatMap (frame (.onFile bits d alg blockSize D) D), ?_⟩
    rw [← List.flatMap_append, ht]
    rfl
  · intro hph
    obtain ⟨r, hr⟩ : ∃ r, c.phase.result = some r := by
      cases hp : c.phase with
      | running => exact absurd hp hph
      | leaving r | dropping r | returned r => exact ⟨r, rfl⟩
    obtain ⟨-, hover, hw, -, hall⟩ := hF.ended r hr
    have hidx := hS.counts.compared hover
    have hle := hS.counts.le_decoded
    have hacc : c.finished = c.accepted := by simp [finished, hw]
    rw [hacc] at hfin
    rw [sent, flatMap_of_whole hfin, hall, diverging_congr hdec hle, hidx, hend]
    rfl

/-- Three blocks of which the second one has the remote hash.  The workers are at the first two
when these are compared; the first frame is written in three pieces. -/
def middleEqualRun : List (ClientEvent 2) :=
  let first : Fin 2 := ⟨0, Nat.zero_lt_two⟩
  let second : Fin 2 := ⟨1, Nat.one_lt_two⟩
  let hashBytes (s : String) : List (ClientEvent 2) :=
    [.read (.ok ((writeString s).take 8)), .read (.ok ((writeString s).drop 8))]
  let upToSend (i : Fin 2) : List (ClientEvent 2) :=
    [.worker i .loopHead, .worker i (.read 1), .worker i .send]
  let opens (i : Fin 2) : List (ClientEvent 2) :=
    [.worker i (.openFile (.ok ())), .worker i (.seekStart (.ok ()))]
  let compares (i : Fin 2) : List (ClientEvent 2) :=
    [.recv .enter, .recv .poll, .worker i .sendStep, .recv .take, .recv .finish]
  hashBytes "x" ++ opens first ++ upToSend first ++ opens second ++ upToSend second ++
    compares first ++ hashBytes "9e0ba4d8" ++ compares second ++ hashBytes "y" ++
    [.write (.ok 3), .write (.ok 5), .write (.ok 1), .worker first .reclaim,
      .worker first (.seekNext (.ok ()))] ++ upToSend first ++ compares first ++
    [.write (.ok 8), .write (.ok 1)]

theorem sent_eq_diverging_middleEqual :
    ∃ c, run (restrict (undisturbed ["x", "9e0ba4d8", "y"])
          (step (.onFile 64 crcDigests .crc32 1 [7, 8, 9]) [7, 8, 9]))
        (new (.onFile 64 crcDigests .crc32 1 [7, 8, 9]) 2) middleEqualRun = some c ∧
      c.phase = .leaving (.ok ()) ∧ c.sent = blockFrame (0, [7]) ++ blockFrame (2, [9]) := by
  have hrun : (run (restrict (undisturbed ["x", "9e0ba4d8", "y"])
      (step (.onFile 64 crcDigests .crc32 1 [7, 8, 9]) [7, 8, 9]))
      (new (.onFile 64 crcDigests .crc32 1 [7, 8, 9]) 2) middleEqualRun).map (·.phase) =
      some (.leaving (.ok ())) := by rfl
  obtain ⟨c, hc, hph⟩ := Option.map_eq_some_iff.mp hrun
  refine ⟨c, hc, hph, ?_⟩
  have hlen : ∀ s ∈ ["x", "9e0ba4d8", "y"], (asBytes s).length < 2 ^ 64 := by decide
  have hsent := (sent_eq_diverging (D := [7, 8, 9]) (W := 2) crcDigests .crc32 (by decide)
    (by decide) (by decide) (by decide) (by decide) hlen hc).2.1 (by rw [hph]; simp)
  rw [hsent]
  decide

/-- What a 32-bit client takes a source of one byte more than four gigabytes for, in blocks
of two bytes. -/
def wrapped : NewProcess where
  bits := 32
  blockSize := 2
  srcSize := 2 ^ 32 + 1
  fileSize := 1
  hash data := hashData crcDigests data .crc32

theorem onFile_wrapped (b : UInt8) :
    NewProcess.onFile 32 crcDigests .crc32 2 (b :: fourGigabytes) = wrapped := by
  rw [NewProcess.onFile, List.length_cons, length_fourGigabytes]
  rfl

/-- Every block diverges, and the client sends the first byte of the first one and leaves. -/
theorem unsent_of_wrapped_size :
    ¬ ∀ (es : List (ClientEvent 1)) c,
      run (restrict (undisturbed (List.replicate (2 ^ 31 + 1) "x"))
          (step (.onFile 32 crcDigests .crc32 2 (7 :: fourGigabytes)) (7 :: fourGigabytes)))
        (new (.onFile 32 crcDigests .crc32 2 (7 :: fourGigabytes)) 1) es = some c →
      c.phase ≠ .running →
      c.sent = ((List.range (divCeil (7 :: fourGigabytes).length 2)).filter fun k =>
        (List.replicate (2 ^ 31 + 1) "x")[k]? ≠
          some (hashData crcDigests (block 2 (7 :: fourGigabytes) k) .crc32)).flatMap fun k =>
            blockFrame (k * 2, block 2 (7 :: fourGigabytes) k) := by
  intro hall
  have hrun : (run (restrict (undisturbed (List.replicate (2 ^ 31 + 1) "x"))
      (step wrapped (7 :: fourGigabytes))) (new wrapped 1)
      (oneBlockRun [.write (.ok 8), .write (.ok 1)])).map (fun c => (c.phase, c.sent)) =
      some (.returned (.ok ()), blockFrame (0, [7])) := by decide +kernel
  obtain ⟨c, hc, heq⟩ := Option.map_eq_some_iff.mp hrun
  obtain ⟨hph, hsent⟩ := Prod.mk.inj heq
  have hwhole := hall _ c (by rw [onFile_wrapped]; exact hc) (by rw [hph]; simp)
  -- the frame of the first block alone has ten bytes
  have hblock : block 2 (7 :: fourGigabytes) 0 = [7, 0] := by decide +kernel
  have hmem : 0 ∈ (List.range (divCeil (7 :: fourGigabytes).length 2)).filter fun k =>
      (List.replicate (2 ^ 31 + 1) "x")[k]? ≠
        some (hashData crcDigests (block 2 (7 :: fourGigabytes) k) .crc32) := by
    rw [List.mem_filter, List.mem_range, hblock, List.getElem?_replicate]
    exact ⟨divCeil_pos (by norm_num) (by rw [List.length_cons]; omega), by decide +kernel⟩
  have hle := (List.sublist_flatten_of_mem (List.mem_map_of_mem
    (f := fun k => blockFrame (k * 2, block 2 (7 :: fourGigabytes) k)) hmem)).length_le
  rw [← List.flatMap_def, ← hwhole, hsent, hblock] at hle
  revert hle
  decide

end Deltasync.Client
