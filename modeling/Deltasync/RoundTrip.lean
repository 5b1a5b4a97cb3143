import Deltasync.Calls
import Deltasync.Framing

/-!
# Streams of frames, cut and cancelled anywhere

The codecs of `common.rs` as resumable functions.  A state that waits at an await
is a fixed point of `enter`: the same struct called again waits for the same
bytes.
-/

namespace Deltasync

open BigEndian Blocks Transition

/-! ## Strings -/

theorem length_of_readString {bits maxLen : ℕ} {inp rest : List UInt8} {s : String}
    (h : readString bits maxLen inp = .ok (s, rest)) : rest.length < inp.length := by
  unfold readString at h
  split_ifs at h with h8
  dsimp only at h
  split_ifs at h with hm hl
  split at h
  · simp only [Except.ok.injEq, Prod.mk.injEq] at h
    rw [← h.2, List.length_drop, List.length_drop]
    omega
  · cases h

/-- The results of `read_string`, called again and again until it fails. -/
def readStrings (bits maxLen : ℕ) (inp : List UInt8) :
    List (Except String (String × List UInt8)) :=
  match _h : readString bits maxLen inp with
  | .error e => [.error e]
  | .ok (s, rest) => .ok (s, rest) :: readStrings bits maxLen rest
termination_by inp.length
decreasing_by exact length_of_readString _h

namespace ResumableReadString

/-- `read_on`; the buffer is the struct's own. -/
def readOn (bits : ℕ) : ReadFn ResumableReadString Unit String String where
  enter r _ := ((r.enter bits).1, (), (r.enter bits).2)
  onRead r _ res := ((r.onRead bits res).1, (), (r.onRead bits res).2)
  value s _ := s

theorem enter_of_payload {bits n : ℕ} {r r' : ResumableReadString} (hz : r.size ≠ 0)
    (h : payload bits r = (r', .io n)) : r'.enter bits = (r', .io n) := by
  have h' := h
  unfold payload at h'
  split_ifs at h'
  · obtain ⟨rfl, -⟩ := Prod.mk.inj h'
    rw [enter, if_neg hz, h]
  · simp at h'

theorem enter_of_header {bits n : ℕ} {r r' : ResumableReadString} (hz : r.size = 0)
    (hlen : r.buf.length = 8) (h : header bits r = (r', .io n)) : r'.enter bits = (r', .io n) := by
  have h' := h
  unfold header at h'
  split_ifs at h' with h8
  · obtain ⟨rfl, -⟩ := Prod.mk.inj h'
    have hbuf : resize 0 r.buf 8 = r.buf := by rw [← hlen, resize_length]
    rw [enter, if_pos hz, hbuf, h]
  · dsimp only at h'
    split_ifs at h' with hm
    · simp at h'
    · refine enter_of_payload (fun h0 => ?_) h'
      -- a frame without a payload is complete with its header
      dsimp only at h0
      unfold payload at h'
      simp only [h0, usize, Nat.zero_mod, Nat.zero_add, if_neg h8] at h'
      simp at h'

theorem enter_idem {bits n : ℕ} {r r' : ResumableReadString} (h : r.enter bits = (r', .io n)) :
    r'.enter bits = (r', .io n) := by
  have h' := h
  unfold enter at h'
  split_ifs at h' with hz
  · exact enter_of_header (r := { r with buf := resize 0 r.buf 8 }) hz (length_resize _ _ _) h'
  · exact enter_of_payload hz h'

theorem enter_of_onRead {bits maxLen n m : ℕ} {r r' : ResumableReadString}
    {got bytes : List UInt8} (hp : Partial bits maxLen r got) (he : r.enter bits = (r, .io n))
    (hle : bytes.length ≤ n) (h : r.onRead bits (.ok bytes) = (r', .io m)) :
    r'.enter bits = (r', .io m) := by
  obtain ⟨r₁, n₁, he₁, -, -, hr, h8⟩ := enter_partial hp
  rw [he] at he₁
  simp only [Prod.mk.injEq, Await.io.injEq] at he₁
  obtain ⟨rfl, rfl⟩ := he₁
  cases bytes with
  | nil => simp [onRead] at h
  | cons b bs =>
    simp only [onRead] at h
    split_ifs at h with hz
    · have hlen := h8 hz
      rw [if_pos hz] at hr
      refine enter_of_header (r := { r with
        buf := patch 0 r.buf r.offset (b :: bs), offset := r.offset + (b :: bs).length }) hz ?_ h
      dsimp only
      rw [length_patch (by omega), hlen]
    · exact enter_of_payload (r := { r with
        buf := patch 0 r.buf (r.offset - 8) (b :: bs), offset := r.offset + (b :: bs).length }) hz h

theorem decode_error {bits maxLen : ℕ} {inp : List UInt8} {e : String}
    (h : readString bits maxLen inp = .error e) : (readString bits maxLen inp).toOption = none := by
  rw [h]; rfl

/-- The struct is `read_string`, cut into reads. -/
theorem readOn_spec (bits maxLen : ℕ) :
    (readOn bits).Spec (fun inp => (readString bits maxLen inp).toOption)
      (fun r _ got => Partial bits maxLen r got) where
  enter r _ got h := by
    obtain ⟨r', n, he, hpos, hp, -⟩ := enter_partial h
    refine ⟨r', (), n, by simp [readOn, he], hp, hpos, ?_⟩
    simp [readOn, enter_idem he]
  onRead r _ got n bytes h he hne hle := by
    have he' : r.enter bits = (r, .io n) := by
      simp only [readOn, Prod.mk.injEq] at he
      exact Prod.ext he.1 he.2.2
    have hout := poll_outcome h hne (by rw [he']) hle
    have hpoll : r.poll bits (.ok bytes) = r.onRead bits (.ok bytes) := by simp only [poll, he']
    rw [hpoll] at hout
    have hidem : ∀ r' m, r.onRead bits (.ok bytes) = (r', .io m) → r'.enter bits = (r', .io m) :=
      fun _ _ => enter_of_onRead h he' hle
    simp only [readOn]
    generalize r.onRead bits (.ok bytes) = p at hout hidem
    obtain ⟨r', a⟩ := p
    rcases a with m | (e | s)
    · have hfix := hidem r' m rfl
      obtain ⟨r₂, m₂, he₂, hpos, -⟩ := enter_partial hout
      rw [hfix] at he₂
      simp only [Prod.mk.injEq, Await.io.injEq] at he₂
      refine ⟨hout, by omega, ?_⟩
      simp only [hfix]
    · intro rest
      obtain ⟨e', he'⟩ := hout rest
      exact decode_error he'
    · obtain ⟨hgot, hnew⟩ := hout
      refine ⟨fun rest => ?_, fun _ => hnew⟩
      dsimp only
      rw [hgot rest]
      rfl
  eof r _ := ⟨_, (), _, rfl⟩
  incomplete r _ got h := by
    obtain ⟨e, he⟩ := h.incomplete maxLen
    exact decode_error he

end ResumableReadString

/-- The results of these calls, whatever the errors say. -/
def readOutcomes (bits maxLen : ℕ) (inp : List UInt8) : List (Option (String × List UInt8)) :=
  (readStrings bits maxLen inp).map Except.toOption

theorem readOutcomes_iterates (bits maxLen : ℕ) :
    Iterates (fun inp => (readString bits maxLen inp).toOption) (readOutcomes bits maxLen) := by
  intro inp
  rw [readOutcomes, readStrings]
  split
  · next e h =>
    dsimp only
    rw [h]
    rfl
  · next s rest h =>
    dsimp only
    rw [h]
    rfl

namespace ResumableWriteString

def writeTo : WriteFn ResumableWriteString where
  enter := enter
  onWrite := onWrite

theorem writeTo_leads (w : ResumableWriteString) {rem : List UInt8} (h : w.remaining = rem) :
    writeTo.Leads remaining (fun _ => True) rem w.enter := by
  have he := enter_eq w
  rw [he]
  split_ifs with hnil
  · exact ⟨by rw [← h, hnil], rfl⟩
  · refine ⟨trivial, h, hnil, by rw [h], ?_⟩
    show w.enter = _
    rw [he, if_neg hnil]

theorem writeTo_spec : writeTo.Spec remaining (fun _ => True) where
  enter w _ := writeTo_leads w rfl
  onWrite w slice n _ _ _ := by
    refine writeTo_leads _ ?_
    simp [remaining, List.drop_drop]

end ResumableWriteString

/-- The strings of a list, read back with `read_string`. -/
theorem readOutcomes_flatMap {maxLen : ℕ} (hmax : maxLen < 2 ^ 64) {strs : List String}
    (h : ∀ s ∈ strs, (asBytes s).length ≤ maxLen) :
    (readOutcomes 64 maxLen (strs.flatMap writeString)).map (Option.map Prod.fst) =
      strs.map some ++ [none] := by
  induction strs with
  | nil =>
    rw [readOutcomes_iterates 64 maxLen]
    rfl
  | cons s strs ih =>
    have hs : readString 64 maxLen (writeString s ++ strs.flatMap writeString) =
        .ok (s, strs.flatMap writeString) :=
      (readString_eq_ok hmax).mpr ⟨rfl, h s List.mem_cons_self⟩
    rw [readOutcomes_iterates 64 maxLen, List.flatMap_cons]
    dsimp only
    rw [hs]
    simp only [Except.toOption, List.map_cons, Option.map_some, List.cons_append, List.cons.injEq,
      true_and]
    exact ih fun t ht => h t (List.mem_cons_of_mem s ht)

/-- The resumable string codec does what `read_string` and `write_string` do.  The reader
gives the results of `read_string` called on the same bytes, each with the same bytes
left, up to the first error; the writer emits the bytes of `write_string`; and either
reader reads back what either writer has written. -/
theorem resumable_string_eq_one_shot {maxLen : ℕ} (hmax : maxLen < 2 ^ 62) :
    (∀ inp es r, run (Receiver.step (ResumableReadString.readOn 64))
        (.new (.new maxLen) () inp) es = some r →
      r.outcomes <+: readOutcomes 64 maxLen inp ∧
      (r.call = .failed → r.outcomes = readOutcomes 64 maxLen inp) ∧
      ∃ es' r', run (Receiver.step (ResumableReadString.readOn 64)) r es' = some r' ∧
        r'.call = .failed) ∧
    (∀ (strs : List String) es t, run (Sender.step ResumableWriteString.writeTo)
        (.new (strs.map .new)) es = some t →
      t.emitted <+: strs.flatMap writeString ∧
      (t.queue = [] → t.emitted = strs.flatMap writeString) ∧
      ∃ es' t', run (Sender.step ResumableWriteString.writeTo) t es' = some t' ∧ t'.queue = []) ∧
    ∀ strs : List String, (∀ s ∈ strs, (asBytes s).length ≤ maxLen) →
      ∀ out, (out = strs.flatMap writeString ∨
        ∃ es t, run (Sender.step ResumableWriteString.writeTo) (.new (strs.map .new)) es = some t ∧
          t.queue = [] ∧ t.emitted = out) →
      (readOutcomes 64 maxLen out).map (Option.map Prod.fst) =
        strs.map some ++ [none] ∧
      ∀ es r, run (Receiver.step (ResumableReadString.readOn 64))
        (.new (.new maxLen) () out) es = some r → r.call = .failed →
          r.outcomes.map (Option.map Prod.fst) = strs.map some ++ [none] := by
  have hmax' : maxLen < 2 ^ 64 := by omega
  have hread : ∀ inp es r, run (Receiver.step (ResumableReadString.readOn 64))
      (.new (.new maxLen) () inp) es = some r → _ := fun inp es r => Receiver.receives_run
    (ResumableReadString.readOn_spec 64 maxLen) (readOutcomes_iterates 64 maxLen)
    (fun _ => ResumableReadString.partial_new 64 maxLen)
  have hwrite : ∀ (strs : List String) es t, run (Sender.step ResumableWriteString.writeTo)
      (.new (strs.map .new)) es = some t → _ := fun strs es t => Sender.sends_run
    ResumableWriteString.writeTo_spec (by simp)
  have hflat : ∀ strs : List String, (strs.map ResumableWriteString.new).flatMap
      ResumableWriteString.remaining = strs.flatMap writeString := by
    intro strs
    rw [List.flatMap_map]
    rfl
  refine ⟨fun inp es r => hread inp es r, ?_, ?_⟩
  · intro strs es t hrun
    have h := hwrite strs es t hrun
    rw [hflat] at h
    exact h
  · intro strs hstrs out hout
    have hbytes : out = strs.flatMap writeString := by
      rcases hout with h | ⟨es, t, hrun, hq, rfl⟩
      · exact h
      · rw [(hwrite strs es t hrun).2.1 hq, hflat]
    have hall := readOutcomes_flatMap hmax' hstrs
    rw [hbytes]
    refine ⟨hall, fun es r hrun hfail => ?_⟩
    rw [(hread _ es r hrun).2.1 hfail, hall]

/-- Two strings, the first one empty, written in pieces and read back. -/
theorem resumable_string_eq_one_shot_two :
    ∃ es t, run (Sender.step ResumableWriteString.writeTo)
        (.new (["", "ab"].map ResumableWriteString.new)) es = some t ∧ t.queue = [] ∧
      (readOutcomes 64 2 t.emitted).map (Option.map Prod.fst) =
        [some "", some "ab", none] := by
  obtain ⟨-, hwrite, hback⟩ := resumable_string_eq_one_shot (show 2 < 2 ^ 62 by norm_num)
  obtain ⟨-, -, es, t, hrun, hq⟩ := hwrite ["", "ab"] [] _ rfl
  refine ⟨es, t, hrun, hq, ?_⟩
  exact (hback ["", "ab"] (by decide) t.emitted (.inr ⟨es, t, hrun, hq, rfl⟩)).1

/-! ## Blocks -/

namespace ResumableWriteFileBlock

variable {ι : Type}

def writeTo : WriteFn (ResumableWriteFileBlock ι) where
  enter := enter
  onWrite := onWrite

theorem enter_of_payload {w w' : ResumableWriteFileBlock ι} {s : List UInt8} (hs : w.step = 2)
    (h : w.payload = (w', .io s)) : w'.enter = (w', .io s) := by
  have h' := h
  unfold payload at h'
  split_ifs at h'
  · obtain ⟨rfl, -⟩ := Prod.mk.inj h'
    have h0 : ¬ w.step = 0 := by omega
    have h1 : ¬ w.step = 1 := by omega
    simp only [enter, if_neg h0, if_neg h1, h]
  · simp at h'

theorem enter_of_header {w w' : ResumableWriteFileBlock ι} {s : List UInt8} (hs : w.step = 1)
    (h : w.header = (w', .io s)) : w'.enter = (w', .io s) := by
  have h' := h
  unfold header at h'
  split_ifs at h'
  · obtain ⟨rfl, -⟩ := Prod.mk.inj h'
    have h0 : ¬ w.step = 0 := by omega
    simp only [enter, if_neg h0, if_pos hs, h]
  · exact enter_of_payload (w := { w with step := 2 }) rfl h'

theorem enter_idem {w w' : ResumableWriteFileBlock ι} (hw : w.Writing) {s : List UInt8}
    (h : w.enter = (w', .io s)) : w'.enter = (w', .io s) := by
  have h' := h
  unfold enter at h'
  dsimp only at h'
  split_ifs at h' with h0 h1 h1
  · exact enter_of_header
      (w := { w with offsetBytes := toBytes 8 w.offset, offsetlen := 8, step := 1 }) rfl h'
  · exact absurd rfl h1
  · exact enter_of_header h1 h'
  · refine enter_of_payload ?_ h'
    cases hw with
    | fresh hs => exact absurd hs h0
    | header hs => exact absurd hs h1
    | payload hs => exact hs

theorem enter_of_onWrite {w w' : ResumableWriteFileBlock ι} (hw : w.Writing) (h0 : w.step ≠ 0)
    {n : ℕ} {s : List UInt8} (h : w.onWrite (.ok n) = (w', .io s)) : w'.enter = (w', .io s) := by
  simp only [onWrite] at h
  split_ifs at h with h1
  · exact enter_of_header (w := { w with
      offsetBytes := copyWithin w.offsetBytes n, offsetlen := w.offsetlen - n }) h1 h
  · refine enter_of_payload (w := { w with bufoffset := w.bufoffset + n }) ?_ h
    cases hw with
    | fresh hs => exact absurd hs h0
    | header hs => exact absurd hs h1
    | payload hs => exact hs

theorem Outcome.leads {w : ResumableWriteFileBlock ι} {rem : List UInt8}
    {p : ResumableWriteFileBlock ι × Await (List UInt8) Unit} (h : Outcome w rem p)
    (hidem : ∀ w' s, p = (w', .io s) → w'.enter = (w', .io s)) :
    writeTo.Leads remaining Writing rem p := by
  obtain ⟨w', a⟩ := p
  obtain ⟨hrem, -, -, hw, ⟨hnil, ha⟩ | ⟨s, t, hst, hne, ha, -⟩⟩ := h
  · dsimp only at ha
    rw [ha]
    exact ⟨hnil, rfl⟩
  · dsimp only at ha
    rw [ha] at hidem ⊢
    exact ⟨hw, hrem, hne, ⟨t, hst.symm⟩, hidem w' s rfl⟩

theorem writeTo_spec : (writeTo (ι := ι)).Spec remaining Writing where
  enter w hw := (enter_outcome hw).leads fun _ _ h => enter_idem hw h
  onWrite w slice n hw he hn := by
    have hne : w.remaining ≠ [] := by
      intro hnil
      obtain ⟨-, -, -, -, ⟨-, hd⟩ | ⟨s, t, hst, hs, -⟩⟩ := enter_outcome hw
      · rw [show w.enter = _ from he] at hd
        cases hd
      · rw [hnil] at hst
        exact hs (List.append_eq_nil_iff.mp hst.symm).1
    have hslice : w.slice = slice := by rw [ResumableWriteFileBlock.slice, show w.enter = _ from he]
    have hpoll : w.poll (.ok n) = w.onWrite (.ok n) := by
      rw [poll, show w.enter = _ from he]
    have hout := poll_ok hw hne (n := n) (by rw [hslice]; exact hn)
    rw [hpoll] at hout
    refine hout.leads fun w' s h => enter_of_onWrite hw ?_ h
    intro h0
    obtain ⟨-, -, -, -, ⟨-, hd⟩ | ⟨s, t, -, -, -, hs0, -⟩⟩ := enter_outcome hw
    · rw [show w.enter = _ from he] at hd
      cases hd
    · rw [show w.enter = _ from he] at hs0
      exact hs0 h0

end ResumableWriteFileBlock

/-- The frame that a stream begins with, for a reader `q` that knows the two sizes. -/
def decodeBlock (bits : ℕ) (q : ResumableReadFileBlock) (inp : List UInt8) :
    Option ((ℕ × List UInt8) × List UInt8) :=
  if inp.length < 8 then none
  else
    let offset := ofBytes bits (inp.take 8)
    let len := q.currentBlockSize bits offset
    if (inp.drop 8).length < len then none
    else some ((offset, (inp.drop 8).take len), (inp.drop 8).drop len)

theorem decodeBlock_eq_some {bits : ℕ} {q : ResumableReadFileBlock} {inp rest : List UInt8}
    {b : ℕ × List UInt8} :
    decodeBlock bits q inp = some (b, rest) ↔ ∃ f, inp = f ++ rest ∧ q.ReadsAs bits f b := by
  constructor
  · intro h
    unfold decodeBlock at h
    split_ifs at h with h8
    dsimp only at h
    split_ifs at h with hlen
    obtain ⟨rfl, rfl⟩ := Prod.mk.inj (Option.some.inj h)
    have htake : (inp.take 8).length = 8 := by rw [List.length_take]; omega
    have hdata := List.length_take_of_le (Nat.le_of_not_lt hlen)
    refine ⟨inp.take 8 ++ (inp.drop 8).take (q.currentBlockSize bits (ofBytes bits (inp.take 8))),
      ?_, ⟨by rw [List.length_append]; omega, ?_, ?_, hdata⟩⟩
    · rw [List.append_assoc, List.take_append_drop, List.take_append_drop]
    · rw [List.take_append_of_le_length (by omega), List.take_take, Nat.min_self]
    · rw [List.drop_append_of_le_length htake.ge, List.drop_eq_nil_of_le htake.le,
        List.nil_append]
  · rintro ⟨f, rfl, hf⟩
    have h8 := hf.header
    have htake : (f ++ rest).take 8 = f.take 8 := List.take_append_of_le_length h8
    have hdrop : (f ++ rest).drop 8 = b.2 ++ rest := by
      rw [List.drop_append_of_le_length h8, hf.data]
    unfold decodeBlock
    rw [if_neg (by rw [List.length_append]; omega)]
    dsimp only
    rw [htake, ← hf.offset, hdrop, ← hf.length, if_neg (by simp), List.take_left, List.drop_left]

/-- The frames of a stream, decoded until there is no whole one left. -/
def decodeBlocks (bits : ℕ) (q : ResumableReadFileBlock) (inp : List UInt8) :
    List (Option ((ℕ × List UInt8) × List UInt8)) :=
  match _h : decodeBlock bits q inp with
  | none => [none]
  | some x => some x :: decodeBlocks bits q x.2
termination_by inp.length
decreasing_by
  obtain ⟨f, hinp, hf⟩ := decodeBlock_eq_some.mp _h
  have h8 := hf.header
  rw [hinp, List.length_append]
  omega

theorem decodeBlocks_iterates (bits : ℕ) (q : ResumableReadFileBlock) :
    Iterates (decodeBlock bits q) (decodeBlocks bits q) := by
  intro inp
  rw [decodeBlocks]
  split
  · next h => rw [h]
  · next x h => rw [h]

namespace ResumableReadFileBlock

def readOn (bits : ℕ) : ReadFn ResumableReadFileBlock (List UInt8) ℕ (ℕ × List UInt8) where
  enter := enter bits
  onRead := onRead bits
  value offset buf := (offset, buf)

theorem enter_of_payload {bits n : ℕ} {r r' : ResumableReadFileBlock} {buf buf' : List UInt8}
    (h8 : ¬ r.bufOffset < 8) (h : payload r buf = (r', buf', .io n)) :
    r'.enter bits buf' = (r', buf', .io n) := by
  have h' := h
  unfold payload at h'
  split_ifs at h'
  · simp only [Prod.mk.injEq] at h'
    obtain ⟨rfl, rfl, -⟩ := h'
    rw [enter, if_neg h8, h]
  · simp at h'

theorem enter_of_header {bits n : ℕ} {r r' : ResumableReadFileBlock} {buf buf' : List UInt8}
    (hlen : buf.length = 8) (h : header bits r buf = (r', buf', .io n)) :
    r'.enter bits buf' = (r', buf', .io n) := by
  have h' := h
  unfold header at h'
  split_ifs at h' with h8
  · simp only [Prod.mk.injEq] at h'
    obtain ⟨rfl, rfl, -⟩ := h'
    have hbuf : resize 0 buf 8 = buf := by rw [← hlen, resize_length]
    rw [enter, if_pos h8, hbuf, h]
  · exact enter_of_payload (r := { r with
      offset := (buf.take 8).foldl (shiftIn bits) r.offset }) h8 h'

theorem enter_idem {bits n : ℕ} {r r' : ResumableReadFileBlock} {buf buf' : List UInt8}
    (h : r.enter bits buf = (r', buf', .io n)) : r'.enter bits buf' = (r', buf', .io n) := by
  have h' := h
  unfold enter at h'
  split_ifs at h' with h8
  · exact enter_of_header (length_resize _ _ _) h'
  · exact enter_of_payload h8 h'

theorem enter_of_onRead {bits n m : ℕ} {r r' : ResumableReadFileBlock}
    {buf buf' got bytes : List UInt8} (hp : Partial bits r buf got)
    (he : r.enter bits buf = (r, buf, .io n)) (hle : bytes.length ≤ n)
    (h : r.onRead bits buf (.ok bytes) = (r', buf', .io m)) :
    r'.enter bits buf' = (r', buf', .io m) := by
  obtain ⟨buf₁, n₁, he₁, -, -, hr, h8⟩ := enter_partial hp
  rw [he] at he₁
  simp only [Prod.mk.injEq, Await.io.injEq, true_and] at he₁
  obtain ⟨rfl, rfl⟩ := he₁
  cases bytes with
  | nil => simp [onRead] at h
  | cons b bs =>
    simp only [onRead] at h
    split_ifs at h with hlt
    · rw [if_pos hlt] at hr
      have hlen := h8 hlt
      refine enter_of_header (r := { r with bufOffset := r.bufOffset + (b :: bs).length }) ?_ h
      rw [length_patch (by omega), hlen]
    · exact enter_of_payload (r := { r with bufOffset := r.bufOffset + (b :: bs).length })
        (by dsimp only; omega) h

/-- The struct decodes frame after frame, whatever buffer it is given for the next. -/
theorem readOn_spec (bits : ℕ) (q : ResumableReadFileBlock) :
    (readOn bits).Spec (decodeBlock bits q) (fun r buf got =>
      Partial bits r buf got ∧ r.blockSize = q.blockSize ∧ r.fileSize = q.fileSize) where
  enter r buf got h := by
    obtain ⟨buf', n, he, hpos, hp, -⟩ := enter_partial h.1
    exact ⟨r, buf', n, he, ⟨hp, h.2⟩, hpos, enter_idem he⟩
  onRead r buf got n bytes h he hne hle := by
    obtain ⟨hp, hb, hf⟩ := h
    have he' : r.enter bits buf = (r, buf, .io n) := he
    have hout := poll_outcome hp hne (by rw [he']) hle
    have hpoll : r.poll bits buf (.ok bytes) = r.onRead bits buf (.ok bytes) := by
      simp only [poll, he']
    rw [hpoll] at hout
    have hidem : ∀ r' buf' m, r.onRead bits buf (.ok bytes) = (r', buf', .io m) →
        r'.enter bits buf' = (r', buf', .io m) := fun _ _ _ => enter_of_onRead hp he' hle
    show (readOn bits).Leads _ _ _ (r.onRead bits buf (.ok bytes))
    generalize r.onRead bits buf (.ok bytes) = p at hout hidem
    obtain ⟨r', buf', a⟩ := p
    rcases a with m | (e | off)
    · obtain ⟨hp', hb', hf'⟩ := hout
      have hfix := hidem r' buf' m rfl
      obtain ⟨buf₂, m₂, he₂, hpos, -⟩ := enter_partial hp'
      rw [hfix] at he₂
      simp only [Prod.mk.injEq, Await.io.injEq] at he₂
      exact ⟨⟨hp', hb'.trans hb, hf'.trans hf⟩, by omega, hfix⟩
    · exact hout.elim
    · obtain ⟨hgot, rfl⟩ := hout
      refine ⟨fun rest => ?_, fun b' => ⟨partial_new _ _ _ b', hb, hf⟩⟩
      exact decodeBlock_eq_some.mpr ⟨_, rfl, readsAs_congr hb hf hgot⟩
  eof r buf := ⟨_, _, _, rfl⟩
  incomplete r buf got h := by
    obtain ⟨hp, hb, hf⟩ := h
    cases hd : decodeBlock bits q got with
    | none => rfl
    | some x =>
      obtain ⟨f, hgot, hf'⟩ := decodeBlock_eq_some.mp hd
      exact absurd hgot.symm (hp.ne_append (readsAs_congr hb.symm hf.symm hf') x.2)

end ResumableReadFileBlock

/-- The bytes that a list of blocks is sent as. -/
def blockFrames {ι : Type} (blocks : List (ℕ × Loan ι (List UInt8))) : List UInt8 :=
  blocks.flatMap fun b => blockFrame (b.1, b.2.value)

/-- What a reader of these bytes returns: each block with the frames after it still unread, and
an error at the end of the stream. -/
def delivered {ι : Type} : List (ℕ × Loan ι (List UInt8)) →
    List (Option ((ℕ × List UInt8) × List UInt8))
  | [] => [none]
  | b :: blocks => some ((b.1, b.2.value), blockFrames blocks) :: delivered blocks

theorem decodeBlocks_blockFrames {ι : Type} {bits : ℕ} {q : ResumableReadFileBlock}
    {blocks : List (ℕ × Loan ι (List UInt8))}
    (h : ∀ b ∈ blocks, q.ReadsAs bits (blockFrame (b.1, b.2.value)) (b.1, b.2.value)) :
    decodeBlocks bits q (blockFrames blocks) = delivered blocks := by
  induction blocks with
  | nil =>
    rw [decodeBlocks_iterates bits q]
    rfl
  | cons b blocks ih =>
    have hb : decodeBlock bits q (blockFrames (b :: blocks)) =
        some ((b.1, b.2.value), blockFrames blocks) :=
      decodeBlock_eq_some.mpr ⟨_, rfl, h b List.mem_cons_self⟩
    rw [decodeBlocks_iterates bits q, hb, delivered]
    dsimp only
    rw [ih fun b' hb' => h b' (List.mem_cons_of_mem b hb')]

/-- A list of blocks that fit the file is written as its frames, and read back from them
block by block, no byte of the next frame being touched. -/
theorem block_stream_round_trip {ι : Type} {blockSize fileSize : ℕ} (hf : fileSize < 2 ^ 62)
    (blocks : List (ℕ × Loan ι (List UInt8)))
    (hblocks : ∀ b ∈ blocks, b.1 ≤ fileSize ∧
      b.2.value.length = min blockSize (fileSize - b.1)) :
    (∀ es t, run (Sender.step ResumableWriteFileBlock.writeTo)
        (.new (blocks.map fun b => .new b.1 b.2)) es = some t →
      t.emitted <+: blockFrames blocks ∧ (t.queue = [] → t.emitted = blockFrames blocks) ∧
      ∃ es' t', run (Sender.step ResumableWriteFileBlock.writeTo) t es' = some t' ∧
        t'.queue = []) ∧
    ∀ buf es r, run (Receiver.step (ResumableReadFileBlock.readOn 64))
        (.new (.new blockSize fileSize) buf (blockFrames blocks)) es = some r →
      r.outcomes <+: delivered blocks ∧ (r.call = .failed → r.outcomes = delivered blocks) ∧
      ∃ es' r', run (Receiver.step (ResumableReadFileBlock.readOn 64)) r es' = some r' ∧
        r'.call = .failed := by
  constructor
  · intro es t hrun
    have h := Sender.sends_run ResumableWriteFileBlock.writeTo_spec (fun w hw => by
        obtain ⟨b, -, rfl⟩ := List.mem_map.mp hw
        exact ResumableWriteFileBlock.writing_new b.1 b.2) hrun
    have hflat : (blocks.map fun b => ResumableWriteFileBlock.new b.1 b.2).flatMap
        ResumableWriteFileBlock.remaining = blockFrames blocks := by
      rw [List.flatMap_map]
      rfl
    rw [hflat] at h
    exact h
  · intro buf es r hrun
    have h := Receiver.receives_run
      (ResumableReadFileBlock.readOn_spec 64 (ResumableReadFileBlock.new blockSize fileSize))
      (decodeBlocks_iterates _ _)
      (fun b => ⟨ResumableReadFileBlock.partial_new _ _ _ b, rfl, rfl⟩) hrun
    have hacc : ∀ b ∈ blocks, (ResumableReadFileBlock.new blockSize fileSize).ReadsAs 64
        (blockFrame (b.1, b.2.value)) (b.1, b.2.value) := by
      intro b hmem
      obtain ⟨hoff, hlen⟩ := hblocks b hmem
      refine ResumableReadFileBlock.readsAs_blockFrame le_rfl (by dsimp only; omega) ?_
      have hsize : fileSize < 2 ^ 64 := by omega
      rw [ResumableReadFileBlock.currentBlockSize_eq (r := .new blockSize fileSize) hsize hoff]
      exact hlen
    rw [decodeBlocks_blockFrames hacc] at h
    exact h

/-- A file of three bytes in blocks of two, followed by the empty block at its end. -/
theorem block_stream_round_trip_three :
    ∃ es r, run (Receiver.step (ResumableReadFileBlock.readOn 64))
        (.new (.new 2 3) [9, 9, 9] (blockFrames [(0, ⟨[1, 2], ()⟩), (2, ⟨[3], ()⟩),
          (3, ⟨[], ()⟩)])) es = some r ∧
      r.outcomes = delivered [(0, ⟨[1, 2], ()⟩), (2, ⟨[3], ()⟩), (3, ⟨[], ()⟩)] := by
  have h := @block_stream_round_trip Unit 2 3 (by norm_num)
    [(0, ⟨[1, 2], ()⟩), (2, ⟨[3], ()⟩), (3, ⟨[], ()⟩)] (by decide)
  obtain ⟨-, -, es, r, hrun, hfail⟩ := h.2 [9, 9, 9] [] _ rfl
  exact ⟨es, r, hrun, (h.2 [9, 9, 9] es r hrun).2.1 hfail⟩

end Deltasync
