import Deltasync.Common
import Deltasync.Lib.PrefixCode

/-!
# What the resumable codecs do, whatever the splits and the cancellations

For a reader, `Partial r got` says that `got` are the bytes of the current frame
read so far; one poll extends `got` by the bytes it is given, or completes the
frame.  For a writer, `remaining w` are the bytes of the frame not yet accepted;
one poll drops from it the bytes accepted.

The prefix of a frame has 64 bits.  In a `usize` of fewer bits a reader keeps the low ones
only, and takes frames that no writer has written: `ReadsAs` says what it makes of one.
-/

namespace Deltasync

open BigEndian Blocks PrefixCode

theorem usize_of_lt {bits x : ℕ} (h : x < 2 ^ bits) : usize bits x = x := Nat.mod_eq_of_lt h

/-- A `usize` has room for the bounds of the readers. -/
theorem lt_two_pow {bits : ℕ} (hbits : 16 ≤ bits) : 256 < 2 ^ bits :=
  lt_of_lt_of_le (by norm_num : 256 < 2 ^ 16) (Nat.pow_le_pow_right (by norm_num) hbits)

theorem fromUtf8_eq_some {bytes : List UInt8} {s : String} :
    fromUtf8 bytes = some s ↔ bytes = asBytes s := by
  unfold fromUtf8 asBytes String.fromUTF8?
  split_ifs with h
  · rw [Option.some.injEq]
    constructor
    · rintro rfl
      rfl
    · rintro rfl
      rfl
  · constructor
    · simp
    · rintro rfl
      exact absurd s.isValidUTF8 h

theorem length_writeString (s : String) : (writeString s).length = 8 + (asBytes s).length := by
  simp [writeString]

/-! A frame begins with a number on 8 bytes. -/

theorem take_toBytes (n : ℕ) (rest : List UInt8) : (toBytes 8 n ++ rest).take 8 = toBytes 8 n := by
  rw [List.take_append_of_le_length (by simp), List.take_of_length_le (by simp)]

theorem drop_toBytes (n : ℕ) (rest : List UInt8) : (toBytes 8 n ++ rest).drop 8 = rest := by
  rw [List.drop_append_of_le_length (by simp), List.drop_eq_nil_of_le (by simp), List.nil_append]

theorem ofBytes_toBytes_eight {n : ℕ} (h : n < 2 ^ 64) : ofBytes 64 (toBytes 8 n) = n :=
  ofBytes_toBytes (lt_of_lt_of_le h (by norm_num)) h

/-- The length prefix of eight bytes, as a number. -/
theorem size_lt {inp : List UInt8} (h8 : 8 ≤ inp.length) :
    ofBytes 64 (inp.take 8) < 2 ^ 64 := by
  have htake : (inp.take 8).length = 8 := by simp; omega
  have hlt := ofBytes_lt (w := 64) (inp.take 8) (by omega)
  rw [htake] at hlt
  exact lt_of_lt_of_le hlt (by norm_num)

theorem toBytes_size {inp : List UInt8} (h8 : 8 ≤ inp.length) :
    toBytes 8 (ofBytes 64 (inp.take 8)) = inp.take 8 := by
  have htake : (inp.take 8).length = 8 := by simp; omega
  have hback := toBytes_ofBytes (w := 64) (inp.take 8) (by omega)
  rwa [htake] at hback

theorem writeString_ne_nil (s : String) : writeString s ≠ [] := by
  intro h
  have hlen := length_writeString s
  rw [h, List.length_nil] at hlen
  omega

/-! What a reader takes for a string. -/

section ReadsAs

variable {bits maxLen : ℕ} {got f : List UInt8} {s : String}

/-- `read_string` takes `f` for `s`. -/
def ReadsAs (bits maxLen : ℕ) (f : List UInt8) (s : String) : Prop :=
  ∀ rest, readString bits maxLen (f ++ rest) = .ok (s, rest)

/-- A frame with all of its payload. -/
theorem readString_append (hle : 8 ≤ got.length)
    (hlen : (got.drop 8).length = usize bits (ofBytes 64 (got.take 8)))
    (hm : (got.drop 8).length ≤ maxLen) (rest : List UInt8) :
    readString bits maxLen (got ++ rest) =
      match fromUtf8 (got.drop 8) with
      | some s => .ok (s, rest)
      | none => .error (utf8Error (got.drop 8)) := by
  have htake : (got ++ rest).take 8 = got.take 8 := List.take_append_of_le_length hle
  have hdrop : (got ++ rest).drop 8 = got.drop 8 ++ rest := List.drop_append_of_le_length hle
  have h8 : ¬ (got ++ rest).length < 8 := by rw [List.length_append]; omega
  unfold readString
  rw [if_neg h8, htake, hdrop, ← hlen]
  dsimp only
  have hmax : ¬ maxLen < (got.drop 8).length := by omega
  have hrest : ¬ (got.drop 8 ++ rest).length < (got.drop 8).length := by
    rw [List.length_append]; omega
  cases hs : fromUtf8 (got.drop 8) with
  | none => simp only [if_neg hmax, if_neg hrest, List.take_left, hs]
  | some s => simp only [if_neg hmax, if_neg hrest, List.take_left, List.drop_left, hs]

/-- What `write_string` writes is read back, when its length fits a `usize`. -/
theorem readsAs_writeString (hbits : bits ≤ 64) (hfit : (asBytes s).length < 2 ^ bits)
    (hmax : (asBytes s).length ≤ maxLen) : ReadsAs bits maxLen (writeString s) s := by
  have h64 : (asBytes s).length < 2 ^ 64 :=
    lt_of_lt_of_le hfit (Nat.pow_le_pow_right (by norm_num) hbits)
  have htake : (writeString s).take 8 = toBytes 8 (asBytes s).length := take_toBytes _ _
  have hdrop : (writeString s).drop 8 = asBytes s := drop_toBytes _ _
  intro rest
  rw [readString_append (by rw [length_writeString]; omega), hdrop, fromUtf8_eq_some.mpr rfl]
  · rw [htake, hdrop, ofBytes_toBytes_eight h64, usize_of_lt hfit]
  · rw [hdrop]
    exact hmax

theorem ReadsAs.length_le (h : ReadsAs bits maxLen f s) : (asBytes s).length ≤ maxLen := by
  have hr := h []
  unfold readString at hr
  split_ifs at hr with h8
  dsimp only at hr
  split_ifs at hr with hm hl
  split at hr
  · next t ht =>
    obtain ⟨rfl, -⟩ := Prod.mk.inj (Except.ok.inj hr)
    rw [← fromUtf8_eq_some.mp ht, List.length_take]
    omega
  · cases hr

/-- A greater bound accepts as much. -/
theorem ReadsAs.mono {maxLen' : ℕ} (h : ReadsAs bits maxLen f s) (hle : maxLen ≤ maxLen') :
    ReadsAs bits maxLen' f s := by
  intro rest
  have hr := h rest
  unfold readString at hr ⊢
  split_ifs at hr ⊢ with h8
  dsimp only at hr ⊢
  split_ifs at hr with hm hl
  rw [if_neg (by omega), if_neg hl]
  exact hr

theorem isPrefixCode_readsAs (bits maxLen : ℕ) : IsPrefixCode (ReadsAs bits maxLen) where
  ne_nil f s h := by
    rintro rfl
    cases h []
  eq_of_append f g s t x y hf hg h := by
    have hx := hf x
    rw [h, hg y] at hx
    obtain ⟨rfl, rfl⟩ := Prod.mk.inj (Except.ok.inj hx)
    exact ⟨List.append_cancel_right h, rfl⟩

/-- Of what `write_string` has written a reader takes nothing else than the strings. -/
theorem exists_strings (hbits : bits ≤ 64) (hmax : maxLen < 2 ^ bits) {frames : List (List UInt8)}
    {l m : List String} {rest : List UInt8} (hl : List.Forall₂ (ReadsAs bits maxLen) frames l)
    (hm : ∀ s ∈ m, (asBytes s).length < 2 ^ bits)
    (h : frames.flatten ++ rest <+: m.flatMap writeString) :
    frames.flatten = l.flatMap writeString ∧
      ∃ m', m = l ++ m' ∧ rest <+: m'.flatMap writeString := by
  -- a long string is a codeword for a reader without a bound
  have hcode : ∀ s ∈ m, ReadsAs bits (2 ^ bits - 1) (writeString s) s := fun s hs =>
    readsAs_writeString hbits (hm s hs) (by have := hm s hs; omega)
  rw [List.flatMap_def] at h
  obtain ⟨ds, m', hds, rfl, hrest⟩ := (isPrefixCode_readsAs bits (2 ^ bits - 1)).exists_tail
    (hl.imp fun _ _ hf => hf.mono (by omega)) (forall₂_map_enc hcode) h
  rw [List.map_append] at hds
  obtain ⟨rfl, rfl⟩ := List.append_inj hds (by rw [List.length_map, hl.length_eq])
  exact ⟨by rw [List.flatMap_def], m', rfl, by rwa [List.flatMap_def]⟩

/-- A stream that `read_string` does not refuse begins with a length and as many bytes. -/
theorem exists_frame {inp : List UInt8} {p : String × List UInt8}
    (h : readString bits maxLen inp = .ok p) :
    ∃ f tail, inp = f ++ tail ∧ 8 ≤ f.length ∧
      (f.drop 8).length = usize bits (ofBytes 64 (f.take 8)) ∧ (f.drop 8).length ≤ maxLen := by
  unfold readString at h
  split_ifs at h with h8
  dsimp only at h
  split_ifs at h with hm hl
  have htake : (inp.take 8).length = 8 := by rw [List.length_take]; omega
  obtain ⟨n, hn⟩ : ∃ n, usize bits (ofBytes 64 (inp.take 8)) = n := ⟨_, rfl⟩
  rw [hn] at hm hl
  refine ⟨inp.take 8 ++ (inp.drop 8).take n, (inp.drop 8).drop n, ?_,
    by rw [List.length_append]; omega, ?_⟩
  · rw [List.append_assoc, List.take_append_drop, List.take_append_drop]
  · rw [List.drop_append_of_le_length htake.ge, List.drop_eq_nil_of_le htake.le, List.nil_append,
      List.take_append_of_le_length htake.ge, List.take_take, Nat.min_self, List.length_take, hn]
    omega

theorem readString_ok_iff {inp rest : List UInt8} :
    readString bits maxLen inp = .ok (s, rest) ↔
      ∃ f, inp = f ++ rest ∧ ReadsAs bits maxLen f s := by
  constructor
  · intro h
    obtain ⟨f, tail, rfl, h8, hlen, hm⟩ := exists_frame h
    have hread := readString_append h8 hlen hm
    rw [hread tail] at h
    cases hs : fromUtf8 (f.drop 8) with
    | none =>
      rw [hs] at h
      cases h
    | some t =>
      rw [hs] at h
      obtain ⟨rfl, rfl⟩ := Prod.mk.inj (Except.ok.inj h)
      exact ⟨f, rfl, fun rest => by rw [hread rest, hs]⟩
  · rintro ⟨f, rfl, hf⟩
    exact hf rest

/-- On 64 bits `read_string` accepts exactly what `write_string` writes, up to `max_len`. -/
theorem readString_eq_ok {inp rest : List UInt8} (hmax : maxLen < 2 ^ 64) :
    readString 64 maxLen inp = .ok (s, rest) ↔
      inp = writeString s ++ rest ∧ (asBytes s).length ≤ maxLen := by
  constructor
  · intro h
    unfold readString at h
    split_ifs at h with h8
    have h8 : 8 ≤ inp.length := by omega
    have hlt := size_lt h8
    simp only [usize_of_lt hlt] at h
    split_ifs at h with hm hl
    split at h
    · next t ht =>
      simp only [Except.ok.injEq, Prod.mk.injEq] at h
      obtain ⟨rfl, rfl⟩ := h
      have hb := fromUtf8_eq_some.mp ht
      have hlen : (asBytes t).length = ofBytes 64 (inp.take 8) := by
        rw [← hb, List.length_take]
        omega
      refine ⟨?_, by omega⟩
      rw [writeString, hlen, toBytes_size h8, ← hb, List.append_assoc, List.take_append_drop,
        List.take_append_drop]
    · cases h
  · rintro ⟨rfl, hle⟩
    exact readsAs_writeString le_rfl (by omega) hle rest

end ReadsAs

/-! ## Reading a string -/

namespace ResumableReadString

/-- `got` is what has been read of the current frame. -/
inductive Partial (bits maxLen : ℕ) (r : ResumableReadString) (got : List UInt8) : Prop where
  | header (hlt : got.length < 8) (hoff : r.offset = got.length) (hsize : r.size = 0)
      (hmax : r.maxLen = maxLen) (hbuf : got <+: r.buf)
  | payload (hle : 8 ≤ got.length) (hoff : r.offset = got.length)
      (hsize : r.size = ofBytes 64 (got.take 8)) (hmax : r.maxLen = maxLen)
      (hm : r.buf.length ≤ maxLen) (hlen : r.buf.length = usize bits r.size)
      (hlt : got.length < r.buf.length + 8) (hbuf : got.drop 8 <+: r.buf)

theorem partial_new (bits maxLen : ℕ) : Partial bits maxLen (new maxLen) [] :=
  .header (by simp) rfl rfl rfl List.nil_prefix

/-- The outcome of a poll that has brought the bytes read of the frame to `got`. -/
def Outcome (bits maxLen : ℕ) (got : List UInt8) : ResumableReadString × Await ℕ String → Prop
  | (r, .io _) => Partial bits maxLen r got
  | (r, .done (.ok s)) => ReadsAs bits maxLen got s ∧ Partial bits maxLen r []
  | (_, .done (.error _)) => ∀ rest, ∃ e, readString bits maxLen (got ++ rest) = .error e

variable {bits maxLen : ℕ} {r : ResumableReadString} {got : List UInt8}

/-- The payload loop, entered with `got` read. -/
theorem payload_outcome (hle : 8 ≤ got.length) (hoff : r.offset = got.length)
    (hsize : r.size = ofBytes 64 (got.take 8)) (hm : r.maxLen = maxLen)
    (hmle : r.buf.length ≤ maxLen) (hlen : r.buf.length = usize bits r.size)
    (hle' : got.length ≤ r.buf.length + 8) (hbuf : got.drop 8 <+: r.buf) :
    Outcome bits maxLen got (payload bits r) := by
  unfold payload
  rw [← hlen]
  split_ifs with h
  · exact .payload hle hoff hsize hm hmle hlen (by omega) hbuf
  · have hdrop : got.drop 8 = r.buf := hbuf.eq_of_length (by rw [List.length_drop]; omega)
    have hread := @readString_append bits maxLen got hle (by rw [hdrop, hlen, hsize])
      (by rw [hdrop]; exact hmle)
    rw [hdrop] at hread
    cases hs : fromUtf8 r.buf with
    | some s =>
      rw [hs] at hread
      exact ⟨hread, .header (by simp) rfl rfl hm List.nil_prefix⟩
    | none =>
      rw [hs] at hread
      exact fun rest => ⟨_, hread rest⟩

/-- The header loop, entered with `got` read. -/
theorem header_outcome (hle : got.length ≤ 8) (hoff : r.offset = got.length) (hsize : r.size = 0)
    (hm : r.maxLen = maxLen) (hbuf : got <+: r.buf) (hlen : r.buf.length = 8) :
    Outcome bits maxLen got (header bits r) := by
  unfold header
  split_ifs with h
  · exact .header (by omega) hoff hsize hm hbuf
  · have h8 : got.length = 8 := by omega
    have hgot : got = r.buf := hbuf.eq_of_length (by omega)
    have htake : r.buf.take 8 = r.buf := List.take_of_length_le (by omega)
    have hval : (r.buf.take 8).foldl (shiftIn 64) r.size = ofBytes 64 (got.take 8) := by
      rw [hsize, hgot]; rfl
    dsimp only
    rw [hval]
    split_ifs with hbig
    · -- the length is refused before any byte of the payload
      intro rest
      have htr : (got ++ rest).take 8 = got.take 8 := List.take_append_of_le_length (by omega)
      unfold readString
      rw [if_neg (by rw [List.length_append]; omega)]
      dsimp only
      rw [htr, if_pos (by omega)]
      exact ⟨_, rfl⟩
    · have hnil : got.drop 8 = [] := List.drop_eq_nil_of_le (by omega)
      refine payload_outcome (by omega) hoff rfl hm (by rw [List.length_replicate]; omega)
        (by simp) (by rw [List.length_replicate]; omega) ?_
      rw [hnil]
      exact List.nil_prefix

/-- In the payload loop a part of the payload is missing, so that there is one. -/
theorem size_ne_zero (hle : 8 ≤ got.length) (hlen : r.buf.length = usize bits r.size)
    (hlt : got.length < r.buf.length + 8) : r.size ≠ 0 := by
  intro hz
  rw [hz, usize, Nat.zero_mod] at hlen
  omega

/-- Up to its await a call changes nothing that matters, and asks for at least one byte. -/
theorem enter_partial (h : Partial bits maxLen r got) :
    ∃ r' room, r.enter bits = (r', .io room) ∧ 0 < room ∧ Partial bits maxLen r' got ∧
      room + r'.offset = r'.buf.length + (if r'.size = 0 then 0 else 8) ∧
      (r'.size = 0 → r'.buf.length = 8) := by
  cases h with
  | header hlt hoff hsize hmax hbuf =>
    have hl := length_resize (0 : UInt8) r.buf 8
    refine ⟨{ r with buf := resize 0 r.buf 8 }, 8 - got.length, ?_, by omega,
      .header hlt hoff hsize hmax (prefix_resize hbuf (by omega)), ?_, fun _ => hl⟩
    · rw [enter, if_pos hsize, header, if_pos (by dsimp only; omega), hl]
      dsimp only
      rw [hoff]
    · rw [if_pos hsize]
      dsimp only
      omega
  | payload hle hoff hsize hmax hm hlen hlt hbuf =>
    have hz := size_ne_zero hle hlen hlt
    refine ⟨r, r.buf.length - (r.offset - 8), ?_, by omega,
      .payload hle hoff hsize hmax hm hlen hlt hbuf, ?_, fun h0 => absurd h0 hz⟩
    · rw [enter, if_neg hz, payload, ← hlen, if_pos (by omega)]
    · rw [if_neg hz]
      omega

/-- One poll with the socket ready. -/
theorem poll_outcome (h : Partial bits maxLen r got) {bytes : List UInt8}
    (hne : bytes ≠ []) {room : ℕ} (hroom : (r.enter bits).2 = .io room)
    (hle : bytes.length ≤ room) :
    Outcome bits maxLen (got ++ bytes) (r.poll bits (.ok bytes)) := by
  obtain ⟨r', room', he, -, hp, hr, h8⟩ := enter_partial h
  rw [he] at hroom
  obtain rfl : room' = room := by simpa using hroom
  obtain ⟨b, bs, rfl⟩ : ∃ b bs, bytes = b :: bs := List.exists_cons_of_ne_nil hne
  simp only [poll, he, onRead]
  cases hp with
  | header hlt hoff hsize hm hbuf =>
    have hlen := h8 hsize
    rw [if_pos hsize] at hr ⊢
    refine header_outcome (by rw [List.length_append]; omega)
      (by dsimp only; rw [List.length_append]; omega) hsize hm ?_ ?_
    · dsimp only
      rw [hoff]
      exact prefix_patch hbuf (by omega)
    · rw [length_patch (by omega), hlen]
  | payload hle8 hoff hsize hm hmle hlen hlt hbuf =>
    rw [if_neg (size_ne_zero hle8 hlen hlt)] at hr ⊢
    have hd : (got.drop 8).length = r'.offset - 8 := by rw [List.length_drop]; omega
    have hpl := length_patch (d := (0 : UInt8)) (l := r'.buf) (x := b :: bs) (i := r'.offset - 8)
      (by omega)
    refine payload_outcome (by rw [List.length_append]; omega)
      (by dsimp only; rw [List.length_append]; omega) ?_ hm ?_ ?_ ?_ ?_
    · rw [List.take_append_of_le_length hle8]
      exact hsize
    · rw [hpl]
      exact hmle
    · rw [hpl]
      exact hlen
    · rw [List.length_append, hpl]
      omega
    · rw [List.drop_append_of_le_length hle8]
      dsimp only
      rw [← hd]
      exact prefix_patch hbuf (by omega)

end ResumableReadString

section Incomplete

open ResumableReadString

/-- What has been read of a frame does not contain a whole one. -/
theorem ResumableReadString.Partial.incomplete {bits maxLen : ℕ} {r : ResumableReadString}
    {got : List UInt8} (h : Partial bits maxLen r got) (maxLen' : ℕ) :
    ∃ e, readString bits maxLen' got = .error e := by
  unfold readString
  cases h with
  | header hlt hoff hsize hmax hbuf => exact ⟨_, if_pos hlt⟩
  | payload hle hoff hsize hmax hm hlen hlt hbuf =>
    rw [if_neg (by omega), ← hsize, ← hlen]
    dsimp only
    split_ifs with hbig hmore
    · exact ⟨_, rfl⟩
    · exact ⟨_, rfl⟩
    · rw [List.length_drop] at hmore
      omega

theorem ResumableReadString.Partial.ne_append {bits maxLen maxLen' : ℕ} {r : ResumableReadString}
    {got f : List UInt8} (h : Partial bits maxLen r got) {s : String}
    (hf : ReadsAs bits maxLen' f s) (rest : List UInt8) : f ++ rest ≠ got := by
  rintro rfl
  obtain ⟨e, he⟩ := h.incomplete maxLen'
  rw [hf rest] at he
  cases he

theorem ResumableReadString.poll_error {bits maxLen : ℕ} {r : ResumableReadString}
    {got : List UInt8} (h : Partial bits maxLen r got) {res : Except String (List UInt8)}
    (hres : bytesRead res = []) : ∃ r' e, r.poll bits res = (r', .done (.error e)) := by
  obtain ⟨r', room, he, -⟩ := enter_partial h
  simp only [poll, he]
  cases res with
  | error e => exact ⟨_, _, rfl⟩
  | ok bytes =>
    obtain rfl : bytes = [] := hres
    exact ⟨_, _, rfl⟩

end Incomplete

/-! ## Reading a block -/

/-- The frame of a block: its offset on 8 bytes, then its data. -/
def blockFrame (b : ℕ × List UInt8) : List UInt8 := toBytes 8 b.1 ++ b.2

namespace ResumableReadFileBlock

/-- `got` is what has been read of the current frame; `buf` is the caller's buffer. -/
inductive Partial (bits : ℕ) (r : ResumableReadFileBlock) (buf got : List UInt8) : Prop where
  | header (hlt : got.length < 8) (hoff : r.bufOffset = got.length) (hzero : r.offset = 0)
      (hbuf : got <+: buf)
  | payload (hle : 8 ≤ got.length) (hoff : r.bufOffset = got.length)
      (hval : r.offset = ofBytes bits (got.take 8))
      (hlen : buf.length = r.currentBlockSize bits r.offset) (hlt : got.length < buf.length + 8)
      (hbuf : got.drop 8 <+: buf)

/-- The reader takes `f` for the block `b`. -/
structure ReadsAs (bits : ℕ) (r : ResumableReadFileBlock) (f : List UInt8)
    (b : ℕ × List UInt8) : Prop where
  header : 8 ≤ f.length
  offset : b.1 = ofBytes bits (f.take 8)
  data : b.2 = f.drop 8
  length : b.2.length = r.currentBlockSize bits b.1

/-- The outcome of a poll that has brought the bytes read of the frame to `got`. -/
def Outcome (bits : ℕ) (q : ResumableReadFileBlock) (got : List UInt8) :
    ResumableReadFileBlock × List UInt8 × Await ℕ ℕ → Prop
  | (r, buf, .io _) =>
    Partial bits r buf got ∧ r.blockSize = q.blockSize ∧ r.fileSize = q.fileSize
  | (r, buf, .done (.ok off)) =>
    q.ReadsAs bits got (off, buf) ∧ r = new q.blockSize q.fileSize
  | (_, _, .done (.error _)) => False

theorem partial_new (bits blockSize fileSize : ℕ) (buf : List UInt8) :
    Partial bits (new blockSize fileSize) buf [] :=
  .header (by simp) rfl rfl List.nil_prefix

theorem currentBlockSize_congr {r r' : ResumableReadFileBlock} (hb : r.blockSize = r'.blockSize)
    (hf : r.fileSize = r'.fileSize) (bits off : ℕ) :
    r.currentBlockSize bits off = r'.currentBlockSize bits off := by
  simp only [currentBlockSize, hb, hf]

theorem readsAs_congr {r r' : ResumableReadFileBlock} (hb : r.blockSize = r'.blockSize)
    (hf : r.fileSize = r'.fileSize) {bits : ℕ} {f : List UInt8} {b : ℕ × List UInt8}
    (h : r.ReadsAs bits f b) : r'.ReadsAs bits f b :=
  ⟨h.header, h.offset, h.data, by rw [h.length, currentBlockSize_congr hb hf]⟩

variable {bits : ℕ} {r q : ResumableReadFileBlock} {buf got : List UInt8}

theorem payload_outcome (hb : r.blockSize = q.blockSize) (hf : r.fileSize = q.fileSize)
    (hle : 8 ≤ got.length) (hoff : r.bufOffset = got.length)
    (hval : r.offset = ofBytes bits (got.take 8))
    (hlen : buf.length = r.currentBlockSize bits r.offset) (hle' : got.length ≤ buf.length + 8)
    (hbuf : got.drop 8 <+: buf) : Outcome bits q got (payload r buf) := by
  unfold payload
  split_ifs with h
  · exact ⟨.payload hle hoff hval hlen (by omega) hbuf, hb, hf⟩
  · have hdrop : got.drop 8 = buf := hbuf.eq_of_length (by rw [List.length_drop]; omega)
    refine ⟨⟨hle, hval, hdrop.symm, ?_⟩, ?_⟩
    · rw [hlen, currentBlockSize_congr hb hf]
    · rw [← hb, ← hf]; rfl

theorem header_outcome (hb : r.blockSize = q.blockSize) (hf : r.fileSize = q.fileSize)
    (hle : got.length ≤ 8) (hoff : r.bufOffset = got.length) (hzero : r.offset = 0)
    (hbuf : got <+: buf) (hlen : buf.length = 8) : Outcome bits q got (header bits r buf) := by
  unfold header
  split_ifs with h
  · exact ⟨.header (by omega) hoff hzero hbuf, hb, hf⟩
  · have hgot : got = buf := hbuf.eq_of_length (by omega)
    have hval : (buf.take 8).foldl (shiftIn bits) r.offset = ofBytes bits (got.take 8) := by
      rw [hzero, hgot]; rfl
    have hnil : got.drop 8 = [] := List.drop_eq_nil_of_le (by omega)
    refine payload_outcome hb hf (by omega) hoff hval ?_ (by dsimp only; omega) ?_
    · rw [List.length_replicate]
    · rw [hnil]
      exact List.nil_prefix

theorem enter_partial (h : Partial bits r buf got) :
    ∃ buf' room, r.enter bits buf = (r, buf', .io room) ∧ 0 < room ∧ Partial bits r buf' got ∧
      room + r.bufOffset = buf'.length + (if r.bufOffset < 8 then 0 else 8) ∧
      (r.bufOffset < 8 → buf'.length = 8) := by
  cases h with
  | header hlt hoff hzero hbuf =>
    have hl := length_resize (0 : UInt8) buf 8
    have h8 : r.bufOffset < 8 := by omega
    refine ⟨resize 0 buf 8, 8 - r.bufOffset, ?_, by omega,
      .header hlt hoff hzero (prefix_resize hbuf (by omega)), ?_, fun _ => hl⟩
    · rw [enter, if_pos h8, header, if_pos h8, hl]
    · rw [if_pos h8]
      omega
  | payload hle hoff hval hlen hlt hbuf =>
    have h8 : ¬ r.bufOffset < 8 := by omega
    refine ⟨buf, buf.length - (r.bufOffset - 8), ?_, by omega,
      .payload hle hoff hval hlen hlt hbuf, ?_, fun h => absurd h h8⟩
    · rw [enter, if_neg h8, payload, if_pos (by omega)]
    · rw [if_neg h8]
      omega

theorem poll_outcome (h : Partial bits r buf got) {bytes : List UInt8} (hne : bytes ≠ [])
    {room : ℕ} (hroom : (r.enter bits buf).2.2 = .io room) (hle : bytes.length ≤ room) :
    Outcome bits r (got ++ bytes) (r.poll bits buf (.ok bytes)) := by
  obtain ⟨buf', room', he, -, hp, hr, h8⟩ := enter_partial h
  rw [he] at hroom
  obtain rfl : room' = room := by simpa using hroom
  obtain ⟨b, bs, rfl⟩ : ∃ b bs, bytes = b :: bs := List.exists_cons_of_ne_nil hne
  simp only [poll, he, onRead]
  cases hp with
  | header hlt hoff hzero hbuf =>
    have hlt8 : r.bufOffset < 8 := by omega
    have hlen := h8 hlt8
    rw [if_pos hlt8] at hr ⊢
    refine header_outcome (q := r) rfl rfl (by rw [List.length_append]; omega)
      (by dsimp only; rw [List.length_append]; omega) hzero ?_ ?_
    · rw [hoff]
      exact prefix_patch hbuf (by omega)
    · rw [length_patch (by omega), hlen]
  | payload hle8 hoff hval hlen hlt hbuf =>
    have hlt8 : ¬ r.bufOffset < 8 := by omega
    rw [if_neg hlt8] at hr ⊢
    have hd : (got.drop 8).length = r.bufOffset - 8 := by rw [List.length_drop]; omega
    have hpl := length_patch (d := (0 : UInt8)) (l := buf') (x := b :: bs) (i := r.bufOffset - 8)
      (by omega)
    refine payload_outcome (q := r) rfl rfl (by rw [List.length_append]; omega)
      (by dsimp only; rw [List.length_append]; omega) ?_ ?_ ?_ ?_
    · rw [List.take_append_of_le_length hle8]
      exact hval
    · rw [hpl, hlen]
      rfl
    · rw [List.length_append, hpl]
      omega
    · rw [List.drop_append_of_le_length hle8, ← hd]
      exact prefix_patch hbuf (by omega)

theorem isPrefixCode_readsAs (bits : ℕ) (r : ResumableReadFileBlock) :
    IsPrefixCode (r.ReadsAs bits) where
  ne_nil f b h := by
    rintro rfl
    exact absurd h.header (by simp)
  eq_of_append f g a b x y hf hg h := by
    have htake : f.take 8 = g.take 8 := by
      have := congrArg (List.take 8) h
      rwa [List.take_append_of_le_length hf.header,
        List.take_append_of_le_length hg.header] at this
    have hoff : a.1 = b.1 := by rw [hf.offset, hg.offset, htake]
    have hlen : f.length = g.length := by
      have ha := hf.length
      have hb := hg.length
      rw [hf.data, List.length_drop] at ha
      rw [hg.data, List.length_drop, ← hoff] at hb
      have := hf.header
      have := hg.header
      omega
    obtain ⟨rfl, -⟩ := List.append_inj h hlen
    exact ⟨rfl, Prod.ext hoff (by rw [hf.data, hg.data])⟩

/-- What is written for a block is read back, when its offset fits a `usize`. -/
theorem readsAs_blockFrame (hbits : bits ≤ 64) {b : ℕ × List UInt8} (hoff : b.1 < 2 ^ bits)
    (hlen : b.2.length = r.currentBlockSize bits b.1) : r.ReadsAs bits (blockFrame b) b where
  header := by simp [blockFrame]
  offset := by
    have h64 : b.1 < 256 ^ 8 :=
      lt_of_lt_of_le hoff ((Nat.pow_le_pow_right (by norm_num) hbits).trans (by norm_num))
    rw [blockFrame, take_toBytes, ofBytes_toBytes h64 hoff]
  data := by rw [blockFrame, drop_toBytes]
  length := hlen

/-- Inside the file a block has the length that remains, up to a full block. -/
theorem currentBlockSize_eq {off : ℕ} (hsize : r.fileSize < 2 ^ bits) (hoff : off ≤ r.fileSize) :
    r.currentBlockSize bits off = min r.blockSize (r.fileSize - off) := by
  have hsub : usizeSub bits r.fileSize off = r.fileSize - off := by
    unfold usizeSub
    rw [show r.fileSize + 2 ^ bits - off = (r.fileSize - off) + 2 ^ bits by omega,
      Nat.add_mod_right, Nat.mod_eq_of_lt (by omega)]
  unfold currentBlockSize
  rw [hsub]
  dsimp only
  split_ifs <;> omega

theorem readsAs_block (hbits : bits ≤ 64) {blockSize k : ℕ} {D : List UInt8}
    (hD : D.length < 2 ^ bits) (hk : k * blockSize < D.length) :
    (new blockSize D.length).ReadsAs bits (blockFrame (k * blockSize, block blockSize D k))
      (k * blockSize, block blockSize D k) := by
  refine readsAs_blockFrame hbits (hk.trans hD) ?_
  rw [length_block, currentBlockSize_eq (r := new _ _) hD hk.le]
  rfl

/-- What has been read of a frame does not contain a whole one. -/
theorem Partial.ne_append (h : Partial bits r buf got) {f : List UInt8} {b : ℕ × List UInt8}
    (hf : r.ReadsAs bits f b) (rest : List UInt8) : f ++ rest ≠ got := by
  rintro rfl
  have hlen := hf.length
  rw [hf.data, List.length_drop] at hlen
  have h8 := hf.header
  cases h with
  | header hlt hoff hzero hbuf =>
    rw [List.length_append] at hlt
    omega
  | payload hle hoff hval hlen' hlt hbuf =>
    rw [List.take_append_of_le_length h8, ← hf.offset] at hval
    rw [hval] at hlen'
    rw [List.length_append] at hlt
    omega

/-- The end of the stream, or an error of the socket. -/
theorem poll_error (h : Partial bits r buf got) {res : Except String (List UInt8)}
    (hres : bytesRead res = []) :
    ∃ buf' e, r.poll bits buf res = (r, buf', .done (.error e)) ∧ Partial bits r buf' got := by
  obtain ⟨buf', room, he, -, hp, -⟩ := enter_partial h
  simp only [poll, he]
  cases res with
  | error e => exact ⟨_, _, rfl, hp⟩
  | ok bytes =>
    obtain rfl : bytes = [] := hres
    exact ⟨_, _, rfl, hp⟩

theorem room_pos (h : Partial bits r buf got) :
    (r.enter bits buf).2.2 = .io (r.room bits buf) ∧ 0 < r.room bits buf := by
  obtain ⟨buf', n, he, hpos, -⟩ := enter_partial h
  simp only [room, he]
  exact ⟨trivial, hpos⟩

end ResumableReadFileBlock

/-! ## Writing -/

namespace ResumableWriteString

/-- The bytes of the frame that the socket has not accepted. -/
def remaining (w : ResumableWriteString) : List UInt8 := w.buf.drop w.offset

theorem remaining_new (s : String) : (new s).remaining = writeString s := rfl

theorem enter_eq (w : ResumableWriteString) :
    w.enter = (w, if w.remaining = [] then .done (.ok ()) else .io w.remaining) := by
  unfold enter remaining
  split_ifs with h1 h2 h2
  · rw [List.drop_eq_nil_iff] at h2; omega
  · rfl
  · rfl
  · rw [List.drop_eq_nil_iff] at h2; omega

/-- One poll whose write accepts `n` bytes. -/
theorem poll_ok (w : ResumableWriteString) (hne : w.remaining ≠ []) (n : ℕ) :
    ∃ w', w'.remaining = w.remaining.drop n ∧
      w.poll (.ok n) = (w', if w'.remaining = [] then .done (.ok ()) else .io w'.remaining) := by
  refine ⟨{ w with offset := w.offset + n }, by simp [remaining], ?_⟩
  simp only [poll, enter_eq w, if_neg hne, onWrite]
  exact enter_eq _

theorem slice_eq (w : ResumableWriteString) : w.slice = w.remaining := by
  rw [slice, enter_eq]
  split_ifs with h
  · exact h.symm
  · rfl

end ResumableWriteString

namespace ResumableWriteFileBlock

variable {ι : Type}

/-- The bytes of the frame that the socket has not accepted. -/
def remaining (w : ResumableWriteFileBlock ι) : List UInt8 :=
  if w.step = 0 then blockFrame (w.offset, w.buf.value)
  else if w.step = 1 then w.offsetBytes.take w.offsetlen ++ w.buf.value
  else w.buf.value.drop w.bufoffset

/-- The states between two calls: before the first byte, inside the header, inside
the data. -/
inductive Writing (w : ResumableWriteFileBlock ι) : Prop where
  | fresh (hs : w.step = 0) (hb : w.bufoffset = 0)
  | header (hs : w.step = 1) (hb : w.bufoffset = 0) (hlen : w.offsetBytes.length = 8)
      (hle : w.offsetlen ≤ 8) (hpos : 0 < w.offsetlen)
  | payload (hs : w.step = 2)

theorem writing_new (offset : ℕ) (l : Loan ι (List UInt8)) : (new offset l).Writing :=
  .fresh rfl rfl

theorem remaining_new (offset : ℕ) (l : Loan ι (List UInt8)) :
    (new offset l).remaining = blockFrame (offset, l.value) := rfl

/-- What a poll leads to when `rem` is still to be written. -/
def Outcome (w₀ : ResumableWriteFileBlock ι) (rem : List UInt8)
    (p : ResumableWriteFileBlock ι × Await (List UInt8) Unit) : Prop :=
  p.1.remaining = rem ∧ p.1.offset = w₀.offset ∧ p.1.buf = w₀.buf ∧ p.1.Writing ∧
    ((rem = [] ∧ p.2 = .done (.ok ())) ∨
      ∃ s t, rem = s ++ t ∧ s ≠ [] ∧ p.2 = .io s ∧ p.1.step ≠ 0 ∧
        (p.1.step = 1 → s.length = p.1.offsetlen))

theorem payload_outcome (w : ResumableWriteFileBlock ι) (hs : w.step = 2) :
    Outcome w (w.buf.value.drop w.bufoffset) w.payload := by
  have hrem : w.remaining = w.buf.value.drop w.bufoffset := by simp [remaining, hs]
  unfold payload
  split_ifs with h
  · refine ⟨hrem, rfl, rfl, .payload hs, .inr ⟨_, [], by simp, ?_, rfl, by dsimp only; omega,
      fun h1 => by dsimp only at h1; omega⟩⟩
    rw [Ne, List.drop_eq_nil_iff]
    omega
  · exact ⟨hrem, rfl, rfl, .payload hs, .inl ⟨List.drop_eq_nil_of_le (by omega), rfl⟩⟩

theorem header_outcome (w : ResumableWriteFileBlock ι) (hs : w.step = 1) (hb : w.bufoffset = 0)
    (hlen : w.offsetBytes.length = 8) (hle : w.offsetlen ≤ 8) :
    Outcome w (w.offsetBytes.take w.offsetlen ++ w.buf.value) w.header := by
  unfold header
  split_ifs with h
  · refine ⟨by simp [remaining, hs], rfl, rfl, .header hs hb hlen hle h,
      .inr ⟨_, _, rfl, ?_, rfl, by dsimp only; omega, fun _ => by simp; omega⟩⟩
    intro hnil
    have := congrArg List.length hnil
    simp only [List.length_take, List.length_nil] at this
    omega
  · have h0 : w.offsetBytes.take w.offsetlen ++ w.buf.value = w.buf.value.drop w.bufoffset := by
      rw [show w.offsetlen = 0 by omega, hb, List.take_zero, List.nil_append, List.drop_zero]
    rw [h0]
    exact payload_outcome { w with step := 2 } rfl

theorem enter_outcome {w : ResumableWriteFileBlock ι} (h : w.Writing) :
    Outcome w w.remaining w.enter := by
  cases h with
  | fresh hs hb =>
    have hrem : w.remaining = (toBytes 8 w.offset).take 8 ++ w.buf.value := by
      rw [remaining, if_pos hs, List.take_of_length_le (by simp)]
      rfl
    have := header_outcome
      { w with offsetBytes := toBytes 8 w.offset, offsetlen := 8, step := 1 } rfl hb (by simp)
      (by simp)
    simp only [enter, if_pos hs, if_true]
    rw [hrem]
    exact this
  | header hs hb hlen hle hpos =>
    have hrem : w.remaining = w.offsetBytes.take w.offsetlen ++ w.buf.value := by
      simp [remaining, hs]
    have h0 : ¬ w.step = 0 := by omega
    simp only [enter, if_neg h0, if_pos hs]
    rw [hrem]
    exact header_outcome w hs hb hlen hle
  | payload hs =>
    have hrem : w.remaining = w.buf.value.drop w.bufoffset := by simp [remaining, hs]
    have h0 : ¬ w.step = 0 := by omega
    have h1 : ¬ w.step = 1 := by omega
    simp only [enter, if_neg h0, if_neg h1]
    rw [hrem]
    exact payload_outcome w hs

theorem onWrite_ok {w : ResumableWriteFileBlock ι} (h : w.Writing) (h0 : w.step ≠ 0) {n : ℕ}
    (hn : w.step = 1 → n ≤ w.offsetlen) :
    Outcome w (w.remaining.drop n) (w.onWrite (.ok n)) := by
  cases h with
  | fresh hs hb => exact absurd hs h0
  | header hs hb hlen hle hpos =>
    have hn' := hn hs
    have hrem : w.remaining = w.offsetBytes.take w.offsetlen ++ w.buf.value := by
      simp [remaining, hs]
    simp only [onWrite, if_pos hs]
    have := header_outcome { w with
        offsetBytes := copyWithin w.offsetBytes n, offsetlen := w.offsetlen - n } hs hb
      (by simp [copyWithin]; omega) (by simp only; omega)
    have heq : (copyWithin w.offsetBytes n).take (w.offsetlen - n) =
        (w.offsetBytes.take w.offsetlen).drop n := by
      rw [copyWithin, List.take_append_of_le_length (by simp; omega), List.drop_take]
    simp only [heq] at this
    rw [hrem, List.drop_append_of_le_length (by simp; omega)]
    exact this
  | payload hs =>
    have hrem : w.remaining = w.buf.value.drop w.bufoffset := by simp [remaining, hs]
    have h1 : ¬ w.step = 1 := by omega
    simp only [onWrite, if_neg h1]
    have := payload_outcome { w with bufoffset := w.bufoffset + n } hs
    rw [hrem, List.drop_drop]
    exact this

/-- One poll whose write accepts `n` bytes of the slice. -/
theorem poll_ok {w : ResumableWriteFileBlock ι} (h : w.Writing) (hne : w.remaining ≠ []) {n : ℕ}
    (hn : n ≤ w.slice.length) : Outcome w (w.remaining.drop n) (w.poll (.ok n)) := by
  obtain ⟨hrem, hoff, hbuf, hw, ⟨hnil, -⟩ | ⟨s, t, hst, hs, hio, h0, h1⟩⟩ := enter_outcome h
  · exact absurd hnil hne
  · have hslice : w.slice = s := by rw [slice, hio]
    have henter : w.enter = (w.enter.1, .io s) := by rw [← hio]
    obtain ⟨g1, g2, g3, g4, g5⟩ := onWrite_ok hw h0 (n := n) (fun h => by
      rw [← h1 h, ← hslice]; exact hn)
    rw [hrem] at g1 g5
    have hpoll : w.poll (.ok n) = w.enter.1.onWrite (.ok n) := by
      unfold poll
      rw [henter]
    rw [hpoll]
    exact ⟨g1, g2.trans hoff, g3.trans hbuf, g4, g5⟩

theorem payload_buf (w : ResumableWriteFileBlock ι) : w.payload.1.buf = w.buf := by
  unfold payload
  split_ifs <;> rfl

theorem header_buf (w : ResumableWriteFileBlock ι) : w.header.1.buf = w.buf := by
  unfold header
  split_ifs
  · rfl
  · exact payload_buf _

theorem enter_buf (w : ResumableWriteFileBlock ι) : w.enter.1.buf = w.buf := by
  unfold enter
  dsimp only
  split_ifs
  · rw [header_buf]
  · rw [payload_buf]
  · rw [header_buf]
  · rw [payload_buf]

/-- The loan stays with the writer, whatever the write gives. -/
theorem poll_buf (w : ResumableWriteFileBlock ι) (r : Except String ℕ) :
    (w.poll r).1.buf = w.buf := by
  have henter := enter_buf w
  unfold poll
  split
  · next w' s he =>
    rw [he] at henter
    rw [← henter]
    cases r with
    | error e => rfl
    | ok n =>
      simp only [onWrite]
      split_ifs
      · rw [header_buf]
      · rw [payload_buf]
  · exact henter

theorem poll_error {w : ResumableWriteFileBlock ι} (h : w.Writing) (hne : w.remaining ≠ [])
    (e : String) : ∃ w', w.poll (.error e) = (w', .done (.error e)) := by
  obtain ⟨-, -, -, -, ⟨hnil, -⟩ | ⟨s, t, -, -, hio, -⟩⟩ := enter_outcome h
  · exact absurd hnil hne
  · have henter : w.enter = (w.enter.1, .io s) := by rw [← hio]
    exact ⟨w.enter.1, by unfold poll; rw [henter]; rfl⟩

/-- The slice is what comes first of the bytes to write, and there is one while any are left. -/
theorem slice_prefix {w : ResumableWriteFileBlock ι} (h : w.Writing) :
    w.slice <+: w.remaining ∧ (w.remaining ≠ [] → w.slice ≠ []) := by
  obtain ⟨-, -, -, -, ⟨hnil, hd⟩ | ⟨s, t, hst, hs, hio, -, -⟩⟩ := enter_outcome h
  · rw [slice, hd]
    exact ⟨ List.nil_prefix, fun hne => absurd hnil hne⟩
  · rw [slice, hio]
    exact ⟨⟨t, hst.symm⟩, fun _ => hs⟩

end ResumableWriteFileBlock

end Deltasync
