import Deltasync.Lib.Dialogue
import Deltasync.Framing
import Deltasync.HashFile

/-!
# The handshake of `client.rs` and `server.rs`

`new_process` and `process_new_client` up to the third status, each as a process
that writes and reads on its end of the connection.  An `await` on the socket is a
`write` or a `read` of the process; an error that `?` passes on makes it quit, and
the connection is closed with it.  A closed connection is the end of the stream to a
side that reads, and a broken pipe to one that writes.

When `process_new_client` returns a status, `main` writes it and closes the
connection, whatever becomes of the write.
-/

namespace Deltasync

open BigEndian Dialogue Transition

/-! ## Codes -/

/-- `u8::from`. -/
def StatusCode.toU8 : StatusCode → UInt8
  | .ack => 0
  | .invalidSecret => 1
  | .fileSizeDiffers => 2
  | .permissionDenied => 3
  | .clientAlreadyConnected => 4
  | .unknownHashAlgorithm => 5
  | .unsupportedProtocolVersion => 6
  | .invalidBlockSize => 7

/-- `StatusCode::try_from`. -/
def StatusCode.ofU8 (b : UInt8) : Option StatusCode :=
  [ack, invalidSecret, fileSizeDiffers, permissionDenied, clientAlreadyConnected,
    unknownHashAlgorithm, unsupportedProtocolVersion, invalidBlockSize].find? fun s => s.toU8 = b

theorem StatusCode.ofU8_toU8 (s : StatusCode) : ofU8 s.toU8 = some s := by
  cases s <;> rfl

def HashAlgorithm.toU8 : HashAlgorithm → UInt8
  | .crc32 => 1
  | .md5 => 2

/-- `HashAlgorithm::try_from`. -/
def HashAlgorithm.ofU8 (b : UInt8) : Option HashAlgorithm :=
  [crc32, md5].find? fun a => a.toU8 = b

theorem HashAlgorithm.ofU8_toU8 (a : HashAlgorithm) : ofU8 a.toU8 = some a := by
  cases a <;> rfl

namespace Handshake

def protocolVersion : UInt8 := 1

/-- What a side knows of the session after the handshake. -/
structure Agreement where
  destPath : String
  blockSize : ℕ
  filesize : ℕ
  forceTruncate : Bool
  hashAlgorithm : HashAlgorithm
  deriving DecidableEq, Repr

/-! ## The client -/

/-- The options that the handshake uses, with the outcome of the operations on the source.  A
path is any bytes, its length a `usize`.  The text of a `TryFromIntError` depends on the version of
the standard library. -/
structure ClientProcessOptions where
  secret : String
  dest : List UInt8
  openSrc : Except String Unit
  seekEnd : Except String UInt64
  rewind : Except String Unit
  forceTruncate : Bool
  blockSize : UInt64
  hashAlgorithm : HashAlgorithm
  tryFromIntError : String
  dest_length : dest.length < 2 ^ 64

def brokenPipe : String := "Broken pipe (os error 32)"

abbrev ClientProc := Proc UInt8 String Agreement

def writeAll (bytes : List UInt8) (next : ClientProc) : ClientProc :=
  .write bytes brokenPipe next

/-- `write_string`. -/
def writeString (s : String) (next : ClientProc) : ClientProc :=
  writeAll (toBytes 8 (asBytes s).length) (writeAll (asBytes s) next)

/-- `read_u8`, for either side. -/
def readU8 {ε : Type} (eof : ε) (next : UInt8 → Proc UInt8 ε Agreement) : Proc UInt8 ε Agreement :=
  .read 1 fun
    | some [b] => next b
    | _ => .quit eof

/-- The error that `check_status` makes of a status, if it is one. -/
def statusError : StatusCode → Option String
  | .ack => none
  | .invalidSecret => some "Invalid Secret"
  | .fileSizeDiffers => some "File size differs"
  | .permissionDenied => some "Permission denied"
  | .clientAlreadyConnected => some "A client is already connected"
  | .unknownHashAlgorithm => some "Hash algorithm is not supported on remote end"
  | .unsupportedProtocolVersion => some "Protocol version mismatch"
  | .invalidBlockSize => some "Invalid block size"

def checkStatus (next : ClientProc) : ClientProc :=
  readU8 unexpectedEof fun b =>
    match StatusCode.ofU8 b with
    | none => .quit "Unknown status code"
    | some status =>
      match statusError status with
      | some err => .quit err
      | none => next

/-- From "send block size, file size, force flag and hash algorithm" on. -/
def sendSizes (o : ClientProcessOptions) (dest : String) (srcSize : UInt64) : ClientProc :=
  writeAll (toBytes 8 o.blockSize.toNat) <|
  writeAll (toBytes 8 srcSize.toNat) <|
  writeAll [if o.forceTruncate then 1 else 0] <|
  writeAll [o.hashAlgorithm.toU8] <|
  checkStatus <|
  .pass
    { destPath := dest
      blockSize := o.blockSize.toNat
      filesize := srcSize.toNat
      forceTruncate := o.forceTruncate
      hashAlgorithm := o.hashAlgorithm }

/-- From "open source file" on. -/
def openSource (o : ClientProcessOptions) (dest : String) : ClientProc :=
  match o.openSrc, o.seekEnd, o.rewind with
  | .error err, _, _ => .quit err
  | .ok _, .error err, _ => .quit err
  | .ok _, .ok srcSize, rewound =>
    if srcSize = 0 then .quit "Source file is empty, nothing to sync"
    else
      match rewound with
      | .error err => .quit err
      | .ok _ => sendSizes o dest srcSize

/-- From "send dest path" on. -/
def sendDestPath (o : ClientProcessOptions) : ClientProc :=
  match fromUtf8 o.dest with
  | none => .quit "Invalid characters in destination path"
  | some dest => writeString dest (openSource o dest)

def newProcess (o : ClientProcessOptions) : ClientProc :=
  if (asBytes o.secret).length ≤ 255 then
    writeAll [UInt8.ofNat (asBytes o.secret).length] <|
    writeAll (asBytes o.secret) <|
    checkStatus <|
    writeAll [protocolVersion] <|
    checkStatus <|
    sendDestPath o
  else .quit o.tryFromIntError

/-! ## The server -/

inductive ErrorKind where
  | notFound
  | permissionDenied
  | other
  deriving DecidableEq, Repr

/-- What the file system of the server answers. -/
structure Filesystem where
  metadata : String → Except (ErrorKind × String) ℕ
  openForWriting : String → Except String Unit
  create : String → Except String Unit
  setLen : String → ℕ → Except String Unit

/-- The results of `process_new_client` other than a session. -/
inductive Ending where
  | refused (status : StatusCode)
  | failed (err : String)
  deriving DecidableEq, Repr

abbrev ServerProc := Proc UInt8 Ending Agreement

def stop : Ending → ServerProc
  | .refused status => .write [status.toU8] (.refused status) (.quit (.refused status))
  | .failed err => .quit (.failed err)

def writeStatus (status : StatusCode) (next : ServerProc) : ServerProc :=
  .write [status.toU8] (.failed brokenPipe) next

def readU64 (next : ℕ → ServerProc) : ServerProc :=
  .read 8 fun
    | some bytes => next (ofBytes 64 bytes)
    | none => .quit (.failed unexpectedEof)

def readString (maxLen : ℕ) (next : String → ServerProc) : ServerProc :=
  readU64 fun size =>
    if maxLen < usize 64 size then
      stop (.failed s!"String length {usize 64 size} exceeds maximum allowed {maxLen}")
    else
      .read (usize 64 size) fun
        | none => .quit (.failed earlyEof)
        | some bytes =>
          match fromUtf8 bytes with
          | some s => next s
          | none => stop (.failed (utf8Error bytes))

/-- An error of the file system, passed on by `?`. -/
def orFail (r : Except String Unit) : Except Ending Unit := r.mapError .failed

/-- The `match` on the metadata of the destination. -/
def prepareDest (fs : Filesystem) (destPath : String) (filesize : ℕ) (forceTruncate : Bool) :
    Except Ending Unit :=
  match fs.metadata destPath with
  | .ok len =>
    if len = filesize ∨ forceTruncate = true then do
      orFail (fs.openForWriting destPath)
      orFail (fs.setLen destPath filesize)
    else .error (.refused .fileSizeDiffers)
  | .error (.notFound, _) => do
    orFail (fs.create destPath)
    orFail (fs.setLen destPath filesize)
  | .error (.permissionDenied, _) => .error (.refused .permissionDenied)
  | .error (.other, err) => .error (.failed err)

/-- From "get block and file size" to the known hash algorithm. -/
def requestSizes (destPath : String) : ServerProc :=
  readU64 fun size =>
    let blockSize := usize 64 size
    if blockSize = 0 ∨ 1024 * 1024 * 1024 < blockSize then stop (.refused .invalidBlockSize)
    else
      readU64 fun filesize =>
        readU8 (.failed unexpectedEof) fun force =>
          readU8 (.failed unexpectedEof) fun algo =>
            match HashAlgorithm.ofU8 algo with
            | none => stop (.refused .unknownHashAlgorithm)
            | some hashAlgorithm =>
              .pass { destPath, blockSize, filesize, forceTruncate := force ≠ 0, hashAlgorithm }

/-- From "check client protocol version" on. -/
def requestVersion : ServerProc :=
  readU8 (.failed unexpectedEof) fun version =>
    if version ≠ protocolVersion then stop (.refused .unsupportedProtocolVersion)
    else writeStatus .ack <| readString 4096 requestSizes

/-- `process_new_client` up to the preparation of the destination, which passes with what the
peer asks for. -/
def request (secret : String) : ServerProc :=
  readU8 (.failed unexpectedEof) fun secretLen =>
    if secretLen ≠ UInt8.ofNat (asBytes secret).length then stop (.refused .invalidSecret)
    else
      .read secretLen.toNat fun
        | none => .quit (.failed earlyEof)
        | some clientSecret =>
          if clientSecret ≠ asBytes secret then stop (.refused .invalidSecret)
          else writeStatus .ack requestVersion

/-- The preparation of the destination, and the third status. -/
def reply (fs : Filesystem) (a : Agreement) : ServerProc :=
  match prepareDest fs a.destPath a.filesize a.forceTruncate with
  | .error ending => stop ending
  | .ok _ => writeStatus .ack (.pass a)

def processNewClient (secret : String) (fs : Filesystem) : ServerProc :=
  (request secret).bind (reply fs)

/-- The connection is open, with nothing on it. -/
def start (o : ClientProcessOptions) (secret : String) (fs : Filesystem) :
    State UInt8 String Ending Agreement Agreement :=
  ⟨newProcess o, processNewClient secret fs, [], []⟩

/-! ## One part after another -/

section Bind

variable {f : Agreement → ServerProc}

theorem bind_stop (e : Ending) : (stop e).bind f = stop e := by
  cases e <;> rfl

theorem bind_readU8 (eof : Ending) (next : UInt8 → ServerProc) :
    (readU8 eof next).bind f = readU8 eof fun b => (next b).bind f := by
  rw [readU8, readU8, Proc.bind]
  congr 1
  funext r
  split <;> rfl

theorem bind_readU64 (next : ℕ → ServerProc) :
    (readU64 next).bind f = readU64 fun n => (next n).bind f := by
  rw [readU64, readU64, Proc.bind]
  congr 1
  funext r
  cases r <;> rfl

theorem bind_readString (maxLen : ℕ) (next : String → ServerProc) :
    (readString maxLen next).bind f = readString maxLen fun s => (next s).bind f := by
  rw [readString, readString, bind_readU64]
  congr 1
  funext size
  rw [apply_ite fun p => Proc.bind p f, bind_stop, Proc.bind]
  congr 2
  funext r
  cases r with
  | none => rfl
  | some bytes =>
    dsimp only
    cases fromUtf8 bytes with
    | some s => rfl
    | none => exact bind_stop _

theorem bind_writeStatus (status : StatusCode) (q : ServerProc) :
    (writeStatus status q).bind f = writeStatus status (q.bind f) := rfl

end Bind

/-! ## How the handshake ends -/

/-- Both sides have passed the third status, with the parameters of the client and nothing
left unread. -/
def Agrees (o : ClientProcessOptions) (s : State UInt8 String Ending Agreement Agreement) : Prop :=
  ∃ dest srcSize a, fromUtf8 o.dest = some dest ∧ o.seekEnd = .ok srcSize ∧
    a = ⟨dest, o.blockSize.toNat, srcSize.toNat, o.forceTruncate, o.hashAlgorithm⟩ ∧
    s = ⟨.pass a, .pass a, [], []⟩

/-- Neither side has passed it, and the client returns an error. -/
def Refuses (s : State UInt8 String Ending Agreement Agreement) : Prop :=
  (∃ err, s.left = .quit err) ∧ ∃ ending, s.right = .quit ending

/-- Some run without failing writes ends as it should. -/
def Settles (o : ClientProcessOptions) (capLeft capRight : ℕ)
    (s : State UInt8 String Ending Agreement Agreement) : Prop :=
  ∃ t, Reaches capLeft capRight s t ∧ (Agrees o t ∨ Refuses t)

variable {o : ClientProcessOptions} {capLeft capRight : ℕ}
  {s t : State UInt8 String Ending Agreement Agreement} {p : ClientProc} {q : ServerProc}

theorem Settles.of_reaches (hr : Reaches capLeft capRight s t) (h : Settles o capLeft capRight t) :
    Settles o capLeft capRight s := by
  obtain ⟨u, hu, hfin⟩ := h
  exact ⟨u, hr.trans hu, hfin⟩

/-- The server has quit. -/
theorem settles_left_alone {l : List UInt8} (h : ∃ err, p.alone l = .error err) (ending : Ending)
    (r : List UInt8) : Settles o capLeft capRight ⟨p, .quit ending, l, r⟩ := by
  obtain ⟨err, herr⟩ := h
  obtain ⟨l', r', hr⟩ := left_alone ending herr r
  exact ⟨_, hr, .inr ⟨⟨err, rfl⟩, ending, rfl⟩⟩

/-- The client has quit. -/
theorem settles_right_alone {r : List UInt8} (h : ∃ ending, q.alone r = .error ending)
    (err : String) (l : List UInt8) : Settles o capLeft capRight ⟨.quit err, q, l, r⟩ := by
  obtain ⟨ending, hend⟩ := h
  obtain ⟨l', r', hr⟩ := right_alone err hend l
  exact ⟨_, hr, .inr ⟨⟨err, rfl⟩, ending, rfl⟩⟩

/-- The client ends with an error when the server has stopped, leaving nothing or a status
that is not `Ack`. -/
def Doomed (p : ClientProc) : Prop :=
  ∀ l, (l = [] ∨ ∃ status, status ≠ .ack ∧ l = [StatusCode.toU8 status]) →
    ∃ err, p.alone l = .error err

theorem doomed_quit (err : String) : Doomed (.quit err) := fun _ _ => ⟨err, rfl⟩

theorem Doomed.writeAll (h : Doomed p) (bytes : List UInt8) : Doomed (writeAll bytes p) := h

theorem doomed_checkStatus (next : ClientProc) : Doomed (checkStatus next) := by
  rintro l (rfl | ⟨status, hne, rfl⟩)
  · exact ⟨unexpectedEof, rfl⟩
  · cases status with
    | ack => exact absurd rfl hne
    | _ => exact ⟨_, rfl⟩

/-- After the path the client sends the sizes, or gives up on the source. -/
theorem openSource_cases (o : ClientProcessOptions) (dest : String) :
    (∃ err, openSource o dest = .quit err) ∨
      ∃ srcSize, o.seekEnd = .ok srcSize ∧ openSource o dest = sendSizes o dest srcSize := by
  unfold openSource
  split
  · exact .inl ⟨_, rfl⟩
  · exact .inl ⟨_, rfl⟩
  · next hseek =>
    split_ifs
    · exact .inl ⟨_, rfl⟩
    · split
      · exact .inl ⟨_, rfl⟩
      · exact .inr ⟨_, hseek, rfl⟩

theorem doomed_openSource (o : ClientProcessOptions) (dest : String) :
    Doomed (openSource o dest) := by
  rcases openSource_cases o dest with ⟨err, heq⟩ | ⟨srcSize, -, heq⟩
  · rw [heq]
    exact doomed_quit err
  · rw [heq]
    exact ((((doomed_checkStatus _).writeAll _).writeAll _).writeAll _).writeAll _

/-- The server stops for a reason that is not a success. -/
theorem settles_stop (hcap : 0 < capLeft) {ending : Ending} (hne : ending ≠ .refused .ack)
    (h : Doomed p) (r : List UInt8) : Settles o capLeft capRight ⟨p, stop ending, [], r⟩ := by
  cases ending with
  | failed err => exact settles_left_alone (h [] (.inl rfl)) _ _
  | refused status =>
    have hstatus : status ≠ .ack := fun heq => hne (by rw [heq])
    exact .of_reaches (write_ahead hcap p status.toU8 _ _ r)
      (settles_left_alone (h _ (.inr ⟨status, hstatus, rfl⟩)) _ _)

/-- The server acknowledges, and both go on. -/
theorem settles_ack (hcap : 0 < capLeft) (h : Settles o capLeft capRight ⟨p, q, [], []⟩) :
    Settles o capLeft capRight ⟨checkStatus p, writeStatus .ack q, [], []⟩ :=
  .of_reaches (exchange_left hcap [StatusCode.toU8 .ack] _ _ q []) h

theorem prepareDest_ne_ack (fs : Filesystem) (destPath : String) (filesize : ℕ)
    (forceTruncate : Bool) {ending : Ending}
    (h : prepareDest fs destPath filesize forceTruncate = .error ending) :
    ending ≠ .refused .ack := by
  have hfail : ∀ r : Except String Unit, orFail r ≠ .error (.refused .ack) := by
    intro r
    cases r <;> simp [orFail, Except.mapError]
  have hseq : ∀ r r' : Except String Unit,
      (do orFail r; orFail r') ≠ (.error (.refused .ack) : Except Ending Unit) := by
    intro r r'
    cases r with
    | error err => exact hfail (.error err)
    | ok _ => exact hfail r'
  rintro rfl
  unfold prepareDest at h
  split at h
  · split_ifs at h
    · exact hseq _ _ h
    · cases h
  · exact hseq _ _ h
  · cases h
  · cases h

theorem settles_exchange (hcap : 0 < capRight) (bytes : List UInt8)
    {next : Option (List UInt8) → ServerProc}
    (h : Settles o capLeft capRight ⟨p, next (some bytes), [], []⟩) :
    Settles o capLeft capRight ⟨writeAll bytes p, .read bytes.length next, [], []⟩ :=
  .of_reaches (exchange hcap bytes _ p next []) h

theorem settles_readU8 (hcap : 0 < capRight) (b : UInt8) (eof : Ending) {next : UInt8 → ServerProc}
    (h : Settles o capLeft capRight ⟨p, next b, [], []⟩) :
    Settles o capLeft capRight ⟨writeAll [b] p, readU8 eof next, [], []⟩ :=
  settles_exchange hcap [b] h

/-- A number sent as eight bytes. -/
theorem settles_readU64 (hcap : 0 < capRight) {n : ℕ} (hn : n < 2 ^ 64) {next : ℕ → ServerProc}
    (h : Settles o capLeft capRight ⟨p, next n, [], []⟩) :
    Settles o capLeft capRight ⟨writeAll (toBytes 8 n) p, readU64 next, [], []⟩ := by
  refine settles_exchange hcap (toBytes 8 n) ?_
  change Settles o capLeft capRight ⟨p, next (ofBytes 64 (toBytes 8 n)), [], []⟩
  rw [ofBytes_toBytes_eight hn]
  exact h

theorem settles_sizes (hl : 0 < capLeft) (hr : 0 < capRight) (fs : Filesystem) {dest : String}
    {srcSize : UInt64} (hpath : fromUtf8 o.dest = some dest) (hsize : o.seekEnd = .ok srcSize) :
    Settles o capLeft capRight
      ⟨sendSizes o dest srcSize, (requestSizes dest).bind (reply fs), [], []⟩ := by
  rw [requestSizes, bind_readU64]
  refine settles_readU64 hr o.blockSize.toNat_lt ?_
  rw [usize_of_lt o.blockSize.toNat_lt]
  dsimp only
  by_cases hbad : o.blockSize.toNat = 0 ∨ 1024 * 1024 * 1024 < o.blockSize.toNat
  · rw [if_pos hbad, bind_stop]
    refine settles_stop hl (by simp) ?_ []
    exact (((doomed_checkStatus _).writeAll _).writeAll _).writeAll _
  · rw [if_neg hbad, bind_readU64]
    refine settles_readU64 hr srcSize.toNat_lt ?_
    rw [bind_readU8]
    refine settles_readU8 hr _ _ ?_
    rw [bind_readU8]
    refine settles_readU8 hr _ _ ?_
    have hforce : decide ((if o.forceTruncate = true then 1 else 0 : UInt8) ≠ 0) =
        o.forceTruncate := by
      cases o.forceTruncate <;> rfl
    simp only [HashAlgorithm.ofU8_toU8, hforce, Proc.bind, reply]
    cases hdest : prepareDest fs dest srcSize.toNat o.forceTruncate with
    | error ending =>
      exact settles_stop hl (prepareDest_ne_ack fs dest _ _ hdest) (doomed_checkStatus _) []
    | ok _ => exact settles_ack hl ⟨_, .refl _, .inl ⟨dest, srcSize, _, hpath, hsize, rfl, rfl⟩⟩

/-- A path that fits is read as it was written; a longer one makes the server fail. -/
theorem settles_destPath (hl : 0 < capLeft) (hr : 0 < capRight) (fs : Filesystem) :
    Settles o capLeft capRight
      ⟨sendDestPath o, (readString 4096 requestSizes).bind (reply fs), [], []⟩ := by
  rw [bind_readString]
  unfold sendDestPath
  cases hdest : fromUtf8 o.dest with
  | none => exact settles_right_alone ⟨_, rfl⟩ _ _
  | some dest =>
    have hlen : (asBytes dest).length < 2 ^ 64 := by
      rw [← fromUtf8_eq_some.mp hdest]
      exact o.dest_length
    refine settles_readU64 hr hlen ?_
    rw [usize_of_lt hlen]
    by_cases hlong : 4096 < (asBytes dest).length
    · rw [if_pos hlong]
      exact settles_stop hl (by simp) ((doomed_openSource o dest).writeAll _) []
    · rw [if_neg hlong]
      refine settles_exchange hr (asBytes dest) ?_
      simp only [fromUtf8_eq_some.mpr (rfl : asBytes dest = asBytes dest)]
      rcases openSource_cases o dest with ⟨err, heq⟩ | ⟨srcSize, hsize, heq⟩
      · rw [heq]
        exact settles_right_alone ⟨_, rfl⟩ err []
      · rw [heq]
        exact settles_sizes hl hr fs hdest hsize

theorem settles_start (hl : 0 < capLeft) (hr : 0 < capRight) (secret : String) (fs : Filesystem) :
    Settles o capLeft capRight (start o secret fs) := by
  unfold start newProcess processNewClient
  rw [request, bind_readU8]
  by_cases hlen : (asBytes o.secret).length ≤ 255
  · rw [if_pos hlen]
    have hnat : (UInt8.ofNat (asBytes o.secret).length).toNat = (asBytes o.secret).length := by
      simp
      omega
    refine settles_readU8 hr _ _ ?_
    split_ifs with hne
    · rw [bind_stop]
      exact settles_stop hl (by simp) ((doomed_checkStatus _).writeAll _) []
    · rw [hnat, Proc.bind]
      refine settles_exchange hr (asBytes o.secret) ?_
      dsimp only
      split_ifs with hsecret
      · rw [bind_stop]
        exact settles_stop hl (by simp) (doomed_checkStatus _) []
      · rw [bind_writeStatus, requestVersion, bind_readU8]
        refine settles_ack hl (settles_readU8 hr _ _ ?_)
        rw [if_neg (by simp), bind_writeStatus]
        exact settles_ack hl (settles_destPath hl hr fs)
  · rw [if_neg hlen]
    exact settles_right_alone ⟨_, rfl⟩ _ _

theorem ended_of_settled (ht : Agrees o t ∨ Refuses t) : Ended (step capLeft capRight) t := by
  rcases ht with ⟨dest, srcSize, a, -, -, -, rfl⟩ | ⟨⟨err, hleft⟩, ending, hright⟩
  · intro e
    cases e <;> rfl
  · exact BothQuit.ended ⟨by rw [hleft]; rfl, by rw [hright]; rfl⟩

theorem not_deadlocked_of_settled (ht : Agrees o t ∨ Refuses t) : ¬ Deadlocked t := by
  rintro ⟨hreads, -⟩
  rcases ht with ⟨dest, srcSize, a, -, -, -, rfl⟩ | ⟨⟨err, hleft⟩, -⟩
  · cases hreads
  · rw [hleft] at hreads
    cases hreads

theorem refuses_of_bothQuit (h : BothQuit s) : Refuses s := by
  obtain ⟨hl, hr⟩ := h
  obtain ⟨p, q, l, r⟩ := s
  cases p with
  | quit err =>
    cases q with
    | quit ending => exact ⟨⟨err, rfl⟩, ending, rfl⟩
    | _ => simp [Proc.closed] at hr
  | _ => simp [Proc.closed] at hl

/-- The two handshakes fit together.  Whatever the options, the secret of the server and what
its file system answers, and in whatever order the bytes move: the run is finite, the two
sides never wait for each other, and when neither can go on they have either both passed the
third status with the same parameters and nothing unread, or both given up, the client with
an error. -/
theorem handshake_agreement (o : ClientProcessOptions) (secret : String) (fs : Filesystem)
    (hl : 0 < capLeft) (hr : 0 < capRight) :
    ∃ bound, ∀ es s, run (step capLeft capRight) (start o secret fs) es = some s →
      es.length ≤ bound ∧ ¬ Deadlocked s ∧
        (Ended (step capLeft capRight) s → Xor (Agrees o s) (Refuses s)) := by
  obtain ⟨t, ⟨can, hcan⟩, ht⟩ := settles_start (o := o) hl hr secret fs
  have hend : Ended (step capLeft capRight) t := ended_of_settled ht
  have hsteady : Ended (steadyStep capLeft capRight) t := fun e => by
    rw [steadyStep, restrict, hend e, ite_self]
  refine ⟨can.length, fun es s h => ⟨(run_outcome hsteady hcan h).1, fun hdead => ?_, fun hs => ?_⟩⟩
  · rcases eq_of_ended hsteady hcan h hdead.ended with rfl | hquit
    · exact not_deadlocked_of_settled ht hdead
    · exact hdead.not_bothQuit hquit
  · have hfin : Agrees o s ∨ Refuses s := by
      rcases eq_of_ended hsteady hcan h hs with rfl | hquit
      · exact ht
      · exact .inr (refuses_of_bothQuit hquit)
    rcases hfin with ⟨dest, srcSize, a, hpath, hsize, ha, rfl⟩ | hrefuses
    · exact .inl ⟨⟨dest, srcSize, a, hpath, hsize, ha, rfl⟩, by simp [Refuses]⟩
    · refine .inr ⟨hrefuses, ?_⟩
      rintro ⟨dest, srcSize, a, -, -, -, rfl⟩
      simp [Refuses] at hrefuses

/-- A source of three bytes for the path `d`, in blocks of two. -/
def smallOptions : ClientProcessOptions where
  secret := "s"
  dest := [100]
  openSrc := .ok ()
  seekEnd := .ok 3
  rewind := .ok ()
  forceTruncate := false
  blockSize := 2
  hashAlgorithm := .crc32
  tryFromIntError := "out of range integral type conversion attempted"
  dest_length := by decide

/-- Every file has three bytes. -/
def threeBytes : Filesystem where
  metadata _ := .ok 3
  openForWriting _ := .ok ()
  create _ := .ok ()
  setLen _ _ := .ok ()

def smallRun : List Event :=
  List.replicate 4 .left ++ List.replicate 6 .right ++ List.replicate 4 .left ++
    List.replicate 4 .right ++ List.replicate 35 .left ++ List.replicate 35 .right ++
    List.replicate 2 .left

/-- Both sides have passed. -/
def bothPass (s : State UInt8 String Ending Agreement Agreement) : Bool :=
  match s.left, s.right with
  | .pass _, .pass _ => true
  | _, _ => false

theorem handshake_agreement_small :
    ∃ s, run (step 100 100) (start smallOptions "s" threeBytes) smallRun = some s ∧
      Agrees smallOptions s := by
  have hrun : (run (step 100 100) (start smallOptions "s" threeBytes) smallRun).map bothPass =
      some true := by decide +kernel
  obtain ⟨s, hs, hpass⟩ := Option.map_eq_some_iff.mp hrun
  obtain ⟨bound, hall⟩ := handshake_agreement smallOptions "s" threeBytes (show 0 < 100 by decide)
    (show 0 < 100 by decide)
  obtain ⟨⟨p⟩ | _ | _ | _, ⟨q⟩ | _ | _ | _, l, r⟩ := s <;>
    simp only [bothPass, reduceCtorEq] at hpass
  have hend : Ended (step 100 100) (⟨.pass p, .pass q, l, r⟩ :
      State UInt8 String Ending Agreement Agreement) := by
    intro e
    cases e <;> rfl
  rcases (hall _ _ hs).2.2 hend with ⟨hagrees, -⟩ | ⟨hrefuses, -⟩
  · exact ⟨_, hs, hagrees⟩
  · simp [Refuses] at hrefuses

end Handshake

end Deltasync
