import Deltasync.Handshake
import Deltasync.Server

/-!
# `process_new_client` and the files of the server

The function as a whole, from the first byte of the peer on: the handshake, the
preparation of the destination by operations on the file system, and the event loop,
whose writes go to the destination.  The peer is any sequence of bytes, of which a
read takes one after the other; the connection may be lost at any time.

A file system is a function from paths to contents.  An operation on it is a step
that carries its outcome: what it answers when it succeeds is what the files are,
and an error of it leaves them as they are.  Other programs do not change them
meanwhile.

The workers of `hash_file` only read.  They may run before the loop has opened the
destination; in the model they start with the loop.
-/

namespace Deltasync

open BigEndian Blocks Dialogue Transition

namespace Handshake

/-! ## What a request consists of -/

section Accepts

variable {x : List UInt8} {a : Agreement}

theorem not_accepts_stop (e : Ending) : ¬ (stop e).Accepts x a := by
  intro h
  cases e with
  | refused status => exact Proc.not_accepts_quit _ (Proc.accepts_write_iff.mp h)
  | failed err => exact Proc.not_accepts_quit _ h

theorem accepts_readU8 {eof : Ending} {next : UInt8 → ServerProc}
    (h : (readU8 eof next).Accepts x a) : ∃ b y, x = b :: y ∧ (next b).Accepts y a := by
  obtain ⟨bytes, y, hlen, rfl, hnext⟩ := Proc.accepts_read h rfl
  obtain ⟨b, rfl⟩ := List.length_eq_one_iff.mp hlen
  exact ⟨b, y, rfl, hnext⟩

theorem accepts_readU64 {next : ℕ → ServerProc} (h : (readU64 next).Accepts x a) :
    ∃ n y, n < 2 ^ 64 ∧ x = toBytes 8 n ++ y ∧ (next n).Accepts y a := by
  obtain ⟨bytes, y, hlen, rfl, hnext⟩ := Proc.accepts_read h rfl
  have hw : 8 * bytes.length ≤ 64 := by omega
  have hlt := ofBytes_lt bytes hw
  have hback := toBytes_ofBytes bytes hw
  rw [hlen] at hlt hback
  exact ⟨ofBytes 64 bytes, y, lt_of_lt_of_le hlt (by norm_num), by rw [hback], hnext⟩

theorem accepts_readString {maxLen : ℕ} {next : String → ServerProc}
    (h : (readString maxLen next).Accepts x a) :
    ∃ s y, (asBytes s).length ≤ maxLen ∧ x = Deltasync.writeString s ++ y ∧
      (next s).Accepts y a := by
  obtain ⟨size, y, hsize, rfl, hpath⟩ := accepts_readU64 h
  rw [usize_of_lt hsize] at hpath
  split_ifs at hpath with hmax
  · exact absurd hpath (not_accepts_stop _)
  obtain ⟨bytes, z, rfl, rfl, hutf⟩ := Proc.accepts_read hpath rfl
  cases hs : fromUtf8 bytes with
  | none =>
    simp only [hs] at hutf
    exact absurd hutf (not_accepts_stop _)
  | some s =>
    simp only [hs] at hutf
    rw [fromUtf8_eq_some] at hs
    refine ⟨s, z, by rw [← hs]; omega, ?_, hutf⟩
    rw [Deltasync.writeString, hs, List.append_assoc]

/-- The bytes of a well-formed request. -/
def requestBytes (secret destPath : String) (blockSize filesize : ℕ) (force : UInt8)
    (hashAlgorithm : HashAlgorithm) : List UInt8 :=
  [UInt8.ofNat (asBytes secret).length] ++ asBytes secret ++ [protocolVersion] ++
    toBytes 8 (asBytes destPath).length ++ asBytes destPath ++ toBytes 8 blockSize ++
    toBytes 8 filesize ++ [force, hashAlgorithm.toU8]

theorem accepts_requestSizes {destPath : String} (h : (requestSizes destPath).Accepts x a) :
    ∃ force, x = toBytes 8 a.blockSize ++ toBytes 8 a.filesize ++ [force, a.hashAlgorithm.toU8] ∧
      a.destPath = destPath ∧ (1 ≤ a.blockSize ∧ a.blockSize ≤ 2 ^ 30) ∧ a.filesize < 2 ^ 64 ∧
      a.forceTruncate = decide (force ≠ 0) := by
  obtain ⟨size, y, hsize, rfl, hsizes⟩ := accepts_readU64 h
  rw [usize_of_lt hsize] at hsizes
  dsimp only at hsizes
  split_ifs at hsizes with hbad
  · exact absurd hsizes (not_accepts_stop _)
  obtain ⟨filesize, y, hfile, rfl, hrest⟩ := accepts_readU64 hsizes
  obtain ⟨force, y, rfl, hflag⟩ := accepts_readU8 hrest
  obtain ⟨algo, y, rfl, hend⟩ := accepts_readU8 hflag
  cases halgo : HashAlgorithm.ofU8 algo with
  | none =>
    simp only [halgo] at hend
    exact absurd hend (not_accepts_stop _)
  | some hashAlgorithm =>
    simp only [halgo] at hend
    have hcode : hashAlgorithm.toU8 = algo := by simpa using List.find?_some halgo
    cases hend with
    | pass =>
      refine ⟨force, ?_, rfl, ⟨by dsimp only; omega, by dsimp only; omega⟩, hfile, rfl⟩
      rw [hcode, List.append_assoc]

/-- Only a well-formed request with the secret of the server is answered. -/
theorem accepts_request {secret : String} (h : (request secret).Accepts x a) :
    ∃ force, x = requestBytes secret a.destPath a.blockSize a.filesize force a.hashAlgorithm ∧
      (asBytes a.destPath).length ≤ 4096 ∧ (1 ≤ a.blockSize ∧ a.blockSize ≤ 2 ^ 30) ∧
      a.filesize < 2 ^ 64 ∧ a.forceTruncate = decide (force ≠ 0) := by
  obtain ⟨secretLen, y, rfl, hlen⟩ := accepts_readU8 h
  split_ifs at hlen with hne
  · exact absurd hlen (not_accepts_stop _)
  obtain ⟨clientSecret, y, -, rfl, hsecret⟩ := Proc.accepts_read hlen rfl
  dsimp only at hsecret
  split_ifs at hsecret with hne'
  · exact absurd hsecret (not_accepts_stop _)
  obtain ⟨version, y, rfl, hversion⟩ := accepts_readU8 (Proc.accepts_write_iff.mp hsecret)
  split_ifs at hversion with hne''
  · exact absurd hversion (not_accepts_stop _)
  obtain ⟨destPath, y, hpath, rfl, hsizes⟩ :=
    accepts_readString (Proc.accepts_write_iff.mp hversion)
  obtain ⟨force, rfl, rfl, hblock, hfile, hforce⟩ := accepts_requestSizes hsizes
  refine ⟨force, ?_, hpath, hblock, hfile, hforce⟩
  rw [not_not.mp hne, not_not.mp hne', not_not.mp hne'']
  simp [requestBytes, Deltasync.writeString]

end Accepts

end Handshake

/-! ## The function and the files -/

open Handshake

/-- The files of the server, by their path. -/
abbrev Files := String → Option (List UInt8)

/-- What `std::fs::metadata` can answer about a path: the size of a file that is there, or
`NotFound` for one that is not, or another error. -/
def Files.answers (files : Files) (path : String) : Except (ErrorKind × String) ℕ → Bool
  | .ok len => (files path).map List.length = some len
  | .error (.notFound, _) => (files path).isNone
  | .error _ => true

/-- The arguments of the loop, once `hash_file` has measured the destination. -/
def Handshake.Agreement.options (d : Digests) (a : Agreement) (size : ℕ) : ProcessNewClient where
  bits := 64
  blockSize := a.blockSize
  filesize := a.filesize
  fileSize := size
  hash := fun data => hashData d data a.hashAlgorithm

/-- Where `process_new_client` is. -/
inductive ProcessPhase (W : ℕ) where
  | handshake (p : ServerProc)
  /-- In `std::fs::metadata`. -/
  | metadata (a : Agreement)
  /-- In `File::options().write(true).open`. -/
  | opening (a : Agreement)
  /-- In `File::create`. -/
  | creating (a : Agreement)
  /-- In `dest.set_len`. -/
  | sizing (a : Agreement)
  /-- Writing the third `Ack`. -/
  | acking (a : Agreement)
  /-- In `hash_file`, which opens the file and measures it. -/
  | hashing (a : Agreement)
  /-- In `tokio::fs::OpenOptions::open`. -/
  | openingDest (a : Agreement) (size : ℕ)
  | session (a : Agreement) (size : ℕ) (v : Server W)
  /-- The peer is refused, or the handshake or the preparation has failed. -/
  | stopped (e : Ending)
  /-- Failed between the preparation and the loop. -/
  | failed (err : String)

structure Process (W : ℕ) where
  files : Files
  phase : ProcessPhase W
  /-- What the peer has sent and the function has not read. -/
  inbox : List UInt8

inductive ProcessEvent (W : ℕ) where
  /-- One step of the handshake, in which the connection may be lost. -/
  | io (lost : Bool)
  | metadata (r : Except (ErrorKind × String) ℕ)
  | openForWriting (r : Except String Unit)
  | create (r : Except String Unit)
  | setLen (r : Except String Unit)
  | ack (r : Except String Unit)
  | hashFile (r : Except String Unit)
  | openDest (r : Except String Unit)
  | session (e : ServerEvent W)

namespace ProcessPhase

variable {W : ℕ}

def ofProc : ServerProc → ProcessPhase W
  | .pass a => .metadata a
  | .quit e => .stopped e
  | p => .handshake p

/-- The `match` on the metadata of the destination. -/
def afterMetadata (a : Agreement) : Except (ErrorKind × String) ℕ → ProcessPhase W
  | .ok len =>
    if len = a.filesize ∨ a.forceTruncate = true then .opening a
    else .stopped (.refused .fileSizeDiffers)
  | .error (.notFound, _) => .creating a
  | .error (.permissionDenied, _) => .stopped (.refused .permissionDenied)
  | .error (.other, err) => .stopped (.failed err)

/-- What `process_new_client` has returned. -/
def result : ProcessPhase W → Option (Except String StatusCode)
  | .stopped (.refused status) => some (.ok status)
  | .stopped (.failed err) => some (.error err)
  | .failed err => some (.error err)
  | .session _ _ v =>
    match v.phase with
    | .returned r => some r
    | _ => none
  | _ => none

end ProcessPhase

namespace Process

variable {W : ℕ}

def start (secret : String) (files : Files) (inp : List UInt8) : Process W where
  files := files
  phase := .ofProc (request secret)
  inbox := inp

/-- What is left to read after an event of the loop; the stream may end at any time. -/
def unread (inbox : List UInt8) : ServerEvent W → Option (List UInt8)
  | .read (.ok bytes) => if bytes.isPrefixOf inbox then some (inbox.drop bytes.length) else none
  | _ => some inbox

def setFile (s : Process W) (path : String) (content : List UInt8) (phase : ProcessPhase W) :
    Process W :=
  { s with files := Function.update s.files path (some content), phase }

def step (d : Digests) (s : Process W) (e : ProcessEvent W) : Option (Process W) :=
  match s.phase, e with
  | .handshake p, .io lost =>
    (p.serve s.inbox lost).map fun (p', inbox) => { s with phase := .ofProc p', inbox }
  | .metadata a, .metadata r =>
    if s.files.answers a.destPath r then some { s with phase := .afterMetadata a r } else none
  | .opening a, .openForWriting (.ok _) =>
    (s.files a.destPath).map fun _ => { s with phase := .sizing a }
  | .opening _, .openForWriting (.error err) => some { s with phase := .stopped (.failed err) }
  -- a file that is there would be truncated
  | .creating a, .create (.ok _) => some (s.setFile a.destPath [] (.sizing a))
  | .creating _, .create (.error err) => some { s with phase := .stopped (.failed err) }
  | .sizing a, .setLen (.ok _) =>
    (s.files a.destPath).map fun content =>
      s.setFile a.destPath (resize 0 content a.filesize) (.acking a)
  | .sizing _, .setLen (.error err) => some { s with phase := .stopped (.failed err) }
  | .acking a, .ack (.ok _) => some { s with phase := .hashing a }
  | .acking _, .ack (.error err) => some { s with phase := .failed err }
  | .hashing a, .hashFile (.ok _) =>
    (s.files a.destPath).map fun content => { s with phase := .openingDest a content.length }
  | .hashing _, .hashFile (.error err) => some { s with phase := .failed err }
  | .openingDest a size, .openDest (.ok _) =>
    (s.files a.destPath).map fun content =>
      { s with phase := .session a size (.new (a.options d size) W content) }
  | .openingDest _ _, .openDest (.error err) => some { s with phase := .failed err }
  | .session a size v, .session e =>
    match unread s.inbox e, v.step (a.options d size) e with
    | some inbox, some v' =>
      -- the loop writes to the destination
      some { s.setFile a.destPath v'.file.content (.session a size v') with inbox }
    | _, _ => none
  | _, _ => none

variable {d : Digests} {s s' : Process W}

/-- Everything a step can do. -/
inductive Move (d : Digests) (s : Process W) : ProcessEvent W → Process W → Prop where
  | handshake {p lost p' inbox} (hph : s.phase = .handshake p)
      (h : p.serve s.inbox lost = some (p', inbox)) :
      Move d s (.io lost) { s with phase := .ofProc p', inbox }
  | metadata {a r} (hph : s.phase = .metadata a) (h : s.files.answers a.destPath r = true) :
      Move d s (.metadata r) { s with phase := .afterMetadata a r }
  | openOk {a u content} (hph : s.phase = .opening a) (h : s.files a.destPath = some content) :
      Move d s (.openForWriting (.ok u)) { s with phase := .sizing a }
  | createOk {a u} (hph : s.phase = .creating a) :
      Move d s (.create (.ok u)) (s.setFile a.destPath [] (.sizing a))
  | setLenOk {a u content} (hph : s.phase = .sizing a) (h : s.files a.destPath = some content) :
      Move d s (.setLen (.ok u)) (s.setFile a.destPath (resize 0 content a.filesize) (.acking a))
  | openError {a err} (hph : s.phase = .opening a) :
      Move d s (.openForWriting (.error err)) { s with phase := .stopped (.failed err) }
  | createError {a err} (hph : s.phase = .creating a) :
      Move d s (.create (.error err)) { s with phase := .stopped (.failed err) }
  | setLenError {a err} (hph : s.phase = .sizing a) :
      Move d s (.setLen (.error err)) { s with phase := .stopped (.failed err) }
  | ackOk {a u} (hph : s.phase = .acking a) : Move d s (.ack (.ok u)) { s with phase := .hashing a }
  | hashFileOk {a u content} (hph : s.phase = .hashing a)
      (h : s.files a.destPath = some content) :
      Move d s (.hashFile (.ok u)) { s with phase := .openingDest a content.length }
  | openDestOk {a u size content} (hph : s.phase = .openingDest a size)
      (h : s.files a.destPath = some content) :
      Move d s (.openDest (.ok u))
        { s with phase := .session a size (.new (a.options d size) W content) }
  | ackError {a err} (hph : s.phase = .acking a) :
      Move d s (.ack (.error err)) { s with phase := .failed err }
  | hashFileError {a err} (hph : s.phase = .hashing a) :
      Move d s (.hashFile (.error err)) { s with phase := .failed err }
  | openDestError {a size err} (hph : s.phase = .openingDest a size) :
      Move d s (.openDest (.error err)) { s with phase := .failed err }
  | session {a size v e v' inbox} (hph : s.phase = .session a size v)
      (hin : unread s.inbox e = some inbox) (h : v.step (a.options d size) e = some v') :
      Move d s (.session e)
        { s.setFile a.destPath v'.file.content (.session a size v') with inbox }

theorem move_of_step {e : ProcessEvent W} (hs : s.step d e = some s') : Move d s e s' := by
  unfold step at hs
  split at hs
  case h_1 p lost hph =>
    obtain ⟨⟨p', inbox⟩, h, rfl⟩ := Option.map_eq_some_iff.mp hs
    exact .handshake hph h
  case h_2 a r hph =>
    obtain ⟨h, hs⟩ := Option.ite_none_right_eq_some.mp hs
    obtain rfl := Option.some.inj hs
    exact .metadata hph h
  case h_3 a u hph =>
    obtain ⟨content, h, rfl⟩ := Option.map_eq_some_iff.mp hs
    exact .openOk hph h
  case h_7 a u hph =>
    obtain ⟨content, h, rfl⟩ := Option.map_eq_some_iff.mp hs
    exact .setLenOk hph h
  case h_11 a u hph =>
    obtain ⟨content, h, rfl⟩ := Option.map_eq_some_iff.mp hs
    exact .hashFileOk hph h
  case h_13 a size u hph =>
    obtain ⟨content, h, rfl⟩ := Option.map_eq_some_iff.mp hs
    exact .openDestOk hph h
  case h_15 a size v e hph =>
    split at hs
    case h_1 inbox v' hin h =>
      obtain rfl := Option.some.inj hs
      exact .session hph hin h
    case h_2 => cases hs
  case h_16 => cases hs
  all_goals
    next hph =>
    obtain rfl := Option.some.inj hs
    first
      | exact .openError hph
      | exact .createOk hph
      | exact .createError hph
      | exact .setLenError hph
      | exact .ackOk hph
      | exact .ackError hph
      | exact .hashFileError hph
      | exact .openDestError hph

/-! ## The preparation, step by step -/

variable {files : Files} {inbox : List UInt8} {a : Agreement}

/-- Where the function goes on after the preparation. -/
def afterPrepare (a : Agreement) : Except Ending Unit → ProcessPhase W
  | .ok _ => .acking a
  | .error e => .stopped e

theorem setLen_run (inbox : List UInt8) (r : Except String Unit) {content : List UInt8}
    (hfile : files a.destPath = some content) :
    ∃ es t, run (step d) (⟨files, .sizing a, inbox⟩ : Process W) es = some t ∧
      t.phase = afterPrepare a (orFail r) := by
  cases r with
  | ok u =>
    have hstep : step d (⟨files, .sizing a, inbox⟩ : Process W) (.setLen (.ok u)) =
        some (setFile ⟨files, .sizing a, inbox⟩ a.destPath (resize 0 content a.filesize)
          (.acking a)) := by
      simp only [step, hfile, Option.map_some]
    exact ⟨_, _, run_singleton hstep, rfl⟩
  | error err => exact ⟨[.setLen (.error err)], _, rfl, rfl⟩

/-- When the operations return what they do in the handshake, the steps lead where
`prepareDest` does. -/
theorem prepareDest_run (fs : Filesystem)
    (hans : files.answers a.destPath (fs.metadata a.destPath) = true) :
    ∃ es t, run (step d) (⟨files, .metadata a, inbox⟩ : Process W) es = some t ∧
      t.phase = afterPrepare a (prepareDest fs a.destPath a.filesize a.forceTruncate) := by
  suffices hrest : ∃ es t,
      run (step d) (⟨files, .afterMetadata a (fs.metadata a.destPath), inbox⟩ : Process W) es =
        some t ∧
      t.phase = afterPrepare a (prepareDest fs a.destPath a.filesize a.forceTruncate) by
    obtain ⟨es, t, hrun, ht⟩ := hrest
    refine ⟨.metadata (fs.metadata a.destPath) :: es, t, ?_, ht⟩
    simp only [run_cons, step, hans, if_true, Option.bind_some]
    exact hrun
  unfold prepareDest
  match hr : fs.metadata a.destPath with
  | .ok len =>
    dsimp only [ProcessPhase.afterMetadata]
    split_ifs with hok
    · rw [hr] at hans
      obtain ⟨content, hfile, -⟩ := Option.map_eq_some_iff.mp (of_decide_eq_true hans)
      cases fs.openForWriting a.destPath with
      | error err => exact ⟨[.openForWriting (.error err)], _, rfl, rfl⟩
      | ok u =>
        obtain ⟨es, t, hrun, ht⟩ := setLen_run (d := d) (W := W) inbox
          (fs.setLen a.destPath a.filesize) hfile
        refine ⟨.openForWriting (.ok u) :: es, t, ?_, ht⟩
        simp only [run_cons, step, hfile, Option.map_some, Option.bind_some]
        exact hrun
    · exact ⟨[], _, rfl, rfl⟩
  | .error (.notFound, _) =>
    cases fs.create a.destPath with
    | error err => exact ⟨[.create (.error err)], _, rfl, rfl⟩
    | ok u =>
      obtain ⟨es, t, hrun, ht⟩ := setLen_run (d := d) (W := W) inbox
        (fs.setLen a.destPath a.filesize) (Function.update_self a.destPath (some []) files)
      exact ⟨.create (.ok u) :: es, t, hrun, ht⟩
  | .error (.permissionDenied, _) => exact ⟨[], _, rfl, rfl⟩
  | .error (.other, _) => exact ⟨[], _, rfl, rfl⟩

end Process

end Deltasync
