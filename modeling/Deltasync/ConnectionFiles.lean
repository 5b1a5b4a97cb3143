import Deltasync.ConnectionHandshake

/-!
# The preparation of the destination in a connection

The server reaches the third status only when the client is waiting for it, with the
parameters of the client, and with the destination resized.  A refusal leaves the
files as they were, except for an empty file that `set_len` failed on.
-/

namespace Deltasync

open Blocks Dialogue Transition Handshake

namespace Peers

def destPath (x : Peers) : String := (fromUtf8 x.options.dest).getD ""

/-- What the client asks for. -/
def agreement (x : Peers) : Agreement where
  destPath := x.destPath
  blockSize := x.options.blockSize.toNat
  filesize := x.source.length
  forceTruncate := x.options.forceTruncate
  hashAlgorithm := x.options.hashAlgorithm

/-- The destination when the loops start. -/
def resized (x : Peers) : List UInt8 :=
  resize 0 ((x.files x.destPath).getD []) x.source.length

/-- An empty file was created, and `set_len` failed. -/
def Leftover (x : Peers) (now : Files) : Prop :=
  ∃ path size err, x.files path = none ∧ x.fs.setLen path size = .error err ∧
    now = Function.update x.files path (some [])

/-- The parameters of a session, with which no counter wraps around. -/
structure Valid (x : Peers) : Prop where
  blockSize_range : 1 ≤ x.options.blockSize.toNat ∧ x.options.blockSize.toNat ≤ 2 ^ 30
  source_nonempty : x.source ≠ []

def setup (x : Peers) (hv : x.Valid) : Setup where
  digests := x.digests
  hashAlgorithm := x.options.hashAlgorithm
  clientBits := 64
  serverBits := 64
  blockSize := x.options.blockSize.toNat
  source := x.source
  dest := x.resized
  clientWorkers := x.clientWorkers
  serverWorkers := x.serverWorkers
  toServerCapacity := x.toServerCapacity
  toClientCapacity := x.toClientCapacity
  clientBits_range := sixtyFour_range
  serverBits_range := sixtyFour_range
  blockSize_range := hv.blockSize_range
  source_nonempty := hv.source_nonempty
  source_length := x.source_length
  dest_length := length_resize _ _ _
  clientWorkers_range := x.clientWorkers_range
  serverWorkers_range := x.serverWorkers_range
  toServerCapacity_pos := x.toServerCapacity_pos
  toClientCapacity_pos := x.toClientCapacity_pos
  clientFits := .sixtyFour hv.blockSize_range x.clientWorkers_range x.source_length
  serverFits := .sixtyFour hv.blockSize_range x.serverWorkers_range x.source_length

end Peers

/-! ## The request -/

/-- The peer may send more. -/
theorem Process.Confined.append {W : ℕ} {secret : String} {files : Files} {inp : List UInt8}
    {s : Process W} (h : Confined secret files inp s) (more : List UInt8) :
    Confined secret files (inp ++ more) { s with inbox := s.inbox ++ more } := by
  have hasked : ∀ {a}, Asked secret inp a → Asked secret (inp ++ more) a := by
    rintro a ⟨x, rest, rfl, hacc⟩
    exact ⟨x, rest ++ more, by rw [List.append_assoc], hacc⟩
  have htouches : ∀ {now a}, Touches secret files inp now a →
      Touches secret files (inp ++ more) now a := fun h =>
    ⟨hasked h.asked, h.allowed, h.others⟩
  cases hph : s.phase with
  | handshake p =>
    simp only [Confined, hph] at h ⊢
    obtain ⟨hfiles, x, rfl, hacc⟩ := h
    exact ⟨hfiles, x, by rw [List.append_assoc], hacc⟩
  | metadata a =>
    simp only [Confined, hph] at h ⊢
    exact ⟨h.1, hasked h.2⟩
  | opening a | creating a =>
    simp only [Confined, hph] at h ⊢
    exact ⟨h.1, htouches h.2⟩
  | sizing a | acking a | hashing a | openingDest a size | session a size v =>
    simp only [Confined, hph] at h ⊢
    exact htouches h
  | stopped e | failed err =>
    simp only [Confined, hph] at h ⊢
    exact h.imp_right (Exists.imp fun a ha => htouches ha)

namespace Connection

variable {x : Peers} {s s' : Connection x.clientWorkers x.serverWorkers}

/-- What the server may have done, by what the client has sent. -/
def Safe (x : Peers) (s : Connection x.clientWorkers x.serverWorkers) : Prop :=
  ∃ inp, Process.Confined x.secret x.files inp s.server

theorem safe_start (x : Peers) : (start x).Safe x := ⟨[], Process.confined_start⟩

theorem inbox_of_clientStreams {Wc Ws : ℕ} {s : Connection Wc Ws} {c : Client Wc}
    {e : ClientEvent Wc} {b : List UInt8 × List UInt8} (hb : s.clientStreams x c e = some b) :
    ∃ more, b.1 = s.server.inbox ++ more := by
  unfold clientStreams at hb
  split at hb
  · split_ifs at hb
    · obtain rfl := Option.some.inj hb
      exact ⟨[], by simp⟩
    · split at hb
      · obtain ⟨bytes, hput, rfl⟩ := Option.map_eq_some_iff.mp hb
        obtain ⟨-, heq⟩ := Option.ite_none_right_eq_some.mp hput
        exact ⟨_, (Option.some.inj heq).symm⟩
      · cases hb
  · obtain ⟨bytes, -, rfl⟩ := Option.map_eq_some_iff.mp hb
    exact ⟨[], by simp⟩
  · obtain rfl := Option.some.inj hb
    exact ⟨[], by simp⟩

theorem Safe.step (hS : s.Safe x) {e : ConnectionEvent x.clientWorkers x.serverWorkers}
    (hs : s.step x e = some s') : s'.Safe x := by
  obtain ⟨inp, hconf⟩ := hS
  cases move_of_step hs with
  | client hcl h =>
    obtain ⟨k, more, -, -, rfl, -⟩ := Proc.step_mono h
    exact ⟨inp ++ more, hconf.append more⟩
  | clientFails | clientHashed | clientHashFails | status => exact ⟨inp, hconf⟩
  | clientLoop hcl hb h =>
    obtain ⟨more, hmore⟩ := inbox_of_clientStreams hb
    rw [hmore]
    exact ⟨inp ++ more, hconf.append more⟩
  | server hb h => exact ⟨inp, hconf.step h⟩

/-! ## The third status -/

variable {ds : List Event} {t : State UInt8 String Ending Agreement Agreement}

/-- The server has the parameters of the client. -/
theorem Meets.agreement_eq (hM : s.Meets x ds t) {a : Agreement} (hright : t.right = .pass a) :
    a = x.agreement := by
  obtain ⟨-, -, dest, srcSize, hdest, hsize, rfl⟩ :=
    pass_right x.toClientCapacity_pos x.toServerCapacity_pos hM.run hright
  simp [Peers.agreement, Peers.destPath, hdest, x.seekEnd_eq _ hsize]

/-- The source is not empty when the server is through. -/
theorem Meets.source_nonempty (hM : s.Meets x ds t) {a : Agreement} (hright : t.right = .pass a) :
    x.source ≠ [] := by
  obtain ⟨-, ⟨rest, hrest⟩, -⟩ :=
    pass_right x.toClientCapacity_pos x.toServerCapacity_pos hM.run hright
  have hall : Transition.run (Dialogue.step x.toClientCapacity x.toServerCapacity)
      (Handshake.start x.options x.secret x.fs) (ds ++ rest) = some ⟨.pass a, .pass a, [], []⟩ := by
    rw [run_append, hM.run]
    exact run_of_restrict hrest
  obtain ⟨y, hy⟩ := exists_accepts_left hall rfl
  obtain ⟨srcSize, hseek, hne⟩ := accepts_newProcess hy
  intro hnil
  have hlen := x.seekEnd_eq _ hseek
  rw [hnil] at hlen
  exact hne (UInt64.toNat_inj.mp hlen)

/-- The client waits for the third status when the server writes it. -/
theorem Talks.open_of_acking (hT : s.Talks x ds t) {a : Agreement}
    (hph : s.server.phase = .acking a) : s.client.closed = false := by
  by_contra hc
  have hclosed : s.client.closed = true := by simpa using hc
  have hb : s.server.phase.before = true := by rw [hph]; rfl
  obtain ⟨t', ht'⟩ := hT.ack hb hph (.inl hclosed)
  have hright : t'.right = .pass a := ht'.right
  have hleft : t'.left = s.client.proc := ht'.left
  have hquit : s.client.proc.closed = true := by rw [← hT.left, hT.closed_left hb, hclosed]
  obtain ⟨p, l, hstep, -⟩ := left_moves x.toClientCapacity_pos x.toServerCapacity_pos ht'.run hright
    fun a' ha' => by
      rw [← hleft, ha'] at hquit
      cases hquit
  rw [hleft, Proc.step_eq_none_of_closed hquit] at hstep
  cases hstep

/-! ## The destination -/

/-- What the files are, by where the preparation is. -/
def Prepares (x : Peers) (now : Files) {W : ℕ} : ProcessPhase W → Prop
  | .handshake _ | .metadata _ => now = x.files
  | .opening a => now = x.files ∧ (x.files a.destPath).isSome = true
  | .creating a => now = x.files ∧ x.files a.destPath = none
  | .sizing a => now = Function.update x.files a.destPath (some ((x.files a.destPath).getD []))
  | .acking a | .hashing a =>
    now = Function.update x.files a.destPath
      (some (resize 0 ((x.files a.destPath).getD []) a.filesize))
  | .stopped _ => now = x.files ∨ x.Leftover now
  | _ => False

variable {now : Files} {W : ℕ} {a : Agreement}

theorem prepares_ofProc (q : ServerProc) (hfiles : now = x.files) :
    Prepares x now (.ofProc q : ProcessPhase W) := by
  cases q with
  | quit e => exact .inl hfiles
  | _ => exact hfiles

theorem prepares_afterMetadata {r : Except (ErrorKind × String) ℕ} (hfiles : now = x.files)
    (hans : now.answers a.destPath r = true) :
    Prepares x now (.afterMetadata a r : ProcessPhase W) := by
  match r with
  | .ok len =>
    have hlen : (now a.destPath).map List.length = some len := by
      simpa [Files.answers] using hans
    obtain ⟨content, hcontent, -⟩ := Option.map_eq_some_iff.mp hlen
    rw [ProcessPhase.afterMetadata]
    split_ifs
    · exact ⟨hfiles, by rw [← hfiles, hcontent]; rfl⟩
    · exact .inl hfiles
  | .error (.notFound, _) =>
    exact ⟨hfiles, Option.isNone_iff_eq_none.mp (hfiles ▸ hans)⟩
  | .error (.permissionDenied, _) => exact .inl hfiles
  | .error (.other, _) => exact .inl hfiles

/-- `set_len` fails, on a file that was there or on one just created. -/
theorem prepares_setLen_error {err : String}
    (hP : Prepares x now (.sizing a : ProcessPhase W))
    (hr : .error err = x.fs.setLen a.destPath a.filesize) : now = x.files ∨ x.Leftover now := by
  have hnow : now = Function.update x.files a.destPath (some ((x.files a.destPath).getD [])) := hP
  cases hfile : x.files a.destPath with
  | some content =>
    left
    rw [hnow, hfile, Option.getD_some, ← hfile, Function.update_eq_self]
  | none =>
    right
    rw [hfile] at hnow
    exact ⟨a.destPath, a.filesize, err, hfile, hr.symm, hnow⟩

theorem Talks.prepares_server (hT : s.Talks x ds t) (hb : s.server.phase.before = true)
    (hP : Prepares x s.server.files s.server.phase) {e : ProcessEvent x.serverWorkers}
    {toClient : List UInt8} {p : Process x.serverWorkers}
    (hstream : s.serverStream x e = some toClient)
    (h : s.server.step x.digests e = some p) : Prepares x p.files p.phase := by
  cases Process.move_of_step h with
  | handshake hph hserve =>
    rw [hph] at hP
    exact prepares_ofProc _ hP
  | metadata hph hans =>
    rw [hph] at hP
    exact prepares_afterMetadata hP hans
  | @openOk a u content hph hfile =>
    rw [hph] at hP
    have hnow : s.server.files = x.files := hP.1
    rw [hnow] at hfile
    change s.server.files = Function.update x.files a.destPath _
    rw [hnow, hfile, Option.getD_some, ← hfile, Function.update_eq_self]
  | @createOk a u hph =>
    rw [hph] at hP
    obtain ⟨hnow, hnone⟩ : s.server.files = x.files ∧ x.files a.destPath = none := hP
    change Function.update s.server.files a.destPath (some []) =
      Function.update x.files a.destPath _
    rw [hnow, hnone, Option.getD_none]
  | @setLenOk a u content hph hfile =>
    rw [hph] at hP
    have hnow : s.server.files =
        Function.update x.files a.destPath (some ((x.files a.destPath).getD [])) := hP
    rw [hnow, Function.update_self] at hfile
    change Function.update s.server.files a.destPath _ = Function.update x.files a.destPath _
    rw [hnow, Function.update_idem, Option.some.inj hfile]
  | openError hph | createError hph =>
    rw [hph] at hP
    exact .inl hP.1
  | setLenError hph =>
    simp only [serverStream, hph, Option.ite_none_right_eq_some, Option.some.injEq] at hstream
    rw [hph] at hP
    exact prepares_setLen_error hP hstream.1
  | ackOk hph =>
    rw [hph] at hP
    exact hP
  | ackError hph =>
    simp only [serverStream, hph, Option.ite_none_right_eq_some, Option.some.injEq] at hstream
    obtain ⟨⟨hclosed, -⟩, -⟩ := hstream
    rw [hT.open_of_acking hph] at hclosed
    cases hclosed
  | hashFileOk hph | hashFileError hph | openDestOk hph | openDestError hph | session hph =>
    rw [hph] at hb
    cases hb

/-! ## Before the third status -/

/-- A connection before the third status, or just after it. -/
structure Opens (x : Peers) (ds : List Event) (t : State UInt8 String Ending Agreement Agreement)
    (s : Connection x.clientWorkers x.serverWorkers) : Prop extends Talks x ds t s where
  safe : s.Safe x
  prepares : Prepares x s.server.files s.server.phase

theorem opens_start (x : Peers) :
    (start x).Opens x [] (Handshake.start x.options x.secret x.fs) where
  toTalks := talks_start x
  safe := safe_start x
  prepares := prepares_ofProc (request x.secret) rfl

theorem Opens.step (hO : s.Opens x ds t) (hb : s.server.phase.before = true)
    {e : ConnectionEvent x.clientWorkers x.serverWorkers} (hs : s.step x e = some s') :
    ∃ ds' t', Opens x (ds ++ ds') t' s' ∧ s'.pending + 1 ≤ s.pending + ds'.length := by
  obtain ⟨ds', t', hT, hle⟩ := hO.toTalks.step hb hs
  refine ⟨ds', t', ⟨hT, hO.safe.step hs, ?_⟩, hle⟩
  cases move_of_step hs with
  | client | clientFails | clientHashed | clientHashFails | clientLoop | status =>
    exact hO.prepares
  | server hstream h => exact hO.toTalks.prepares_server hb hO.prepares hstream h

/-- The third status is written: the loops may start. -/
theorem Opens.valid (hO : s.Opens x ds t) {a : Agreement} (hph : s.server.phase = .hashing a) :
    a = x.agreement ∧ x.Valid := by
  have hright : t.right = .pass a := by rw [hO.right, hph]; rfl
  obtain rfl := hO.toMeets.agreement_eq hright
  refine ⟨rfl, ?_, hO.toMeets.source_nonempty hright⟩
  obtain ⟨inp, hconf⟩ := hO.safe
  simp only [Process.Confined, hph] at hconf
  obtain ⟨y, rest, -, hacc⟩ := hconf.asked
  obtain ⟨-, -, -, hblock, -⟩ := accepts_request hacc
  exact hblock

end Connection

end Deltasync
