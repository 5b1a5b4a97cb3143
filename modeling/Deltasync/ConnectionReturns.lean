import Deltasync.ConnectionSession

/-!
# A connection ends, and what it leaves behind

A connection is first a dialogue and then a session.  Both are bounded, neither is
stuck before its end; and the client returns `Ok(())` only at the end of a session,
an error only when the third status was refused, with the files as they were.
-/

namespace Deltasync

open Blocks Dialogue Transition Handshake

/-- The block that a connection leaves at position `k` of the destination. -/
def Peers.merged (x : Peers) (k : ℕ) : List UInt8 :=
  if hashData x.digests (block x.options.blockSize.toNat x.source k) x.options.hashAlgorithm =
      hashData x.digests (block x.options.blockSize.toNat x.resized k) x.options.hashAlgorithm
  then block x.options.blockSize.toNat x.resized k
  else block x.options.blockSize.toNat x.source k

namespace Connection

/-- Nothing fails but what the third status waits for. -/
def succeeds {Wc Ws : ℕ} (_ : Connection Wc Ws) (e : ConnectionEvent Wc Ws) : Bool := e.succeeds

variable {x : Peers} {s s' : Connection x.clientWorkers x.serverWorkers}
  {es : List (ConnectionEvent x.clientWorkers x.serverWorkers)}

/-! ## Where a run is -/

/-- A run is before the third status, or in a session; its steps are those of the dialogue, of
the session, and at most six others. -/
inductive Tracks (x : Peers) (es : List (ConnectionEvent x.clientWorkers x.serverWorkers))
    (s : Connection x.clientWorkers x.serverWorkers) : Prop where
  | opens {ds t} (h : s.Opens x ds t) (hb : s.server.phase.before = true)
      (hcount : es.countP (·.progress) + s.pending ≤ 6 + ds.length)
  | runs {hv ds t us u} (h : s.Runs x hv ds t us u)
      (hcount : es.countP (·.progress) + s.pending ≤ 6 + ds.length + us.countP (·.progress))
      (hidle : us.countP (!·.progress) ≤ es.countP (!·.progress))

theorem tracks_start (x : Peers) : Tracks x [] (start x) := by
  refine .opens (opens_start x) rfl ?_
  have hclient := NewProcessPhase.pending_ofProc_le (W := x.clientWorkers) (newProcess x.options)
  have hserver := ProcessPhase.pending_ofProc_le (W := x.serverWorkers) (request x.secret)
  have hle : (start x).pending ≤ 1 + 5 := Nat.add_le_add hclient hserver
  simpa using hle

/-- A step that ends the handshake of the server is the one that writes the third status. -/
theorem Opens.runs_of_step {ds ds' : List Event}
    {t t' : State UInt8 String Ending Agreement Agreement} (hO : s.Opens x ds t)
    (hb : s.server.phase.before = true) (hO' : s'.Opens x ds' t')
    (hb' : s'.server.phase.before ≠ true)
    {e : ConnectionEvent x.clientWorkers x.serverWorkers} (hs : s.step x e = some s') :
    ∃ hv, Runs x hv ds' t' [] (Session.start (x.setup hv)) s' := by
  have hcl : ∀ a c, s'.client ≠ .session a c := by
    intro a c hc
    cases move_of_step hs with
    | server hstream h => exact hO.toMeets.not_pass hb a (by rw [show s.client = _ from hc]; rfl)
    | _ => exact hb' hb
  have hP := hO'.prepares
  cases hph : s'.server.phase with
  | hashing a => exact hO'.runs hph hcl
  | openingDest | session =>
    rw [hph] at hP
    exact hP.elim
  | _ =>
    rw [hph] at hb'
    exact absurd rfl hb'

theorem Tracks.step (hT : Tracks x es s)
    {e : ConnectionEvent x.clientWorkers x.serverWorkers} (hok : e.succeeds = true)
    (hs : s.step x e = some s') : Tracks x (es ++ [e]) s' := by
  cases hT with
  | @opens ds t hO hb hcount =>
    obtain ⟨ds', t', hO', hle⟩ := hO.step hb hs
    have hcount' : (es ++ [e]).countP (·.progress) + s'.pending ≤ 6 + (ds ++ ds').length := by
      rw [List.countP_append, List.countP_singleton, List.length_append]
      split_ifs <;> omega
    by_cases hb' : s'.server.phase.before = true
    · exact .opens hO' hb' hcount'
    · obtain ⟨hv, hR⟩ := hO.runs_of_step hb hO' hb' hs
      exact .runs hR (by simpa using hcount') (by simp)
  | @runs hv ds t us u hR hcount hidle =>
    obtain ⟨ds', t', us', u', hR', hle, hidle'⟩ := hR.step hok hs
    refine .runs hR' ?_ ?_
    · rw [List.countP_append, List.countP_append, List.countP_singleton, List.length_append]
      omega
    · rw [List.countP_append, List.countP_append, List.countP_singleton]
      cases hp : e.progress with
      | true =>
        simp only [hp, if_true] at hidle'
        simp only [Bool.not_true, Bool.false_eq_true, if_false]
        omega
      | false =>
        simp only [hp, Bool.false_eq_true, if_false] at hidle'
        simp only [Bool.not_false, if_true]
        omega

theorem tracks_of_run (h : run (restrict succeeds (step x)) (start x) es = some s) :
    Tracks x es s := by
  refine run_induction (P := fun es s => Tracks x es s) (tracks_start x) ?_ h
  rintro es u e v - hT hv
  obtain ⟨hok, hv⟩ := restrict_eq_some.mp hv
  exact hT.step hok hv

/-! ## The result -/

/-- The session is over on both sides. -/
theorem Runs.result_eq {hv : x.Valid} {ds t us u} (hR : s.Runs x hv ds t us u)
    {r : Except String Unit} {r' : Except String StatusCode}
    (hclient : s.client.result = some r) (hserver : s.server.phase.result = some r') :
    r = .ok () ∧ r' = .ok .ack ∧
      u.server.file.content.length = x.source.length ∧
      ∀ k, block x.options.blockSize.toNat u.server.file.content k = x.merged k := by
  have hc : u.client.phase = .returned r := by
    have hin := hR.clientIn
    cases hcl : s.client with
    | session a c =>
      rw [hcl] at hin hclient
      obtain ⟨-, rfl⟩ := hin
      simp only [NewProcessPhase.result] at hclient
      split at hclient
      · next hph => rw [hph, Option.some.inj hclient]
      · cases hclient
    | failed err =>
      rw [hcl] at hin
      exact hin.elim
    | _ =>
      rw [hcl] at hclient
      cases hclient
  have hs : u.server.phase = .returned r' := by
    have hin := hR.serverIn
    cases hph : s.server.phase with
    | session a size v =>
      rw [hph] at hin hserver
      obtain ⟨-, -, rfl⟩ := hin
      simp only [ProcessPhase.result] at hserver
      split at hserver
      · next hph' => rw [hph', Option.some.inj hserver]
      · cases hserver
    | hashing | openingDest =>
      rw [hph] at hserver
      cases hserver
    | _ =>
      rw [hph] at hin
      exact hin.elim
  have hS := hR.sound
  obtain ⟨rfl, -⟩ := hS.finishes.ended r (by rw [hc]; rfl)
  have hack : r' = .ok .ack := by
    cases r' with
    | error err => exact absurd ⟨err, by rw [hs]; rfl⟩ hS.announces.unfailed
    | ok code => rw [Session.acks_of_run hR.session code (by rw [hs]; rfl)]
  have hmerged := hS.merged_eq (r := .ok ()) (by rw [hc]; rfl) (by simp [Server.InLoop, hs])
  exact ⟨rfl, hack, hmerged.1, hmerged.2⟩

/-- When both sides have returned before the third status, neither is in its loop. -/
theorem Opens.stopped {ds t} (hO : s.Opens x ds t) (hb : s.server.phase.before = true)
    {r : Except String Unit} {r' : Except String StatusCode}
    (hclient : s.client.result = some r) (hserver : s.server.phase.result = some r') :
    ∃ err ending, s.client = .failed err ∧ s.server.phase = .stopped ending := by
  have hcl : ∃ err, s.client = .failed err := by
    cases hcl : s.client with
    | failed err => exact ⟨err, rfl⟩
    | session a c => exact absurd (by rw [hcl]; rfl) (hO.toMeets.not_pass hb a)
    | _ =>
      rw [hcl] at hclient
      cases hclient
  obtain ⟨err, hcl⟩ := hcl
  have hP := hO.prepares
  cases hph : s.server.phase with
  | stopped ending => exact ⟨err, ending, hcl, rfl⟩
  | failed err =>
    rw [hph] at hP
    exact hP.elim
  | session a size v =>
    rw [hph] at hb
    cases hb
  | _ =>
    rw [hph] at hserver
    cases hserver

/-- A refused connection. -/
theorem Opens.result_eq {ds t} (hO : s.Opens x ds t) (hb : s.server.phase.before = true)
    {r : Except String Unit} {r' : Except String StatusCode}
    (hclient : s.client.result = some r) (hserver : s.server.phase.result = some r') :
    (∃ err, r = .error err) ∧ (s.server.files = x.files ∨ x.Leftover s.server.files) := by
  obtain ⟨err, ending, hcl, hph⟩ := hO.stopped hb hclient hserver
  constructor
  · rw [hcl] at hclient
    exact ⟨err, (Option.some.inj hclient).symm⟩
  · have hP := hO.prepares
    rw [hph] at hP
    exact hP

/-- A file of two bytes at the path `d`. -/
def smallFiles : Files := fun path => if path = "d" then some [5, 8] else none

def smallFilesystem : Filesystem where
  metadata path := if path = "d" then .ok 2 else .error (.notFound, "")
  openForWriting _ := .ok ()
  create _ := .ok ()
  setLen _ _ := .ok ()

theorem answers_smallFiles (path : String) :
    smallFiles.answers path (smallFilesystem.metadata path) = true := by
  unfold smallFiles smallFilesystem
  by_cases hpath : path = "d" <;> simp [Files.answers, hpath]

theorem smallSource_length : ([7, 8] : List UInt8).length < 2 ^ 63 := by decide

theorem oneWorker_range : 1 ≤ 1 ∧ 1 ≤ 255 := by decide

/-- A source of two bytes for the path `d`, where the file differs in the first one. -/
def smallPeers : Peers where
  digests := crcDigests
  options := { smallOptions with seekEnd := .ok 2, blockSize := 1 }
  source := [7, 8]
  secret := "s"
  files := smallFiles
  fs := smallFilesystem
  clientWorkers := 1
  serverWorkers := 1
  toServerCapacity := 100
  toClientCapacity := 100
  seekEnd_eq _ hn := congrArg UInt64.toNat (Except.ok.inj hn).symm
  source_length := smallSource_length
  answers := answers_smallFiles
  clientWorkers_range := oneWorker_range
  serverWorkers_range := oneWorker_range
  toServerCapacity_pos := by decide
  toClientCapacity_pos := by decide

def ofSession : SessionEvent 1 1 → Option (ConnectionEvent 1 1)
  | .client e => some (.clientLoop e)
  | .server e => some (.server (.session e))
  | .cut _ => none

/-- The server is in its loop before the client has read the third status. -/
def handshakeRun : List (ConnectionEvent 1 1) :=
  List.replicate 4 (.client false) ++ List.replicate 6 (.server (.io false)) ++
    List.replicate 4 (.client false) ++ List.replicate 4 (.server (.io false)) ++
    List.replicate 35 (.client false) ++ List.replicate 33 (.server (.io false)) ++
    [.server (.metadata (.ok 2)), .server (.openForWriting (.ok ())), .server (.setLen (.ok ())),
      .server (.ack (.ok ())), .server (.hashFile (.ok ())), .server (.openDest (.ok ()))] ++
    List.replicate 2 (.client false) ++ [.clientHashFile (.ok ())]

def fullRun : List (ConnectionEvent 1 1) := handshakeRun ++ Session.wholeRun.filterMap ofSession

/-- Some step that leads on is enabled. -/
def CanMove (x : Peers) (s : Connection x.clientWorkers x.serverWorkers) : Prop :=
  ∃ e, e.progress = true ∧ (s.step x e).isSome = true

variable {ds : List Event} {t : State UInt8 String Ending Agreement Agreement}

/-- The client can go on in the dialogue. -/
theorem canMove_client {p : ClientProc} {y : ClientProc × List UInt8 × List UInt8}
    (hcl : s.client = .handshake p)
    (h : p.step x.toServerCapacity s.serverClosed s.toClient s.server.inbox = some y) :
    s.CanMove x := by
  refine ⟨.client false, rfl, ?_⟩
  simp only [step, hcl, h, Option.map_some, Option.isSome_some]

theorem canMove_server {e : ProcessEvent x.serverWorkers}
    (hok : (.server e : ConnectionEvent x.clientWorkers x.serverWorkers).progress = true)
    (hstream : (s.serverStream x e).isSome = true)
    (h : (s.server.step x.digests e).isSome = true) : s.CanMove x := by
  refine ⟨.server e, hok, ?_⟩
  obtain ⟨toClient, hto⟩ := Option.isSome_iff_exists.mp hstream
  obtain ⟨p, hp⟩ := Option.isSome_iff_exists.mp h
  simp only [step, hto, hp, Option.isSome_some]

/-- The server can go on in the dialogue. -/
theorem canMove_io {q : ServerProc} {y : ServerProc × List UInt8 × List UInt8}
    (hph : s.server.phase = .handshake q)
    (h : q.step x.toClientCapacity s.client.closed s.server.inbox s.toClient = some y) :
    s.CanMove x := by
  obtain ⟨lost, hserve, hlost⟩ := Proc.serve_of_step h
  have hstep : (s.server.step x.digests (.io lost)).isSome = true := by
    simp only [Process.step, hph, hserve, Option.map_some, Option.isSome_some]
  cases lost with
  | false =>
    refine canMove_server (e := .io false) rfl ?_ hstep
    simp only [serverStream, hph, h, Option.map_some, Option.isSome_some]
  | true =>
    obtain ⟨hclosed, -, hnil⟩ := hlost rfl
    refine canMove_server (e := .io true) rfl ?_ hstep
    simp only [serverStream, hph, hclosed, hnil, true_and, implies_true, if_true,
      Option.isSome_some]

/-- An operation on the destination is ready. -/
theorem Opens.prepare_moves (hO : s.Opens x ds t) {a : Agreement}
    (hph : s.server.phase = .metadata a ∨ s.server.phase = .opening a ∨
      s.server.phase = .creating a ∨ s.server.phase = .sizing a) : s.CanMove x := by
  have hP := hO.prepares
  rcases hph with hph | hph | hph | hph
  · rw [hph] at hP
    refine canMove_server (e := .metadata (x.fs.metadata a.destPath)) rfl
      ?_ ?_
    · simp only [serverStream, hph, if_true, Option.isSome_some]
    · have hnow : s.server.files = x.files := hP
      simp only [Process.step, hph, hnow, x.answers, if_true, Option.isSome_some]
  · rw [hph] at hP
    refine canMove_server (e := .openForWriting (x.fs.openForWriting a.destPath)) rfl ?_ ?_
    · simp only [serverStream, hph, if_true, Option.isSome_some]
    · obtain ⟨hnow, hsome⟩ : s.server.files = x.files ∧ (x.files a.destPath).isSome = true := hP
      cases x.fs.openForWriting a.destPath with
      | ok u => simpa only [Process.step, hph, hnow, Option.isSome_map] using hsome
      | error err => simp only [Process.step, hph, Option.isSome_some]
  · refine canMove_server (e := .create (x.fs.create a.destPath)) rfl ?_ ?_
    · simp only [serverStream, hph, if_true, Option.isSome_some]
    · cases x.fs.create a.destPath <;> simp only [Process.step, hph, Option.isSome_some]
  · rw [hph] at hP
    refine canMove_server (e := .setLen (x.fs.setLen a.destPath a.filesize)) rfl ?_ ?_
    · simp only [serverStream, hph, if_true, Option.isSome_some]
    · have hnow : s.server.files =
          Function.update x.files a.destPath (some ((x.files a.destPath).getD [])) := hP
      cases x.fs.setLen a.destPath a.filesize with
      | ok u => simp [Process.step, hph, hnow]
      | error err => simp only [Process.step, hph, Option.isSome_some]

/-- The client waits for a side that reads, writes or has ended. -/
theorem Talks.moves_left (hT : s.Talks x ds t) (hb : s.server.phase.before = true)
    (hclosed : t.right.closed = s.serverClosed)
    (h : ∃ y, t.left.step x.toServerCapacity t.right.closed t.toLeft t.toRight = some y) :
    s.CanMove x := by
  obtain ⟨y, hy⟩ := h
  rw [hT.left, hclosed, hT.toLeft, hT.toRight] at hy
  cases hcl : s.client with
  | handshake p =>
    rw [hcl] at hy
    exact canMove_client hcl hy
  | hashing a | session a c => exact absurd (by rw [hcl]; rfl) (hT.not_pass hb a)
  | failed err =>
    rw [hcl] at hy
    cases hy

/-- The server has a byte to write. -/
theorem Talks.writable_of_step (hT : s.Talks x ds t) (hb : s.server.phase.before = true)
    {b : UInt8} {err : Ending} {q : ServerProc} (hright : t.right = .write [b] err q)
    (h : ∃ y, t.right.step x.toClientCapacity t.left.closed t.toRight t.toLeft = some y) :
    s.writable x := by
  obtain ⟨y, hy⟩ := h
  rw [hright, hT.closed_left hb, hT.toLeft, Proc.step, Option.ite_none_right_eq_some] at hy
  exact hy.1

/-- Before the third status, both sides have ended or a step is enabled. -/
theorem Opens.moves (hO : s.Opens x ds t) (hb : s.server.phase.before = true) :
    (∃ err e, s.client = .failed err ∧ s.server.phase = .stopped e ∧ s.owed = none) ∨
      s.CanMove x := by
  have hann : t.right.Announces := by
    rw [hO.right]
    exact ProcessPhase.announces_proc hb
  have hstep := exists_step x.toClientCapacity_pos x.toServerCapacity_pos hO.run hann
  cases hph : s.server.phase with
  | handshake q =>
    right
    have hright : t.right = q.bind (reply x.fs) := by rw [hO.right, hph]; rfl
    have hbusy := hO.server q hph
    have hclosed : t.right.closed = false := by
      rw [hright]
      cases q with
      | pass a => cases hbusy
      | quit e => cases hbusy
      | write bytes err next => rfl
      | read n next => rfl
    rcases hstep (.inr hclosed) with hleft | ⟨y, hy⟩
    · exact hO.toTalks.moves_left hb (by rw [hclosed, serverClosed, hph]) hleft
    · rw [hright, Proc.step_bind hbusy, hO.closed_left hb, hO.toLeft, hO.toRight] at hy
      obtain ⟨z, hz, -⟩ := Option.map_eq_some_iff.mp hy
      exact canMove_io hph hz
  | metadata a => exact .inr (hO.prepare_moves (.inl hph))
  | opening a => exact .inr (hO.prepare_moves (.inr (.inl hph)))
  | creating a => exact .inr (hO.prepare_moves (.inr (.inr (.inl hph))))
  | sizing a => exact .inr (hO.prepare_moves (.inr (.inr (.inr hph))))
  | acking a =>
    right
    have hright : t.right = writeStatus .ack (.pass a) := by rw [hO.right, hph]; rfl
    rcases hstep (.inr (by rw [hright]; rfl)) with hleft | hstep
    · exact hO.toTalks.moves_left hb (by rw [hright, serverClosed, hph]; rfl) hleft
    · have hw := hO.toTalks.writable_of_step hb hright hstep
      refine canMove_server (e := .ack (.ok ()))
        rfl ?_ ?_
      · simp only [serverStream, hph, hw, if_true, Option.isSome_some]
      · simp only [Process.step, hph, Option.isSome_some]
  | stopped e =>
    cases howed : s.owed with
    | some status =>
      right
      have hright : t.right = stop (.refused status) := by rw [hO.right, hph, howed]; rfl
      rcases hstep (.inr (by rw [hright]; rfl)) with hleft | hstep
      · exact hO.toTalks.moves_left hb (by rw [hright, serverClosed, hph, howed]; rfl) hleft
      · have hw := hO.toTalks.writable_of_step hb hright hstep
        refine ⟨.status, rfl, ?_⟩
        simp only [Connection.step, howed, hw, if_true, Option.isSome_some]
    | none =>
      have hright : t.right = .quit e := by rw [hO.right, hph, howed]; rfl
      cases hcl : s.client with
      | failed err => exact .inl ⟨err, e, rfl, rfl, rfl⟩
      | hashing a | session a c =>
        exact absurd (by rw [hcl]; rfl) (hO.toMeets.not_pass hb a)
      | handshake p =>
        right
        have hleft : t.left.closed = false := by
          rw [hO.left, hcl]
          exact Proc.closed_of_busy (hO.client p hcl)
        rcases hstep (.inl hleft) with hleft | ⟨y, hy⟩
        · exact hO.toTalks.moves_left hb (by rw [hright, serverClosed, hph, howed]; rfl) hleft
        · rw [hright] at hy
          cases hy
  | failed err =>
    have hP := hO.prepares
    rw [hph] at hP
    exact hP.elim
  | hashing | openingDest | session =>
    rw [hph] at hb
    cases hb

/-- With the third status read, the streams are those of the session. -/
theorem Runs.loopStream_eq {hv : x.Valid} {us u} (hR : s.Runs x hv ds t us u)
    (hnil : t.toLeft = []) {e : ServerEvent x.serverWorkers} {b : List UInt8 × List UInt8}
    (hb : u.serverStreams (x.setup hv) e = some b) :
    s.loopStream x u.server e = some b.2 ∧ Process.unread s.server.inbox e = some b.1 := by
  have hcut : u.cut = false := hR.sound.uncut
  have hto := hR.toClient
  rw [hnil, List.nil_append] at hto
  unfold Session.serverStreams at hb
  unfold loopStream
  rw [hR.clientClosed_eq, hR.inbox, hto]
  cases e with
  | hashOut r =>
    cases hconn : u.client.connected with
    | false =>
      simp only [hconn, Bool.false_eq_true, and_false, if_false, Option.some.injEq] at hb
      subst hb
      exact ⟨rfl, rfl⟩
    | true =>
      simp only [hcut, hconn, and_self, if_true] at hb
      cases r with
      | error err => cases hb
      | ok n =>
        obtain ⟨w, hput, rfl⟩ := Option.map_eq_some_iff.mp hb
        exact ⟨hput, rfl⟩
  | read r =>
    obtain ⟨rest, hfetch, rfl⟩ := Option.map_eq_some_iff.mp hb
    rw [hcut, Bool.false_or] at hfetch
    exact ⟨by simp only [hfetch, Option.map_some], unread_of_fetch hfetch⟩
  | _ =>
    obtain rfl := Option.some.inj hb
    exact ⟨rfl, rfl⟩

/-- A step of the session that is enabled is enabled in the connection. -/
theorem Runs.canMove_of_step {hv : x.Valid} {us u} (hR : s.Runs x hv ds t us u)
    {a a' : Agreement} {c : Client x.clientWorkers} {size : ℕ} {v : Server x.serverWorkers}
    (hcl : s.client = .session a c) (hph : s.server.phase = .session a' size v)
    {e : SessionEvent x.clientWorkers x.serverWorkers}
    {u' : Session x.clientWorkers x.serverWorkers} (hp : e.progress = true)
    (hs : u.step (x.setup hv) e = some u') : s.CanMove x := by
  have hclient := hR.clientIn
  rw [hcl] at hclient
  obtain ⟨rfl, rfl⟩ := hclient
  have hserver := hR.serverIn
  rw [hph] at hserver
  obtain ⟨rfl, rfl, rfl⟩ := hserver
  obtain ⟨-, hnil⟩ := hR.passed (by rw [hcl]; rfl)
  cases e with
  | client e =>
    simp only [Session.step] at hs
    split at hs
    case h_1 b c' hb h =>
      rw [hR.clientStreams_eq hcl] at hb
      have h' : u.client.step (x.agreement.clientOptions x.digests x.source.length) x.source e =
          some c' := by
        rw [clientOptions_eq hv]
        exact h
      refine ⟨.clientLoop e, hp, ?_⟩
      simp only [Connection.step, hcl, hb, h', Option.isSome_some]
    case h_2 => cases hs
  | server e =>
    simp only [Session.step] at hs
    split at hs
    case h_1 b v' hb h =>
      obtain ⟨hstream, hunread⟩ := hR.loopStream_eq hnil hb
      refine canMove_server (e := .session e) hp ?_ ?_
      · simp only [serverStream, hph, hstream, Option.isSome_some]
      · rw [← options_eq hv] at h
        simp only [Process.step, hph, hunread, h, Option.isSome_some]
    case h_2 => cases hs
  | cut n => cases hp

/-- After the third status, both functions have returned or a step is enabled. -/
theorem Runs.moves {hv : x.Valid} {us u} (hR : s.Runs x hv ds t us u) :
    (∃ r r', s.client.result = some r ∧ s.server.phase.result = some r') ∨ s.CanMove x := by
  have hclient := hR.clientIn
  have hserver := hR.serverIn
  cases hcl : s.client with
  | handshake p =>
    obtain ⟨p', l, hstep, -⟩ := hR.client_moves hcl
    exact .inr (canMove_client hcl hstep)
  | hashing a =>
    refine .inr ⟨.clientHashFile (.ok ()), rfl, ?_⟩
    simp only [Connection.step, hcl, Option.isSome_some]
  | failed err =>
    rw [hcl] at hclient
    exact hclient.elim
  | session a c =>
    cases hph : s.server.phase with
    | hashing a' =>
      rw [hph] at hserver
      obtain ⟨rfl, -⟩ := hserver
      refine .inr (canMove_server (e := .hashFile (.ok ())) rfl ?_ ?_)
      · simp only [serverStream, hph, Option.isSome_some]
      · have hfile : s.server.files x.agreement.destPath = _ := hR.file_eq
        simp only [Process.step, hph, hfile, Option.map_some, Option.isSome_some]
    | openingDest a' size =>
      rw [hph] at hserver
      obtain ⟨rfl, -⟩ := hserver
      refine .inr (canMove_server (e := .openDest (.ok ())) rfl ?_ ?_)
      · simp only [serverStream, hph, Option.isSome_some]
      · have hfile : s.server.files x.agreement.destPath = _ := hR.file_eq
        simp only [Process.step, hph, hfile, Option.map_some, Option.isSome_some]
    | session a' size v =>
      rcases hR.sound.moves with ⟨r, r', hr, hr'⟩ | ⟨e, u', hp, hs⟩
      · left
        rw [hcl] at hclient
        rw [hph] at hserver
        obtain ⟨-, rfl⟩ := hclient
        obtain ⟨-, -, rfl⟩ := hserver
        exact ⟨r, r', by simp only [NewProcessPhase.result, hr],
          by simp only [ProcessPhase.result, hr']⟩
      · exact .inr (hR.canMove_of_step hcl hph hp hs)
    | _ =>
      rw [hph] at hserver
      exact hserver.elim

end Connection

end Deltasync
