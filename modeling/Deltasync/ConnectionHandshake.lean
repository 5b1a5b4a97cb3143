import Deltasync.Connection

/-!
# The handshake of a connection

Up to the third status, a connection is the dialogue of `Handshake`: the steps on the
destination are silent there, the other ones are steps of the dialogue.  All runs of
the dialogue end alike; hence the server is through first, with what the client asks
for, and the client then needs nothing but the third status.
-/

namespace Deltasync

open Blocks Dialogue Transition Handshake

namespace Handshake

/-! ## How the dialogue goes on -/

variable {o : ClientProcessOptions} {secret : String} {fs : Filesystem} {capLeft capRight : ℕ}
  {s : State UInt8 String Ending Agreement Agreement} {a : Agreement} {ds : List Event}

theorem reaches_end (hl : 0 < capLeft) (hr : 0 < capRight)
    (h : run (step capLeft capRight) (start o secret fs) ds = some s) :
    (∃ t, Reaches capLeft capRight s t ∧ (Agrees o t ∨ Refuses t)) ∨ BothQuit s := by
  obtain ⟨t, ⟨can, hcan⟩, ht⟩ := settles_start (o := o) hl hr secret fs
  have hend : Ended (steadyStep capLeft capRight) t := fun e => by
    rw [steadyStep, restrict, ended_of_settled ht e, ite_self]
  rcases (run_outcome hend hcan h).2 with ⟨rest, hrest, -⟩ | hquit
  · exact .inl ⟨t, ⟨rest, hrest⟩, ht⟩
  · exact .inr hquit

/-- The client does not pass before the server has written the third status. -/
theorem not_pass_left (hl : 0 < capLeft) (hr : 0 < capRight)
    (h : run (step capLeft capRight) (start o secret fs) ds = some s)
    (hright : s.right.Announces) : s.left ≠ .pass a := by
  intro hleft
  rcases reaches_end hl hr h with ⟨t, hreach, ht⟩ | hquit
  · obtain ⟨hpass, hmore⟩ := hreach.pass_left hleft (.inl hright)
    rcases ht with ⟨dest, srcSize, a', -, -, -, rfl⟩ | ⟨⟨err, herr⟩, -⟩
    · exact hmore.elim id fun hne => hne rfl
    · rw [hpass] at herr
      cases herr
  · have hclosed := hquit.1
    rw [hleft] at hclosed
    cases hclosed

/-- Before the third status, a side that has not ended leaves the dialogue a next step. -/
theorem exists_step (hl : 0 < capLeft) (hr : 0 < capRight)
    (h : run (step capLeft capRight) (start o secret fs) ds = some s)
    (hright : s.right.Announces) (hopen : s.left.closed = false ∨ s.right.closed = false) :
    (∃ y, s.left.step capRight s.right.closed s.toLeft s.toRight = some y) ∨
      ∃ y, s.right.step capLeft s.left.closed s.toRight s.toLeft = some y := by
  rcases reaches_end hl hr h with ⟨t, ⟨rest, hrest⟩, ht⟩ | ⟨hleft, hright'⟩
  · cases rest with
    | nil =>
      obtain rfl : s = t := Option.some.inj hrest
      rcases ht with ⟨dest, srcSize, a', -, -, -, rfl⟩ | ⟨⟨err, hleft⟩, ending, hright'⟩
      · exact hright.elim
      · simp [hleft, hright', Proc.closed] at hopen
    | cons e rest =>
      rw [run_cons, Option.bind_eq_some_iff] at hrest
      obtain ⟨v, hv, -⟩ := hrest
      cases e with
      | left =>
        obtain ⟨y, hy, -⟩ := Option.map_eq_some_iff.mp hv
        exact .inl ⟨y, hy⟩
      | right =>
        obtain ⟨y, hy, -⟩ := Option.map_eq_some_iff.mp hv
        exact .inr ⟨y, hy⟩
      | leftFails => cases hv
      | rightFails => cases hv
  · simp [hleft, hright'] at hopen

/-- The server passes with the parameters of the client, and has then read all that the client
has written. -/
theorem pass_right (hl : 0 < capLeft) (hr : 0 < capRight)
    (h : run (step capLeft capRight) (start o secret fs) ds = some s) (hright : s.right = .pass a) :
    s.toRight = [] ∧ Reaches capLeft capRight s ⟨.pass a, .pass a, [], []⟩ ∧
      ∃ dest srcSize, fromUtf8 o.dest = some dest ∧ o.seekEnd = .ok srcSize ∧
        a = ⟨dest, o.blockSize.toNat, srcSize.toNat, o.forceTruncate, o.hashAlgorithm⟩ := by
  rcases reaches_end hl hr h with ⟨t, hreach, ht⟩ | hquit
  · obtain ⟨hpass, hpre⟩ := hreach.pass_right hright
    rcases ht with ⟨dest, srcSize, a', hdest, hsize, ha, rfl⟩ | ⟨-, ending, hend⟩
    · obtain rfl : a' = a := by simpa using hpass
      exact ⟨List.prefix_nil.mp hpre, hreach, dest, srcSize, hdest, hsize, ha⟩
    · rw [hpass] at hend
      cases hend
  · have hclosed := hquit.2
    rw [hright] at hclosed
    cases hclosed

/-- Both sides are through. -/
theorem pass_both (hl : 0 < capLeft) (hr : 0 < capRight)
    (h : run (step capLeft capRight) (start o secret fs) ds = some s) (hright : s.right = .pass a)
    {a' : Agreement} (hleft : s.left = .pass a') : a' = a ∧ s.toLeft = [] := by
  obtain ⟨-, ⟨rest, hrest⟩, -⟩ := pass_right hl hr h hright
  cases rest with
  | nil =>
    obtain rfl := Option.some.inj hrest
    exact ⟨by simpa using hleft.symm, rfl⟩
  | cons e rest =>
    rw [run_cons, Option.bind_eq_some_iff] at hrest
    obtain ⟨v, hv, -⟩ := hrest
    obtain ⟨p, q, l, r⟩ := s
    obtain rfl : q = .pass a := hright
    obtain rfl : p = .pass a' := hleft
    cases e <;> cases hv

/-- When the server is through, the client goes on without it. -/
theorem left_moves (hl : 0 < capLeft) (hr : 0 < capRight)
    (h : run (step capLeft capRight) (start o secret fs) ds = some s) (hright : s.right = .pass a)
    (hleft : ∀ a', s.left ≠ .pass a') :
    ∃ p l, s.left.step capRight false s.toLeft [] = some (p, l, []) ∧
      step capLeft capRight s .left = some ⟨p, .pass a, l, []⟩ := by
  obtain ⟨hnil, ⟨rest, hrest⟩, -⟩ := pass_right hl hr h hright
  cases rest with
  | nil =>
    obtain rfl := Option.some.inj hrest
    exact absurd rfl (hleft a)
  | cons e rest =>
    rw [run_cons, Option.bind_eq_some_iff] at hrest
    obtain ⟨v, hv, hrun⟩ := hrest
    obtain ⟨p, q, l, r⟩ := s
    obtain rfl : q = .pass a := hright
    obtain rfl : r = [] := hnil
    cases e with
    | left =>
      obtain ⟨⟨p', l', r'⟩, hstep, rfl⟩ := Option.map_eq_some_iff.mp hv
      have hnil' : r' = [] := List.prefix_nil.mp (Reaches.pass_right ⟨rest, hrun⟩ rfl).2
      subst hnil'
      exact ⟨p', l', hstep, Option.map_eq_some_iff.mpr ⟨_, hstep, rfl⟩⟩
    | right => cases hv
    | leftFails => cases hv
    | rightFails => cases hv

/-- When the server is through, the client does not fail. -/
theorem not_quit_left (hl : 0 < capLeft) (hr : 0 < capRight)
    (h : run (step capLeft capRight) (start o secret fs) ds = some s) (hright : s.right = .pass a)
    (err : String) : s.left ≠ .quit err := by
  intro hleft
  obtain ⟨p, l, hstep, -⟩ := left_moves hl hr h hright (by rw [hleft]; exact nofun)
  rw [hleft] at hstep
  cases hstep

/-! ## An empty source -/

theorem accepts_checkStatus {next : ClientProc} {x : List UInt8}
    (h : (checkStatus next).Accepts x a) : ∃ y, next.Accepts y a := by
  obtain ⟨bytes, y, hlen, rfl, hnext⟩ := Proc.accepts_read h rfl
  obtain ⟨b, rfl⟩ := List.length_eq_one_iff.mp hlen
  dsimp only at hnext
  split at hnext
  · exact absurd hnext (Proc.not_accepts_quit _)
  · split at hnext
    · exact absurd hnext (Proc.not_accepts_quit _)
    · exact ⟨y, hnext⟩

/-- The client does not pass with an empty source. -/
theorem accepts_newProcess {x : List UInt8} (h : (newProcess o).Accepts x a) :
    ∃ srcSize, o.seekEnd = .ok srcSize ∧ srcSize ≠ 0 := by
  unfold newProcess at h
  split_ifs at h
  · obtain ⟨y, hy⟩ := accepts_checkStatus
      (Proc.accepts_write_iff.mp (Proc.accepts_write_iff.mp h))
    obtain ⟨z, hz⟩ := accepts_checkStatus (Proc.accepts_write_iff.mp hy)
    unfold sendDestPath at hz
    split at hz
    · exact absurd hz (Proc.not_accepts_quit _)
    have hsrc := Proc.accepts_write_iff.mp (Proc.accepts_write_iff.mp hz)
    unfold openSource at hsrc
    split at hsrc
    case h_1 | h_2 => exact absurd hsrc (Proc.not_accepts_quit _)
    case h_3 u srcSize hopen hseek =>
      split_ifs at hsrc with hzero
      · exact absurd hsrc (Proc.not_accepts_quit _)
      · exact ⟨srcSize, hseek, hzero⟩
  · exact absurd h (Proc.not_accepts_quit _)

/-- The answer to the preparation of the destination. -/
def answer (a : Agreement) : Except Ending Unit → ServerProc
  | .error ending => stop ending
  | .ok _ => writeStatus .ack (.pass a)

theorem announces_stop (e : Ending) : (stop e).Announces := by
  cases e with
  | refused status => exact .inl (by simp)
  | failed err => trivial

theorem announces_answer (a : Agreement) (r : Except Ending Unit) : (answer a r).Announces := by
  cases r with
  | error e => exact announces_stop e
  | ok u => exact .inl (by simp)

theorem reply_eq (fs : Filesystem) (a : Agreement) :
    reply fs a = answer a (prepareDest fs a.destPath a.filesize a.forceTruncate) := by
  unfold reply answer
  split <;> simp_all

theorem announces_reply (fs : Filesystem) (a : Agreement) : (reply fs a).Announces := by
  rw [reply_eq]
  exact announces_answer a _

end Handshake

/-! ## What is left of the handshake -/

namespace NewProcessPhase

variable {W : ℕ}

def proc : NewProcessPhase W → ClientProc
  | .handshake p => p
  | .hashing a => .pass a
  | .session a _ => .pass a
  | .failed err => .quit err

/-- The operations that are no steps of the dialogue. -/
def pending : NewProcessPhase W → ℕ
  | .handshake _ | .hashing _ => 1
  | _ => 0

theorem proc_ofProc (p : ClientProc) : (ofProc p : NewProcessPhase W).proc = p := by
  cases p <;> rfl

theorem busy_of_ofProc {p p' : ClientProc} (h : (ofProc p : NewProcessPhase W) = .handshake p') :
    p'.busy = true := by
  cases p <;> cases h <;> rfl

theorem pending_ofProc_le (p : ClientProc) : (ofProc p : NewProcessPhase W).pending ≤ 1 := by
  cases p <;> simp [ofProc, pending]

end NewProcessPhase

namespace ProcessPhase

variable {W : ℕ}

/-- The server has not written the third status. -/
def before : ProcessPhase W → Bool
  | .hashing _ | .openingDest _ _ | .session _ _ _ => false
  | _ => true

/-- What is left of the handshake, when the file system answers as `fs` does and `main` has
still to write `owed`. -/
def proc (fs : Filesystem) (owed : Option StatusCode) : ProcessPhase W → ServerProc
  | .handshake q => q.bind (reply fs)
  | .metadata a => reply fs a
  | .opening a =>
    answer a do
      orFail (fs.openForWriting a.destPath)
      orFail (fs.setLen a.destPath a.filesize)
  | .creating a =>
    answer a do
      orFail (fs.create a.destPath)
      orFail (fs.setLen a.destPath a.filesize)
  | .sizing a => answer a (orFail (fs.setLen a.destPath a.filesize))
  | .acking a => writeStatus .ack (.pass a)
  | .hashing a | .openingDest a _ | .session a _ _ => .pass a
  | .stopped e =>
    match owed with
    | some status => stop (.refused status)
    | none => .quit e
  | .failed err => .quit (.failed err)

def pending : ProcessPhase W → ℕ
  | .handshake _ | .metadata _ => 5
  | .opening _ | .creating _ => 4
  | .sizing _ => 3
  | .acking _ | .hashing _ => 2
  | .openingDest _ _ => 1
  | .session _ _ _ | .stopped _ | .failed _ => 0

variable {fs : Filesystem} {owed : Option StatusCode} {ph : ProcessPhase W}

theorem announces_proc (h : ph.before = true) : (ph.proc fs owed).Announces := by
  cases ph with
  | handshake q => exact .bind fun a => announces_reply fs a
  | metadata a => exact announces_reply fs a
  | opening a | creating a | sizing a => exact announces_answer a _
  | acking a => exact .inl (by simp)
  | hashing | openingDest | session => cases h
  | stopped e =>
    cases owed with
    | some status => exact announces_stop (.refused status)
    | none => trivial
  | failed err => trivial

theorem proc_ofProc (q : ServerProc) :
    (ofProc q : ProcessPhase W).proc fs none = q.bind (reply fs) := by
  cases q <;> rfl

theorem busy_of_ofProc {q q' : ServerProc} (h : (ofProc q : ProcessPhase W) = .handshake q') :
    q'.busy = true := by
  cases q <;> cases h <;> rfl

theorem pending_ofProc_le (q : ServerProc) : (ofProc q : ProcessPhase W).pending ≤ 5 := by
  cases q <;> simp [ofProc, pending]

/-- The `match` on the metadata. -/
theorem proc_afterMetadata {a : Agreement} {r : Except (ErrorKind × String) ℕ}
    (hr : r = fs.metadata a.destPath) :
    (afterMetadata a r : ProcessPhase W).proc fs
        (Connection.owes (.metadata r) (afterMetadata a r : ProcessPhase W)) = reply fs a := by
  rw [reply_eq, prepareDest, ← hr]
  match r with
  | .ok len =>
    dsimp only [afterMetadata]
    split_ifs <;> rfl
  | .error (.notFound, _) => rfl
  | .error (.permissionDenied, _) => rfl
  | .error (.other, _) => rfl

theorem afterMetadata_ne_handshake (a : Agreement) (r : Except (ErrorKind × String) ℕ)
    (q : ServerProc) : (afterMetadata a r : ProcessPhase W) ≠ .handshake q := by
  match r with
  | .ok len =>
    dsimp only [afterMetadata]
    split_ifs <;> exact nofun
  | .error (.notFound, _) => exact nofun
  | .error (.permissionDenied, _) => exact nofun
  | .error (.other, _) => exact nofun

theorem pending_afterMetadata_lt (a : Agreement) (r : Except (ErrorKind × String) ℕ) :
    (afterMetadata a r : ProcessPhase W).pending < 5 := by
  match r with
  | .ok len =>
    dsimp only [afterMetadata]
    split_ifs <;> simp [pending]
  | .error (.notFound, _) | .error (.permissionDenied, _) | .error (.other, _) =>
    simp [afterMetadata, pending]

end ProcessPhase

namespace Connection

variable {x : Peers} {s s' : Connection x.clientWorkers x.serverWorkers}

def pending (s : Connection x.clientWorkers x.serverWorkers) : ℕ :=
  s.client.pending + s.server.phase.pending

/-- The state of the dialogue that belongs to a connection. -/
structure Meets (x : Peers) (ds : List Event) (t : State UInt8 String Ending Agreement Agreement)
    (s : Connection x.clientWorkers x.serverWorkers) : Prop where
  run : run (Dialogue.step x.toClientCapacity x.toServerCapacity)
    (Handshake.start x.options x.secret x.fs) ds = some t
  left : t.left = s.client.proc
  right : t.right = s.server.phase.proc x.fs s.owed
  client : ∀ p, s.client = .handshake p → p.busy = true
  server : ∀ q, s.server.phase = .handshake q → q.busy = true
  owed : ∀ status, s.owed = some status → s.server.phase = .stopped (.refused status)

/-- Until the third status nothing else is on its way. -/
structure Talks (x : Peers) (ds : List Event) (t : State UInt8 String Ending Agreement Agreement)
    (s : Connection x.clientWorkers x.serverWorkers) : Prop extends Meets x ds t s where
  toLeft : t.toLeft = s.toClient
  toRight : t.toRight = s.server.inbox

variable {ds : List Event} {t : State UInt8 String Ending Agreement Agreement}

theorem talks_start (x : Peers) :
    (start x).Talks x [] (Handshake.start x.options x.secret x.fs) where
  run := rfl
  left := (NewProcessPhase.proc_ofProc _).symm
  right := by
    exact (ProcessPhase.proc_ofProc _).symm
  client p hp := NewProcessPhase.busy_of_ofProc hp
  server q hq := ProcessPhase.busy_of_ofProc (q := request x.secret) hq
  owed status h := by cases h
  toLeft := rfl
  toRight := rfl

/-- The client is not through before the server. -/
theorem Meets.not_pass (hM : s.Meets x ds t) (hb : s.server.phase.before = true)
    (a : Agreement) : s.client.proc ≠ .pass a := by
  rw [← hM.left]
  refine not_pass_left x.toClientCapacity_pos x.toServerCapacity_pos hM.run ?_
  rw [hM.right]
  exact ProcessPhase.announces_proc hb

theorem Meets.closed_right (hM : s.Meets x ds t) (hb : s.server.phase.before = true)
    (hc : s.serverClosed = true) : t.right.closed = true := by
  rw [hM.right]
  unfold serverClosed at hc
  split at hc
  case h_1 a size v hph =>
    rw [hph] at hb
    cases hb
  case h_2 e hph =>
    rw [hph, Option.isNone_iff_eq_none.mp hc]
    rfl
  case h_3 err hph =>
    rw [hph]
    rfl
  case h_4 => cases hc

theorem Meets.closed_left (hM : s.Meets x ds t) (hb : s.server.phase.before = true) :
    t.left.closed = s.client.closed := by
  rw [hM.left]
  cases hcl : s.client with
  | handshake p => exact Proc.closed_of_busy (hM.client p hcl)
  | hashing a | session a c => exact absurd (by rw [hcl]; rfl) (hM.not_pass hb a)
  | failed err => rfl

/-! ### The steps of the client -/

theorem Talks.clientStep (hT : s.Talks x ds t) (hb : s.server.phase.before = true)
    {p p' : ClientProc} {l r : List UInt8} (hcl : s.client = .handshake p)
    (h : p.step x.toServerCapacity s.serverClosed s.toClient s.server.inbox = some (p', l, r)) :
    ∃ t', Talks x (ds ++ [.left]) t'
      { s with client := .ofProc p', toClient := l, server := { s.server with inbox := r } } := by
  have hleft : t.left = p := by rw [hT.left, hcl]; rfl
  refine ⟨⟨p', t.right, l, r⟩, ⟨?_, ?_, ?_, ?_, ?_, ?_⟩, rfl, rfl⟩
  · refine run_concat_eq_some.mpr ⟨t, hT.run, Option.map_eq_some_iff.mpr ⟨(p', l, r), ?_, rfl⟩⟩
    rw [hleft, hT.toLeft, hT.toRight]
    exact Proc.step_of_closed h (hT.closed_right hb)
  · exact (NewProcessPhase.proc_ofProc p').symm
  · exact hT.right
  · exact fun p hp => NewProcessPhase.busy_of_ofProc hp
  · exact hT.server
  · exact hT.owed

theorem Talks.clientFailsStep (hT : s.Talks x ds t) (hb : s.server.phase.before = true)
    {p p' : ClientProc} (hcl : s.client = .handshake p) (hclosed : s.serverClosed = true)
    (h : p.fails = some p') :
    ∃ t', Talks x (ds ++ [.leftFails]) t' { s with client := .ofProc p' } := by
  have hleft : t.left = p := by rw [hT.left, hcl]; rfl
  refine ⟨{ t with left := p' }, ⟨?_, ?_, ?_, ?_, ?_, ?_⟩, hT.toLeft, hT.toRight⟩
  · refine run_concat_eq_some.mpr ⟨t, hT.run, ?_⟩
    simp only [Dialogue.step, hT.closed_right hb hclosed, if_true, hleft, h, Option.map_some]
  · exact (NewProcessPhase.proc_ofProc p').symm
  · exact hT.right
  · exact fun p hp => NewProcessPhase.busy_of_ofProc hp
  · exact hT.server
  · exact hT.owed

/-! ### The steps of the server -/

theorem eq_of_owes {W : ℕ} {e : ProcessEvent W} {ph : ProcessPhase W} {status : StatusCode}
    (h : owes e ph = some status) : ph = .stopped (.refused status) := by
  unfold owes at h
  split at h
  · rw [Option.some.inj h]
  · cases h

theorem Talks.serverStep (hT : s.Talks x ds t) {ds' : List Event}
    {t' : State UInt8 String Ending Agreement Agreement} {p : Process x.serverWorkers}
    {e : ProcessEvent x.serverWorkers} {toClient : List UInt8}
    (hrun : Transition.run (Dialogue.step x.toClientCapacity x.toServerCapacity) t ds' = some t')
    (hleft : t'.left = t.left) (hright : t'.right = p.phase.proc x.fs (owes e p.phase))
    (hto : t'.toLeft = toClient) (hin : t'.toRight = p.inbox)
    (hbusy : ∀ q, p.phase = .handshake q → q.busy = true) :
    Talks x (ds ++ ds') t' { s with server := p, toClient, owed := owes e p.phase } where
  run := by
    rw [run_append, hT.run]
    exact hrun
  left := hleft.trans hT.left
  right := hright
  client := hT.client
  server := hbusy
  owed _ h := eq_of_owes h
  toLeft := hto
  toRight := hin

/-- A step on the destination. -/
theorem Talks.silent (hT : s.Talks x ds t) {p : Process x.serverWorkers}
    {e : ProcessEvent x.serverWorkers}
    (hproc : s.server.phase.proc x.fs s.owed = p.phase.proc x.fs (owes e p.phase))
    (hin : p.inbox = s.server.inbox) (hbusy : ∀ q, p.phase ≠ .handshake q) :
    Talks x (ds ++ []) t { s with server := p, owed := owes e p.phase } :=
  hT.serverStep rfl rfl (hT.right.trans hproc) hT.toLeft (hT.toRight.trans hin.symm)
    fun q hq => absurd hq (hbusy q)

/-- The process has read or written something. -/
theorem Talks.io (hT : s.Talks x ds t) (hb : s.server.phase.before = true) {q q' : ServerProc}
    {lost : Bool} {inbox toClient : List UInt8} (hph : s.server.phase = .handshake q)
    (hserve : q.serve s.server.inbox lost = some (q', inbox))
    (hstream : s.serverStream x (.io lost) = some toClient) :
    ∃ e t', Talks x (ds ++ [e]) t'
      { s with
        server := { s.server with phase := .ofProc q', inbox }
        toClient
        owed := none } := by
  have hbusy := hT.server q hph
  have hright : t.right = q.bind (reply x.fs) := by rw [hT.right, hph]; rfl
  have hproc : (ProcessPhase.ofProc q' : ProcessPhase x.serverWorkers).proc x.fs none =
      q'.bind (reply x.fs) := ProcessPhase.proc_ofProc q'
  cases lost with
  | false =>
    simp only [serverStream, hph, Option.map_eq_some_iff, Prod.exists] at hstream
    obtain ⟨q'', inbox', toClient', hstep, rfl⟩ := hstream
    -- at the end of the stream the peer is lost
    have heq : (q'', inbox') = (q', inbox) := by
      obtain ⟨lost, hserve', hlost⟩ := Proc.serve_of_step hstep
      cases lost with
      | false => exact Option.some.inj (hserve'.symm.trans hserve)
      | true =>
        obtain ⟨-, hreads, hnil⟩ := hlost rfl
        rw [hnil] at hserve
        rcases q with _ | _ | _ | ⟨_ | n, next⟩ <;> cases hreads
        cases hserve
    obtain ⟨rfl, rfl⟩ := Prod.mk.inj heq
    refine ⟨.right, ⟨t.left, q''.bind (reply x.fs), toClient', inbox'⟩,
      hT.serverStep (e := .io false) (run_singleton ?_) rfl hproc.symm rfl rfl
        fun q hq => ProcessPhase.busy_of_ofProc hq⟩
    simp only [Dialogue.step, hright, hT.toLeft, hT.toRight, hT.closed_left hb,
      Proc.step_bind hbusy, hstep, Option.map_some]
  | true =>
    simp only [serverStream, hph, Option.ite_none_right_eq_some, Option.some.injEq] at hstream
    obtain ⟨⟨hclosed, hnil⟩, rfl⟩ := hstream
    rw [← hT.closed_left hb] at hclosed
    by_cases hreads : q.reads = true
    · refine ⟨.right, ⟨t.left, q'.bind (reply x.fs), s.toClient, inbox⟩,
        hT.serverStep (e := .io true) (run_singleton ?_) rfl hproc.symm rfl rfl
          fun q hq => ProcessPhase.busy_of_ofProc hq⟩
      rcases q with _ | _ | _ | ⟨_ | n, next⟩ <;> cases hreads
      obtain ⟨rfl, rfl⟩ := Prod.mk.inj (Option.some.inj hserve)
      have hstep : (Proc.read (n + 1) next).step x.toClientCapacity true [] s.toClient =
          some (next none, [], s.toClient) := rfl
      simp only [Dialogue.step, hright, hT.toLeft, hT.toRight, hnil rfl, hclosed,
        Proc.step_bind hbusy, hstep, Option.map_some]
    · obtain ⟨hfails, rfl⟩ : q.fails = some q' ∧ s.server.inbox = inbox := by
        rcases q with _ | _ | ⟨_ | ⟨b, bytes⟩, err, next⟩ | ⟨_ | n, next⟩
        · cases hserve
        · cases hserve
        · cases hserve
        · obtain ⟨rfl, rfl⟩ := Prod.mk.inj (Option.some.inj hserve)
          exact ⟨rfl, rfl⟩
        · cases hserve
        · exact absurd rfl hreads
      refine ⟨.rightFails, { t with right := q'.bind (reply x.fs) },
        hT.serverStep (e := .io true) (run_singleton ?_) rfl hproc.symm hT.toLeft hT.toRight
          fun q hq => ProcessPhase.busy_of_ofProc hq⟩
      simp only [Dialogue.step, hclosed, if_true, hright, Proc.fails_bind hbusy, hfails,
        Option.map_some]

/-- The server writes one byte, and goes on. -/
theorem Talks.write (hT : s.Talks x ds t) (hb : s.server.phase.before = true) {b : UInt8}
    {err : Ending} {q : ServerProc} (hright : t.right = .write [b] err q)
    (hw : s.writable x) :
    Transition.run (Dialogue.step x.toClientCapacity x.toServerCapacity) t [.right, .right] =
      some ⟨t.left, q, s.toClient ++ [b], s.server.inbox⟩ := by
  have hroom : t.left.closed = true ∨ s.toClient.length < x.toClientCapacity := by
    rw [hT.closed_left hb]
    exact hw
  simp only [run_cons, Dialogue.step, hright, Proc.step, hT.toLeft, hT.toRight, hroom, if_true,
    Option.map_some, Option.bind_some, run_nil]

theorem Talks.ack (hT : s.Talks x ds t) (hb : s.server.phase.before = true) {a : Agreement}
    (hph : s.server.phase = .acking a) (hw : s.writable x) :
    ∃ t', Talks x (ds ++ [.right, .right]) t'
      { s with
        server := { s.server with phase := .hashing a }
        toClient := s.toClient ++ [StatusCode.ack.toU8]
        owed := none } :=
  ⟨_, hT.serverStep (e := .ack (.ok ())) (hT.write hb (by rw [hT.right, hph]; rfl) hw) rfl rfl rfl
    rfl nofun⟩

theorem Talks.ackFails (hT : s.Talks x ds t) (hb : s.server.phase.before = true) {a : Agreement}
    (hph : s.server.phase = .acking a) (hclosed : s.client.closed = true) :
    ∃ t', Talks x (ds ++ [.rightFails]) t'
      { s with
        server := { s.server with phase := .failed brokenPipe }
        owed := none } := by
  have hright : t.right = writeStatus .ack (.pass a) := by rw [hT.right, hph]; rfl
  refine ⟨{ t with right := .quit (.failed brokenPipe) },
    hT.serverStep (e := .ack (.error "")) (run_singleton ?_) rfl rfl hT.toLeft hT.toRight nofun⟩
  rw [← hT.closed_left hb] at hclosed
  simp only [Dialogue.step, hclosed, if_true, hright, writeStatus, Proc.fails, Option.map_some]

theorem Talks.statusStep (hT : s.Talks x ds t) {status : StatusCode} (ho : s.owed = some status)
    (hw : s.writable x) :
    ∃ t', Talks x (ds ++ [.right, .right]) t'
      { s with toClient := s.toClient ++ [status.toU8], owed := none } := by
  have hph := hT.owed status ho
  have hright : t.right = stop (.refused status) := by rw [hT.right, hph, ho]; rfl
  refine ⟨⟨t.left, .quit (.refused status), s.toClient ++ [status.toU8], s.server.inbox⟩,
    ⟨?_, ?_, ?_, hT.client, hT.server, nofun⟩, rfl, rfl⟩
  · rw [run_append, hT.run]
    exact hT.write (by rw [hph]; rfl) hright hw
  · exact hT.left
  · rw [hph]
    rfl

/-- A step of the server before the third status. -/
theorem Talks.step_server (hT : s.Talks x ds t) (hb : s.server.phase.before = true)
    {e : ProcessEvent x.serverWorkers} {toClient : List UInt8} {p : Process x.serverWorkers}
    (hstream : s.serverStream x e = some toClient) (h : s.server.step x.digests e = some p) :
    ∃ ds' t', Talks x (ds ++ ds') t' { s with server := p, toClient, owed := owes e p.phase } ∧
      p.phase.pending + 1 ≤ s.server.phase.pending + ds'.length := by
  cases Process.move_of_step h with
  | @handshake q lost q' inbox hph hserve =>
    obtain ⟨d, t', ht'⟩ := hT.io hb hph hserve hstream
    refine ⟨[d], t', ht', ?_⟩
    have hle := ProcessPhase.pending_ofProc_le (W := x.serverWorkers) q'
    rw [hph]
    exact Nat.succ_le_succ hle
  | @metadata a r hph hans =>
    simp only [serverStream, hph, Option.ite_none_right_eq_some, Option.some.injEq] at hstream
    obtain ⟨hr, rfl⟩ := hstream
    refine ⟨[], t, hT.silent ?_ rfl ?_, ?_⟩
    · rw [hph]
      exact (ProcessPhase.proc_afterMetadata hr).symm
    · exact ProcessPhase.afterMetadata_ne_handshake a r
    · rw [hph]
      exact ProcessPhase.pending_afterMetadata_lt a r
  | @openOk a u content hph hfile =>
    simp only [serverStream, hph, Option.ite_none_right_eq_some, Option.some.injEq] at hstream
    obtain ⟨hr, rfl⟩ := hstream
    refine ⟨[], t, hT.silent ?_ rfl ?_, by simp [hph, ProcessPhase.pending]⟩
    · rw [hph, ProcessPhase.proc, ← hr]
      rfl
    · intro q hq
      cases hq
  | @createOk a u hph =>
    simp only [serverStream, hph, Option.ite_none_right_eq_some, Option.some.injEq] at hstream
    obtain ⟨hr, rfl⟩ := hstream
    refine ⟨[], t, hT.silent ?_ rfl ?_, by simp [hph, Process.setFile, ProcessPhase.pending]⟩
    · rw [hph, ProcessPhase.proc, ← hr]
      rfl
    · intro q hq
      cases hq
  | @setLenOk a u content hph hfile =>
    simp only [serverStream, hph, Option.ite_none_right_eq_some, Option.some.injEq] at hstream
    obtain ⟨hr, rfl⟩ := hstream
    refine ⟨[], t, hT.silent ?_ rfl ?_, by simp [hph, Process.setFile, ProcessPhase.pending]⟩
    · rw [hph, ProcessPhase.proc, ← hr]
      rfl
    · intro q hq
      cases hq
  | @openError a err hph | @createError a err hph | @setLenError a err hph =>
    simp only [serverStream, hph, Option.ite_none_right_eq_some, Option.some.injEq] at hstream
    obtain ⟨hr, rfl⟩ := hstream
    refine ⟨[], t, hT.silent ?_ rfl ?_, by simp [hph, ProcessPhase.pending]⟩
    · rw [hph, ProcessPhase.proc, ← hr]
      rfl
    · intro q hq
      cases hq
  | @ackOk a u hph =>
    simp only [serverStream, hph, Option.ite_none_right_eq_some, Option.some.injEq] at hstream
    obtain ⟨hw, rfl⟩ := hstream
    obtain ⟨t', ht'⟩ := hT.ack hb hph hw
    exact ⟨_, t', ht', by simp [hph, ProcessPhase.pending]⟩
  | @ackError a err hph =>
    simp only [serverStream, hph, Option.ite_none_right_eq_some, Option.some.injEq] at hstream
    obtain ⟨⟨hclosed, rfl⟩, rfl⟩ := hstream
    obtain ⟨t', ht'⟩ := hT.ackFails hb hph hclosed
    exact ⟨_, t', ht', by simp [hph, ProcessPhase.pending]⟩
  | hashFileOk hph | hashFileError hph | openDestOk hph | openDestError hph | session hph =>
    rw [hph] at hb
    cases hb

/-- A step of a connection before the third status. -/
theorem Talks.step (hT : s.Talks x ds t) (hb : s.server.phase.before = true)
    {e : ConnectionEvent x.clientWorkers x.serverWorkers} (hs : s.step x e = some s') :
    ∃ ds' t', Talks x (ds ++ ds') t' s' ∧ s'.pending + 1 ≤ s.pending + ds'.length := by
  cases move_of_step hs with
  | @client p p' l r hcl h =>
    obtain ⟨t', ht'⟩ := hT.clientStep hb hcl h
    refine ⟨_, t', ht', ?_⟩
    have hle := NewProcessPhase.pending_ofProc_le (W := x.clientWorkers) p'
    rw [pending, pending, hcl]
    exact Nat.succ_le_succ (Nat.add_le_add_right hle _)
  | @clientFails p p' hcl hclosed h =>
    obtain ⟨t', ht'⟩ := hT.clientFailsStep hb hcl hclosed h
    refine ⟨_, t', ht', ?_⟩
    have hle := NewProcessPhase.pending_ofProc_le (W := x.clientWorkers) p'
    rw [pending, pending, hcl]
    exact Nat.succ_le_succ (Nat.add_le_add_right hle _)
  | @clientHashed a u hcl | @clientHashFails a err hcl =>
    exact absurd (by rw [hcl]; rfl) (hT.not_pass hb a)
  | @clientLoop a c e b c' hcl hstream h =>
    exact absurd (by rw [hcl]; rfl) (hT.not_pass hb a)
  | server hstream h =>
    obtain ⟨ds', t', ht', hle⟩ := hT.step_server hb hstream h
    refine ⟨ds', t', ht', ?_⟩
    simp only [pending]
    omega
  | status ho hw =>
    obtain ⟨t', ht'⟩ := hT.statusStep ho hw
    exact ⟨_, t', ht', by simp [pending]⟩

end Connection

end Deltasync
