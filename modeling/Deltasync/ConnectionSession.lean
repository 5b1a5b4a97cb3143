import Deltasync.ConnectionFiles

/-!
# The session of a connection

After the third status, a connection is a session in which a side that has not come
to its loop yet has not begun: the hashes that the server sends early lie behind the
third status, and the session has them on their way.
-/

namespace Deltasync

open Blocks Dialogue Transition Handshake

/-- No operation fails in this step, other than one that the third status waits for. -/
def ConnectionEvent.succeeds {Wc Ws : ℕ} : ConnectionEvent Wc Ws → Bool
  | .clientHashFile (.error _) => false
  | .clientLoop e => e.succeeds
  | .server (.hashFile (.error _)) | .server (.openDest (.error _)) => false
  | .server (.session e) => e.succeeds
  | _ => true

/-- The same, and the step is none of those in a session that need not lead on. -/
def ConnectionEvent.progress {Wc Ws : ℕ} : ConnectionEvent Wc Ws → Bool
  | .clientLoop e => (SessionEvent.client e : SessionEvent Wc Ws).progress
  | .server (.session e) => (SessionEvent.server e : SessionEvent Wc Ws).progress
  | e => e.succeeds

namespace Connection

variable {x : Peers} {hv : x.Valid} {s s' : Connection x.clientWorkers x.serverWorkers}
  {ds : List Event} {t : State UInt8 String Ending Agreement Agreement}
  {us : List (SessionEvent x.clientWorkers x.serverWorkers)}
  {u : Session x.clientWorkers x.serverWorkers}

theorem clientOptions_eq (hv : x.Valid) :
    x.agreement.clientOptions x.digests x.source.length = (x.setup hv).newProcess := by
  have hsize : usize 64 x.source.length = x.source.length := usize_of_lt (x.setup hv).length_lt
  simp only [Agreement.clientOptions, Peers.agreement, Hosts.newProcess, Peers.setup,
    NewProcess.onFile, hsize]

theorem options_eq (hv : x.Valid) :
    x.agreement.options x.digests x.source.length = (x.setup hv).processNewClient := by
  have hlen : x.resized.length = x.source.length := length_resize _ _ _
  have hsize : usize 64 x.source.length = x.source.length := usize_of_lt (x.setup hv).length_lt
  simp only [Agreement.options, Peers.agreement, Hosts.processNewClient, Peers.setup,
    ProcessNewClient.onFile, hlen, hsize]

/-! ## The state of the session -/

/-- The client of the session, by where `new_process` is. -/
def ClientIn (x : Peers) (c : Client x.clientWorkers) : NewProcessPhase x.clientWorkers → Prop
  | .handshake _ | .hashing _ =>
    c = .new (x.agreement.clientOptions x.digests x.source.length) x.clientWorkers
  | .session a c' => a = x.agreement ∧ c' = c
  | .failed _ => False

/-- The server of the session, by where `process_new_client` is. -/
def ServerIn (x : Peers) (v : Server x.serverWorkers) : ProcessPhase x.serverWorkers → Prop
  | .hashing a =>
    a = x.agreement ∧
      v = .new (x.agreement.options x.digests x.source.length) x.serverWorkers x.resized
  | .openingDest a size =>
    a = x.agreement ∧ size = x.source.length ∧
      v = .new (x.agreement.options x.digests x.source.length) x.serverWorkers x.resized
  | .session a size v' => a = x.agreement ∧ size = x.source.length ∧ v' = v
  | _ => False

/-- The dialogue and the session that belong to a connection after the third status. -/
structure Runs (x : Peers) (hv : x.Valid) (ds : List Event)
    (t : State UInt8 String Ending Agreement Agreement)
    (us : List (SessionEvent x.clientWorkers x.serverWorkers))
    (u : Session x.clientWorkers x.serverWorkers)
    (s : Connection x.clientWorkers x.serverWorkers) : Prop extends Meets x ds t s where
  session : Transition.run (restrict Session.succeeds (Session.step (x.setup hv)))
    (Session.start (x.setup hv)) us = some u
  clientIn : ClientIn x u.client s.client
  serverIn : ServerIn x u.server s.server.phase
  toClient : s.toClient = t.toLeft ++ u.toClient
  inbox : s.server.inbox = u.toServer
  files : s.server.files = Function.update x.files x.destPath (some u.server.file.content)

theorem Runs.sound (hR : s.Runs x hv ds t us u) : u.Sound (x.setup hv) :=
  Session.sound_of_run hR.session

theorem Runs.right_eq (hR : s.Runs x hv ds t us u) : t.right = .pass x.agreement := by
  have hin := hR.serverIn
  rw [hR.right]
  cases hph : s.server.phase with
  | hashing a | openingDest a size | session a size v =>
    rw [hph] at hin
    obtain rfl : a = x.agreement := hin.1
    rfl
  | _ =>
    rw [hph] at hin
    exact hin.elim

theorem Runs.serverClosed_eq (hR : s.Runs x hv ds t us u) :
    s.serverClosed = !u.server.connected := by
  have hin := hR.serverIn
  unfold serverClosed
  cases hph : s.server.phase with
  | hashing a =>
    rw [hph] at hin
    rw [hin.2]
    rfl
  | openingDest a size =>
    rw [hph] at hin
    rw [hin.2.2]
    rfl
  | session a size v =>
    rw [hph] at hin
    rw [← hin.2.2]
  | _ =>
    rw [hph] at hin
    exact hin.elim

theorem Runs.clientClosed_eq (hR : s.Runs x hv ds t us u) :
    s.client.closed = !u.client.connected := by
  have hin := hR.clientIn
  cases hcl : s.client with
  | handshake p =>
    rw [hcl] at hin
    rw [show u.client = _ from hin]
    rfl
  | hashing a =>
    rw [hcl] at hin
    rw [show u.client = _ from hin]
    rfl
  | session a c =>
    rw [hcl] at hin
    rw [← hin.2]
    rfl
  | failed err =>
    rw [hcl] at hin
    exact hin.elim

/-- A client that is through has read the third status. -/
theorem Runs.passed (hR : s.Runs x hv ds t us u) {a : Agreement} (hcl : s.client.proc = .pass a) :
    a = x.agreement ∧ t.toLeft = [] :=
  pass_both x.toClientCapacity_pos x.toServerCapacity_pos hR.run hR.right_eq
    (hR.left.trans hcl)

/-- The server does not close its end before the client does. -/
theorem Runs.server_open (hR : s.Runs x hv ds t us u) (hc : u.client.connected = true) :
    s.serverClosed = false := by
  rw [hR.serverClosed_eq]
  by_contra hne
  have hin : ¬ u.server.InLoop := by
    rintro (h0 | ⟨off, h0⟩) <;> simp [Server.connected, h0] at hne
  exact Bool.false_ne_true ((hR.sound.closed hin).1.symm.trans hc)

/-- The third status has just been written. -/
theorem Opens.runs (hO : s.Opens x ds t) {a : Agreement} (hph : s.server.phase = .hashing a)
    (hcl : ∀ a' c, s.client ≠ .session a' c) :
    ∃ hv, Runs x hv ds t [] (Session.start (x.setup hv)) s := by
  obtain ⟨rfl, hv⟩ := hO.valid hph
  have hright : t.right = .pass x.agreement := by rw [hO.right, hph]; rfl
  refine ⟨hv, hO.toMeets, rfl, ?_, ?_, ?_, ?_, ?_⟩
  · cases hc : s.client with
    | handshake p => rfl
    | hashing a => rfl
    | session a' c => exact absurd hc (hcl a' c)
    | failed err =>
      have hleft : t.left = .quit err := by rw [hO.left, hc]; rfl
      exact absurd hleft (not_quit_left x.toClientCapacity_pos x.toServerCapacity_pos hO.run
        hright err)
  · rw [hph]
    exact ⟨rfl, by rw [options_eq hv]; rfl⟩
  · rw [← hO.toLeft]
    exact (List.append_nil _).symm
  · rw [← hO.toRight]
    exact (pass_right x.toClientCapacity_pos x.toServerCapacity_pos hO.run hright).1
  · have hnow := hO.prepares
    rw [hph] at hnow
    exact hnow

/-! ## The steps of the client -/

/-- Until it is through, the client can go on: the early hashes lie behind what it reads. -/
theorem Runs.client_moves (hR : s.Runs x hv ds t us u) {p : ClientProc}
    (hcl : s.client = .handshake p) :
    ∃ p' l, p.step x.toServerCapacity s.serverClosed s.toClient s.server.inbox =
        some (p', l ++ u.toClient, []) ∧
      Dialogue.step x.toClientCapacity x.toServerCapacity t .left =
        some ⟨p', .pass x.agreement, l, []⟩ ∧
      s.server.inbox = [] := by
  have hnew := hR.clientIn
  rw [hcl] at hnew
  have hleft : t.left = p := by rw [hR.left, hcl]; rfl
  have hopen : s.serverClosed = false := hR.server_open (by rw [show u.client = _ from hnew]; rfl)
  have hnil : s.server.inbox = [] := by
    have hsent : u.server.consumed ++ u.toServer = u.client.sent := hR.sound.toServer
    rw [show u.client = _ from hnew] at hsent
    rw [hR.inbox]
    exact (List.append_eq_nil_iff.mp hsent).2
  obtain ⟨p', l, hstep, hrun⟩ := left_moves x.toClientCapacity_pos x.toServerCapacity_pos hR.run
    hR.right_eq fun a ha => by
      have hbusy := hR.client p hcl
      rw [← hleft, ha] at hbusy
      cases hbusy
  obtain ⟨k, y, -, rfl, hy, hmono⟩ := Proc.step_mono hstep
  have hsame := hmono false u.toClient [] nofun le_rfl
  rw [hleft, ← hR.toClient, ← hy] at hsame
  refine ⟨p', _, ?_, hrun, hnil⟩
  rw [hopen, hnil, hsame]

/-- The client comes nearer to the third status. -/
theorem Runs.clientStep (hR : s.Runs x hv ds t us u) {p p' : ClientProc} {l r : List UInt8}
    (hcl : s.client = .handshake p)
    (h : p.step x.toServerCapacity s.serverClosed s.toClient s.server.inbox = some (p', l, r)) :
    ∃ t', Runs x hv (ds ++ [.left]) t' us u
      { s with client := .ofProc p', toClient := l, server := { s.server with inbox := r } } := by
  have hnew := hR.clientIn
  rw [hcl] at hnew
  obtain ⟨p'', l', hstep, hrun, hnil⟩ := hR.client_moves hcl
  obtain ⟨rfl, rfl, rfl⟩ : p'' = p' ∧ l' ++ u.toClient = l ∧ [] = r := by
    simpa using hstep.symm.trans h
  have hrun' := run_concat_eq_some.mpr ⟨t, hR.run, hrun⟩
  refine ⟨_, ⟨hrun', ?_, ?_, ?_, hR.server, hR.owed⟩, hR.session, ?_, hR.serverIn, rfl,
    hnil.symm.trans hR.inbox, hR.files⟩
  · exact (NewProcessPhase.proc_ofProc p'').symm
  · exact hR.right_eq.symm.trans hR.right
  · exact fun p hp => NewProcessPhase.busy_of_ofProc hp
  · cases p'' with
    | quit err =>
      exact absurd rfl (not_quit_left x.toClientCapacity_pos x.toServerCapacity_pos hrun' rfl err)
    | _ => exact hnew

/-- The client comes to its loop. -/
theorem Runs.clientHashed (hR : s.Runs x hv ds t us u) {a : Agreement}
    (hcl : s.client = .hashing a) :
    Runs x hv ds t us u
      { s with
        client := .session a (.new (a.clientOptions x.digests x.source.length)
          x.clientWorkers) } := by
  have hnew := hR.clientIn
  rw [hcl] at hnew
  obtain ⟨rfl, -⟩ := hR.passed (by rw [hcl]; rfl)
  refine ⟨⟨hR.run, ?_, hR.right, nofun, hR.server, hR.owed⟩, hR.session, ⟨rfl, hnew.symm⟩,
    hR.serverIn, hR.toClient, hR.inbox, hR.files⟩
  rw [hR.left, hcl]
  rfl

theorem Runs.clientStreams_eq (hR : s.Runs x hv ds t us u) {a : Agreement}
    {c : Client x.clientWorkers} (hcl : s.client = .session a c)
    (e : ClientEvent x.clientWorkers) :
    u.clientStreams (x.setup hv) e = s.clientStreams x c e := by
  have hin := hR.clientIn
  rw [hcl] at hin
  obtain ⟨rfl, rfl⟩ := hin
  obtain ⟨-, hnil⟩ := hR.passed (by rw [hcl]; rfl)
  have hcut : u.cut = false := hR.sound.uncut
  have hto := hR.toClient
  rw [hnil, List.nil_append] at hto
  unfold Session.clientStreams clientStreams
  rw [hR.serverClosed_eq, hR.inbox, hto, hcut]
  cases e with
  | write r => cases u.server.connected <;> rfl
  | read r => rfl
  | _ => rfl

/-- A step of the client's loop. -/
theorem Runs.clientLoop (hR : s.Runs x hv ds t us u) {a : Agreement}
    {c c' : Client x.clientWorkers} {e : ClientEvent x.clientWorkers}
    {b : List UInt8 × List UInt8} (hcl : s.client = .session a c) (hok : e.succeeds = true)
    (hb : s.clientStreams x c e = some b)
    (h : c.step (a.clientOptions x.digests x.source.length) x.source e = some c') :
    ∃ u', Runs x hv ds t (us ++ [.client e]) u'
      { s with
        client := .session a c', toClient := b.2, server := { s.server with inbox := b.1 } } := by
  have hin := hR.clientIn
  rw [hcl] at hin
  obtain ⟨rfl, rfl⟩ := hin
  obtain ⟨-, hnil⟩ := hR.passed (by rw [hcl]; rfl)
  rw [← hR.clientStreams_eq hcl] at hb
  have hstep : u.step (x.setup hv) (.client e) =
      some { u with client := c', toServer := b.1, toClient := b.2 } := by
    simp only [Session.step, hb, ← clientOptions_eq hv]
    rw [show (x.setup hv).source = x.source from rfl, h]
  refine ⟨_, ⟨hR.run, ?_, hR.right, ?_, hR.server, hR.owed⟩,
    run_concat_eq_some.mpr ⟨u, hR.session, restrict_eq_some.mpr ⟨hok, hstep⟩⟩, ⟨rfl, rfl⟩,
    hR.serverIn, ?_, rfl, hR.files⟩
  · rw [hR.left, hcl]
    rfl
  · intro p hp
    cases hp
  · rw [hnil]
    rfl

/-! ## The steps of the server -/

theorem Runs.file_eq (hR : s.Runs x hv ds t us u) :
    s.server.files x.destPath = some u.server.file.content := by
  rw [hR.files, Function.update_self]

/-- `hash_file` has measured the destination. -/
theorem Runs.hashFile (hR : s.Runs x hv ds t us u) {a : Agreement} {content : List UInt8}
    (hph : s.server.phase = .hashing a) (hfile : s.server.files a.destPath = some content) :
    Runs x hv ds t us u
      { s with
        server := { s.server with phase := .openingDest a content.length }
        owed := none } := by
  have hin := hR.serverIn
  rw [hph] at hin
  obtain ⟨rfl, hnew⟩ := hin
  have hlen : content.length = x.source.length := by
    have hcontent := hfile.symm.trans hR.file_eq
    rw [Option.some.inj hcontent, hnew]
    exact length_resize _ _ _
  refine ⟨⟨hR.run, hR.left, ?_, hR.client, nofun, nofun⟩, hR.session, hR.clientIn,
    ⟨rfl, hlen, hnew⟩, hR.toClient, hR.inbox, hR.files⟩
  rw [hR.right, hph]
  rfl

/-- The server comes to its loop. -/
theorem Runs.openDest (hR : s.Runs x hv ds t us u) {a : Agreement} {size : ℕ}
    {content : List UInt8} (hph : s.server.phase = .openingDest a size)
    (hfile : s.server.files a.destPath = some content) :
    Runs x hv ds t us u
      { s with
        server := { s.server with
          phase := .session a size (.new (a.options x.digests size) x.serverWorkers content) }
        owed := none } := by
  have hin := hR.serverIn
  rw [hph] at hin
  obtain ⟨rfl, rfl, hnew⟩ := hin
  have hcontent : content = x.resized := by
    have hcontent := hfile.symm.trans hR.file_eq
    rw [Option.some.inj hcontent, hnew]
    rfl
  refine ⟨⟨hR.run, hR.left, ?_, hR.client, nofun, nofun⟩, hR.session, hR.clientIn,
    ⟨rfl, rfl, by rw [hnew, hcontent]⟩, hR.toClient, hR.inbox, hR.files⟩
  rw [hR.right, hph]
  rfl

theorem unread_of_fetch {W : ℕ} {stream rest : List UInt8} {closed : Bool}
    {r : Except String (List UInt8)} (h : Session.fetch stream closed false r = some rest) :
    Process.unread stream (.read r : ServerEvent W) = some rest := by
  cases r with
  | error err => cases h
  | ok bytes =>
    cases bytes with
    | nil =>
      obtain ⟨-, heq⟩ := Option.ite_none_right_eq_some.mp h
      simpa [Process.unread] using heq
    | cons b bytes => exact h

/-- In the session there is more room on the way to the client. -/
theorem Runs.serverStreams_eq (hR : s.Runs x hv ds t us u)
    {e : ServerEvent x.serverWorkers} {toClient inbox : List UInt8}
    (hstream : s.loopStream x u.server e = some toClient)
    (hin : Process.unread s.server.inbox e = some inbox) :
    ∃ w, u.serverStreams (x.setup hv) e = some (inbox, w) ∧ toClient = t.toLeft ++ w := by
  have hcut : u.cut = false := hR.sound.uncut
  have hto := hR.toClient
  have hinbox := hR.inbox
  unfold loopStream at hstream
  rw [hR.clientClosed_eq] at hstream
  unfold Session.serverStreams
  cases e with
  | hashOut r =>
    obtain rfl : s.server.inbox = inbox := Option.some.inj hin
    cases hconn : u.client.connected with
    | false =>
      simp only [hconn, Bool.not_false, if_true, Option.some.injEq] at hstream
      exact ⟨u.toClient, by simp [hinbox], by rw [← hstream, hto]⟩
    | true =>
      simp only [hconn, Bool.not_true, Bool.false_eq_true, if_false] at hstream
      cases r with
      | error err => cases hstream
      | ok n =>
        obtain ⟨⟨hne, hle⟩, heq⟩ := Option.ite_none_right_eq_some.mp hstream
        refine ⟨u.toClient ++ u.server.offered.take n, ?_, ?_⟩
        · have hroom : u.toClient.length + (u.server.offered.take n).length ≤
              x.toClientCapacity := by
            rw [hto, List.length_append] at hle
            omega
          simp only [hcut, true_and, if_true, hinbox]
          rw [Session.put, if_pos ⟨hne, hroom⟩]
          rfl
        · rw [← Option.some.inj heq, hto, List.append_assoc]
  | read r =>
    obtain ⟨rest, hfetch, rfl⟩ := Option.map_eq_some_iff.mp hstream
    refine ⟨u.toClient, ?_, hto⟩
    rw [hinbox] at hfetch hin
    obtain rfl : rest = inbox := Option.some.inj ((unread_of_fetch hfetch).symm.trans hin)
    simp only [hcut, Bool.false_or, hfetch, Option.map_some]
  | _ =>
    obtain rfl : s.server.inbox = inbox := Option.some.inj hin
    exact ⟨u.toClient, by rw [hinbox], by rw [← Option.some.inj hstream, hto]⟩

/-- A step of the server's loop. -/
theorem Runs.serverLoop (hR : s.Runs x hv ds t us u) {a : Agreement} {size : ℕ}
    {v v' : Server x.serverWorkers} {e : ServerEvent x.serverWorkers}
    {toClient inbox : List UInt8} (hph : s.server.phase = .session a size v)
    (hok : e.succeeds = true) (hstream : s.loopStream x v e = some toClient)
    (hin : Process.unread s.server.inbox e = some inbox)
    (h : v.step (a.options x.digests size) e = some v') :
    ∃ u', Runs x hv ds t (us ++ [.server e]) u'
      { s with
        server := { s.server.setFile a.destPath v'.file.content (.session a size v') with inbox }
        toClient
        owed := none } := by
  have hserver := hR.serverIn
  rw [hph] at hserver
  obtain ⟨rfl, rfl, rfl⟩ := hserver
  obtain ⟨w, hw, rfl⟩ := hR.serverStreams_eq hstream hin
  rw [options_eq hv] at h
  have hstep : u.step (x.setup hv) (.server e) =
      some { u with server := v', toServer := inbox, toClient := w } := by
    simp only [Session.step, hw, h]
  refine ⟨_, ⟨hR.run, hR.left, ?_, hR.client, ?_, ?_⟩,
    run_concat_eq_some.mpr ⟨u, hR.session, restrict_eq_some.mpr ⟨hok, hstep⟩⟩, hR.clientIn,
    ⟨rfl, rfl, rfl⟩, rfl, rfl, ?_⟩
  · rw [hR.right, hph]
    rfl
  · intro q hq
    cases hq
  · intro status ho
    cases ho
  · change Function.update s.server.files x.destPath _ = _
    rw [hR.files, Function.update_idem]

theorem Runs.step_server (hR : s.Runs x hv ds t us u) {e : ProcessEvent x.serverWorkers}
    {toClient : List UInt8} {p : Process x.serverWorkers}
    (hok : (.server e : ConnectionEvent x.clientWorkers x.serverWorkers).succeeds = true)
    (hstream : s.serverStream x e = some toClient) (h : s.server.step x.digests e = some p) :
    ∃ us' u', Runs x hv ds t (us ++ us') u'
        { s with server := p, toClient, owed := owes e p.phase } ∧
      p.phase.pending +
          (if (.server e : ConnectionEvent x.clientWorkers x.serverWorkers).progress then 1
            else 0) ≤
        s.server.phase.pending + us'.countP (·.progress) ∧
      us'.countP (!·.progress) ≤
        if (.server e : ConnectionEvent x.clientWorkers x.serverWorkers).progress then 0
        else 1 := by
  have hin := hR.serverIn
  cases Process.move_of_step h with
  | handshake hph | metadata hph | openOk hph | createOk hph | setLenOk hph =>
    rw [hph] at hin
    exact hin.elim
  | openError hph | createError hph | setLenError hph | ackOk hph | ackError hph =>
    rw [hph] at hin
    exact hin.elim
  | hashFileOk hph hfile =>
    simp only [serverStream, hph, Option.some.injEq] at hstream
    subst hstream
    refine ⟨[], u, by rw [List.append_nil]; exact hR.hashFile hph hfile, ?_, by simp⟩
    simp [hph, ProcessPhase.pending, ConnectionEvent.progress, ConnectionEvent.succeeds]
  | openDestOk hph hfile =>
    simp only [serverStream, hph, Option.some.injEq] at hstream
    subst hstream
    refine ⟨[], u, by rw [List.append_nil]; exact hR.openDest hph hfile, ?_, by simp⟩
    simp [hph, ProcessPhase.pending, ConnectionEvent.progress, ConnectionEvent.succeeds]
  | hashFileError | openDestError => cases hok
  | @session a size v e v' inbox hph hunread hloop =>
    simp only [serverStream, hph] at hstream
    obtain ⟨u', hu'⟩ := hR.serverLoop hph hok hstream hunread hloop
    refine ⟨[.server e], u', hu', ?_, ?_⟩
    · rw [hph, List.countP_singleton]
      exact le_rfl
    · rw [List.countP_singleton]
      simp only [ConnectionEvent.progress]
      split_ifs <;> simp_all

/-- A step of a connection after the third status. -/
theorem Runs.step (hR : s.Runs x hv ds t us u)
    {e : ConnectionEvent x.clientWorkers x.serverWorkers} (hok : e.succeeds = true)
    (hs : s.step x e = some s') :
    ∃ ds' t' us' u', Runs x hv (ds ++ ds') t' (us ++ us') u' s' ∧
      s'.pending + (if e.progress then 1 else 0) ≤
        s.pending + ds'.length + us'.countP (·.progress) ∧
      us'.countP (!·.progress) ≤ if e.progress then 0 else 1 := by
  cases move_of_step hs with
  | @client p p' l r hcl h =>
    obtain ⟨t', ht'⟩ := hR.clientStep hcl h
    refine ⟨[.left], t', [], u, by rw [List.append_nil]; exact ht', ?_, by simp⟩
    have hle := NewProcessPhase.pending_ofProc_le (W := x.clientWorkers) p'
    rw [pending, pending, hcl]
    exact Nat.succ_le_succ (Nat.add_le_add_right hle _)
  | clientFails hcl hclosed h =>
    have hnew := hR.clientIn
    rw [hcl] at hnew
    rw [hR.server_open (by rw [show u.client = _ from hnew]; rfl)] at hclosed
    cases hclosed
  | clientHashed hcl =>
    refine ⟨[], t, [], u, by simpa using hR.clientHashed hcl, ?_, by simp⟩
    rw [pending, pending, hcl, Nat.add_right_comm]
    exact Nat.add_le_add_right (Nat.le_refl 1) _
  | clientHashFails => cases hok
  | @clientLoop a c e b c' hcl hstream h =>
    obtain ⟨u', hu'⟩ := hR.clientLoop hcl hok hstream h
    refine ⟨[], t, [.client e], u', by rw [List.append_nil]; exact hu', ?_, ?_⟩
    · rw [List.countP_singleton, pending, pending, hcl]
      exact le_rfl
    · rw [List.countP_singleton]
      simp only [ConnectionEvent.progress]
      split_ifs <;> simp_all
  | server hstream h =>
    obtain ⟨us', u', hu', hle, hcount⟩ := hR.step_server hok hstream h
    refine ⟨[], t, us', u', by rw [List.append_nil]; exact hu', ?_, hcount⟩
    simp only [pending, List.length_nil]
    omega
  | status ho hw =>
    have hin := hR.serverIn
    rw [hR.owed _ ho] at hin
    exact hin.elim

end Connection

end Deltasync
