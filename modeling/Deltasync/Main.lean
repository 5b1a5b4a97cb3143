import Deltasync.ServerFiles

/-!
# `main.rs`: the accept loop of the server

For a client that connects, the loop exchanges `client_count` from 0 to 1 and spawns a
task, which runs `process_new_client` and then stores 0; a client that connects while
the exchange fails is told `ClientAlreadyConnected`.  With `--one-shot` the loop waits
for the task and ends.  When the loop ends, `main` returns and the tasks are cancelled.

The tasks share the files of the server.  A step is one of the loop or one of a task;
nothing but `client_count` keeps the tasks apart.  Of what the server sends, only the
status of a client that is not served is part of the state.
-/

namespace Deltasync

open Dialogue Transition Handshake

/-- A task of the server.  `sent` is history: all that the client sends. -/
structure Task (W : ℕ) where
  sent : List UInt8
  phase : ProcessPhase W
  inbox : List UInt8
  /-- The task has stored 0 in `client_count`. -/
  ended : Bool

namespace Task

variable {W : ℕ}

def new (secret : String) (inp : List UInt8) : Task W where
  sent := inp
  phase := .ofProc (request secret)
  inbox := inp
  ended := false

/-- The function that the task runs, on the files of the server. -/
def process (t : Task W) (files : Files) : Process W := ⟨files, t.phase, t.inbox⟩

end Task

/-- The arguments of the program that the loop uses; `main` refuses a longer secret. -/
structure ServerArgs where
  secret : String
  oneShot : Bool
  secret_length : (asBytes secret).length ≤ 255

/-- Where the loop is. -/
inductive LoopPhase where
  /-- In `client_stream.next`. -/
  | next
  /-- A client has connected, which will send `inp`. -/
  | accepted (inp : List UInt8)
  /-- In `handle.await`. -/
  | awaiting (i : ℕ)
  /-- In `write_status`, for a client that is not served. -/
  | refusing
  | finished
  deriving DecidableEq, Repr

/-- The state of the server.  The last two fields are the tasks, in the order in which the clients
connected, and what each client that is not served was told. -/
structure Main (W : ℕ) where
  files : Files
  clientCount : UInt8
  loop : LoopPhase
  tasks : List (Task W)
  told : List (List UInt8)

inductive MainEvent (W : ℕ) where
  /-- `client_stream.next` is ready. -/
  | accept (r : Option (Except String (List UInt8)))
  | exchange
  | refused (r : Except String Unit)
  | joined
  /-- A step of `process_new_client` in a task. -/
  | task (i : ℕ) (e : ProcessEvent W)
  /-- `count.store(0)` of a task. -/
  | store (i : ℕ)

/-- `AtomicU8::compare_exchange`. -/
def compareExchange (v current new : UInt8) : Option UInt8 :=
  if v = current then some new else none

namespace Main

variable {W : ℕ}

def start (files : Files) : Main W where
  files := files
  clientCount := 0
  loop := .next
  tasks := []
  told := []

/-- The loop with the client that has connected. -/
def exchange (o : ServerArgs) (s : Main W) (inp : List UInt8) : Main W :=
  match compareExchange s.clientCount 0 1 with
  | some count =>
    { s with
      clientCount := count
      tasks := s.tasks ++ [.new o.secret inp]
      loop := if o.oneShot then .awaiting s.tasks.length else .next }
  | none => { s with loop := .refusing }

/-- A step of task `i`. -/
def taskStep (d : Digests) (s : Main W) (i : ℕ) (e : ProcessEvent W) : Option (Main W) :=
  match s.tasks[i]? with
  | none => none
  | some t =>
    if t.ended then none
    else
      ((t.process s.files).step d e).map fun p =>
        { s with
          files := p.files
          tasks := s.tasks.set i { t with phase := p.phase, inbox := p.inbox } }

def store (s : Main W) (i : ℕ) : Option (Main W) :=
  match s.tasks[i]? with
  | none => none
  | some t =>
    if t.ended = false ∧ t.phase.result.isSome then
      some { s with clientCount := 0, tasks := s.tasks.set i { t with ended := true } }
    else none

def step (o : ServerArgs) (d : Digests) (s : Main W) (e : MainEvent W) : Option (Main W) :=
  match s.loop, e with
  | .finished, _ => none
  | .next, .accept (some (.ok inp)) => some { s with loop := .accepted inp }
  | .next, .accept _ => some { s with loop := .finished }
  | .accepted inp, .exchange => some (s.exchange o inp)
  | .refusing, .refused r =>
    some { s with
      loop := .next
      told := s.told ++ [if r.isOk then [StatusCode.clientAlreadyConnected.toU8] else []] }
  | .awaiting i, .joined =>
    if (s.tasks[i]?).any (·.ended) then some { s with loop := .finished } else none
  | _, .task i e => s.taskStep d i e
  | _, .store i => s.store i
  | _, _ => none

variable {o : ServerArgs} {d : Digests} {files : Files} {s s' : Main W}

/-- Everything a step can do. -/
inductive Move (o : ServerArgs) (d : Digests) (s : Main W) : MainEvent W → Main W → Prop where
  | accept {inp} (hloop : s.loop = .next) :
      Move o d s (.accept (some (.ok inp))) { s with loop := .accepted inp }
  | acceptFails {r} (hloop : s.loop = .next) (hr : ∀ inp, r ≠ some (.ok inp)) :
      Move o d s (.accept r) { s with loop := .finished }
  | serve {inp} (hloop : s.loop = .accepted inp) (hcount : s.clientCount = 0) :
      Move o d s .exchange
        { s with
          clientCount := 1
          tasks := s.tasks ++ [.new o.secret inp]
          loop := if o.oneShot then .awaiting s.tasks.length else .next }
  | refuse {inp} (hloop : s.loop = .accepted inp) (hcount : s.clientCount ≠ 0) :
      Move o d s .exchange { s with loop := .refusing }
  | refused {r} (hloop : s.loop = .refusing) :
      Move o d s (.refused r)
        { s with
          loop := .next
          told := s.told ++ [if r.isOk then [StatusCode.clientAlreadyConnected.toU8] else []] }
  | joined {i t} (hloop : s.loop = .awaiting i) (ht : s.tasks[i]? = some t)
      (hend : t.ended = true) : Move o d s .joined { s with loop := .finished }
  | task {i t e p} (hloop : s.loop ≠ .finished) (ht : s.tasks[i]? = some t)
      (hend : t.ended = false) (h : (t.process s.files).step d e = some p) :
      Move o d s (.task i e)
        { s with
          files := p.files
          tasks := s.tasks.set i { t with phase := p.phase, inbox := p.inbox } }
  | store {i t} (hloop : s.loop ≠ .finished) (ht : s.tasks[i]? = some t) (hend : t.ended = false)
      (h : t.phase.result.isSome = true) :
      Move o d s (.store i)
        { s with clientCount := 0, tasks := s.tasks.set i { t with ended := true } }

theorem move_of_step {e : MainEvent W} (hs : s.step o d e = some s') : Move o d s e s' := by
  unfold step at hs
  split at hs
  case h_1 => cases hs
  case h_2 inp hloop =>
    obtain rfl := Option.some.inj hs
    exact .accept hloop
  case h_3 r hr hloop =>
    obtain rfl := Option.some.inj hs
    exact .acceptFails hloop fun inp h => hr inp h
  case h_4 inp hloop =>
    obtain rfl := Option.some.inj hs
    unfold exchange compareExchange
    by_cases hcount : s.clientCount = 0
    · rw [if_pos hcount]
      exact .serve hloop hcount
    · rw [if_neg hcount]
      exact .refuse hloop hcount
  case h_5 r hloop =>
    obtain rfl := Option.some.inj hs
    exact .refused hloop
  case h_6 i hloop =>
    obtain ⟨hany, hs⟩ := Option.ite_none_right_eq_some.mp hs
    obtain rfl := Option.some.inj hs
    cases ht : s.tasks[i]? with
    | none => simp [ht] at hany
    | some t => exact .joined hloop ht (by simpa [ht] using hany)
  case h_7 i e hloop =>
    unfold taskStep at hs
    split at hs
    case h_1 => cases hs
    case h_2 t ht =>
      split_ifs at hs with hend
      obtain ⟨p, hp, rfl⟩ := Option.map_eq_some_iff.mp hs
      exact .task hloop ht (by simpa using hend) hp
  case h_8 i hloop =>
    unfold store at hs
    split at hs
    case h_1 => cases hs
    case h_2 t ht =>
      obtain ⟨⟨hend, hres⟩, hs⟩ := Option.ite_none_right_eq_some.mp hs
      obtain rfl := Option.some.inj hs
      exact .store hloop ht hend hres
  case h_9 => cases hs

/-! ## One client at a time -/

/-- The clients are served one after the other: each task has run `process_new_client` from the
files that the one before it has left. -/
inductive Serial (d : Digests) (secret : String) (files : Files) :
    List (Task W) → Files → Prop where
  | nil : Serial d secret files [] files
  | concat {ts mid t now es} (hts : Serial d secret files ts mid)
      (hrun : run (Process.step d) (.start secret mid t.sent) es = some (t.process now)) :
      Serial d secret files (ts ++ [t]) now

theorem Serial.of_concat {secret : String} {ts : List (Task W)} {t : Task W} {now : Files}
    (h : Serial d secret files (ts ++ [t]) now) :
    ∃ mid es, Serial d secret files ts mid ∧
      run (Process.step d) (.start secret mid t.sent) es = some (t.process now) := by
  generalize hall : ts ++ [t] = all at h
  cases h with
  | nil => simp at hall
  | concat hts hrun =>
    obtain ⟨rfl, hlast⟩ := List.append_inj' hall rfl
    obtain rfl := List.singleton_inj.mp hlast
    exact ⟨_, _, hts, hrun⟩

/-- At most the last task runs, and `client_count` tells whether it does. -/
structure Exclusive (o : ServerArgs) (d : Digests) (files : Files) (s : Main W) : Prop where
  earlier : ∀ t ∈ s.tasks.dropLast, t.ended = true
  returned : ∀ t ∈ s.tasks, t.ended = true → t.phase.result.isSome = true
  count : s.clientCount = if s.tasks.all (·.ended) then 0 else 1
  serial : Serial d o.secret files s.tasks s.files

theorem exclusive_start (o : ServerArgs) (d : Digests) (files : Files) :
    (start files : Main W).Exclusive o d files where
  earlier := by simp [start]
  returned := by simp [start]
  count := rfl
  serial := .nil

/-- A task that has not ended is the last one. -/
theorem Exclusive.tasks_eq (hE : s.Exclusive o d files) {i : ℕ} {t : Task W}
    (ht : s.tasks[i]? = some t) (hend : t.ended = false) :
    ∃ ts, s.tasks = ts ++ [t] ∧ (∀ t' : Task W, s.tasks.set i t' = ts ++ [t']) ∧
      (∀ t' ∈ ts, t'.ended = true) ∧ ∀ t' ∈ ts, t'.phase.result.isSome = true := by
  rcases List.eq_nil_or_concat' s.tasks with hnil | ⟨ts, t', hts⟩
  · simp [hnil] at ht
  have hdone : ∀ t' ∈ ts, t'.ended = true := by simpa [hts] using hE.earlier
  have hres : ∀ t' ∈ ts, t'.phase.result.isSome = true := fun t' ht' =>
    hE.returned t' (by simp [hts, ht']) (hdone t' ht')
  rw [hts] at ht ⊢
  rcases Nat.lt_or_ge i ts.length with hlt | hge
  · rw [List.getElem?_append_left hlt] at ht
    have := hdone t (List.mem_of_getElem? ht)
    simp [hend] at this
  · rw [List.getElem?_append_right hge, List.getElem?_singleton] at ht
    obtain ⟨hi, ht⟩ := Option.ite_none_right_eq_some.mp ht
    obtain rfl := Option.some.inj ht
    obtain rfl : i = ts.length := by omega
    exact ⟨ts, rfl, by simp, hdone, hres⟩

theorem Exclusive.step (hE : s.Exclusive o d files) {e : MainEvent W}
    (hs : s.step o d e = some s') : s'.Exclusive o d files := by
  cases move_of_step hs with
  | accept | acceptFails | refuse | refused | joined =>
    exact ⟨hE.earlier, hE.returned, hE.count, hE.serial⟩
  | @serve inp hloop hcount =>
    have hall : s.tasks.all (·.ended) = true := by
      by_contra hrun
      rw [hE.count, if_neg hrun] at hcount
      cases hcount
    refine ⟨?_, ?_, ?_, ?_⟩
    · simpa using hall
    · rw [List.forall_mem_append, List.forall_mem_singleton]
      exact ⟨hE.returned, nofun⟩
    · simp [Task.new]
    · exact .concat hE.serial (run_nil _)
  | @task i t e p hloop ht hend h =>
    obtain ⟨ts, hts, hset, hdone, hres⟩ := hE.tasks_eq ht hend
    obtain ⟨mid, es, hmid, hrun⟩ := (hts ▸ hE.serial).of_concat
    have hcount : s.clientCount = 1 := by simpa [hts, hend] using hE.count
    refine ⟨?_, ?_, ?_, ?_⟩
    · rw [hset, List.dropLast_concat]
      exact hdone
    · rw [hset, List.forall_mem_append, List.forall_mem_singleton]
      exact ⟨fun t' ht' _ => hres t' ht', fun htrue => by simp [hend] at htrue⟩
    · rw [hset]
      simpa [hend] using hcount
    · rw [hset]
      exact .concat hmid (run_concat_eq_some.mpr ⟨_, hrun, h⟩)
  | @store i t hloop ht hend h =>
    obtain ⟨ts, hts, hset, hdone, hres⟩ := hE.tasks_eq ht hend
    obtain ⟨mid, es, hmid, hrun⟩ := (hts ▸ hE.serial).of_concat
    refine ⟨?_, ?_, ?_, ?_⟩
    · rw [hset, List.dropLast_concat]
      exact hdone
    · rw [hset, List.forall_mem_append, List.forall_mem_singleton]
      exact ⟨fun t' ht' _ => hres t' ht', fun _ => h⟩
    · rw [hset]
      simpa using hdone
    · rw [hset]
      exact .concat hmid hrun

theorem exclusive_of_run {es : List (MainEvent W)}
    (h : run (step o d) (start files) es = some s) : s.Exclusive o d files :=
  run_invariant (fun _ _ _ hE hs => hE.step hs) (exclusive_start o d files) h

/-! ## The clients that are not served -/

theorem doomed_newProcess (c : ClientProcessOptions) : Doomed (newProcess c) := by
  unfold newProcess
  split_ifs
  · exact ((doomed_checkStatus _).writeAll _).writeAll _
  · exact doomed_quit _

/-- Whatever becomes of `write_status`, `new_process` ends with an error. -/
theorem told_of_run {es : List (MainEvent W)} (h : run (step o d) (start files) es = some s) :
    ∀ l ∈ s.told, ∀ c, ∃ err, (newProcess c).alone l = .error err := by
  refine run_invariant
    (I := fun s : Main W => ∀ l ∈ s.told, ∀ c, ∃ err, (newProcess c).alone l = .error err)
    ?_ (by simp [start]) h
  intro u e t hu ht
  cases move_of_step ht with
  | accept | acceptFails | serve | refuse | joined | task | store => exact hu
  | @refused r hloop =>
    rw [List.forall_mem_append, List.forall_mem_singleton]
    refine ⟨hu, fun c => doomed_newProcess c _ ?_⟩
    split_ifs
    · exact .inr ⟨.clientAlreadyConnected, nofun, rfl⟩
    · exact .inl rfl

/-- The clients are served one at a time.  In every run of the server, with any clients and
whatever the order of the steps of the loop and of the tasks: the files are what the functions
leave when they run one after the other, in the order in which their clients connected; all but
the last have returned; a client that connects is served if all have, and is otherwise told so;
and a client that is not served gets an error. -/
theorem served_in_turn {es : List (MainEvent W)}
    (h : run (step o d) (start files) es = some s) :
    Serial d o.secret files s.tasks s.files ∧
      (∀ t ∈ s.tasks.dropLast, t.ended = true ∧ t.phase.result.isSome = true) ∧
      (∀ inp, s.loop = .accepted inp →
        ∃ s', s.step o d .exchange = some s' ∧
          if s.tasks.all (·.ended) then s'.tasks = s.tasks ++ [.new o.secret inp]
          else s'.tasks = s.tasks ∧ s'.loop = .refusing) ∧
      ∀ l ∈ s.told, ∀ c, ∃ err, (newProcess c).alone l = .error err := by
  have hE := exclusive_of_run h
  refine ⟨hE.serial, ?_, ?_, told_of_run h⟩
  · intro t ht
    have hend := hE.earlier t ht
    exact ⟨hend, hE.returned t (List.mem_of_mem_dropLast ht) hend⟩
  · intro inp hloop
    refine ⟨s.exchange o inp, by simp [step, hloop], ?_⟩
    have hcount := hE.count
    split_ifs at hcount ⊢
    · simp [exchange, compareExchange, hcount]
    · simp [exchange, compareExchange, hcount]

/-- A server without a secret. -/
def openServer (oneShot : Bool) : ServerArgs where
  secret := ""
  oneShot := oneShot
  secret_length := by decide

/-- A client with another secret is refused. -/
def refuseSecret (i : ℕ) : List (MainEvent 1) :=
  List.replicate 4 (.task i (.io false)) ++ [.store i]

/-- A second client connects too early, a third one in time. -/
def threeClients : List (MainEvent 1) :=
  [.accept (some (.ok [1])), .exchange, .accept (some (.ok [])), .exchange, .refused (.ok ())] ++
    refuseSecret 0 ++ [.accept (some (.ok [])), .exchange]

theorem served_in_turn_threeClients :
    ∃ s, run (step (openServer false) crcDigests) (start fun _ => none) threeClients = some s ∧
      s.tasks.length = 2 ∧ s.told = [[4]] ∧
      Serial crcDigests "" (fun _ => none) s.tasks s.files ∧
      ∀ c, ∃ err, (newProcess c).alone [4] = .error err := by
  have hrun : (run (step (openServer false) crcDigests) (start fun _ => none) threeClients).map
      (fun s => (s.tasks.length, s.told)) = some (2, [[4]]) := by decide +kernel
  obtain ⟨s, hs, heq⟩ := Option.map_eq_some_iff.mp hrun
  simp only [Prod.mk.injEq] at heq
  obtain ⟨hserial, -, -, htold⟩ := served_in_turn hs
  exact ⟨s, hs, heq.1, heq.2, hserial, htold [4] (by simp [heq.2])⟩

/-! ## Which files may change -/

/-- The tasks are for clients that have connected. -/
def Connected (es : List (MainEvent W)) (s : Main W) : Prop :=
  (∀ t ∈ s.tasks, .accept (some (.ok t.sent)) ∈ es) ∧
    ∀ inp, s.loop = .accepted inp → .accept (some (.ok inp)) ∈ es

theorem Connected.step {es : List (MainEvent W)} (hC : s.Connected es) {e : MainEvent W}
    (hs : s.step o d e = some s') : s'.Connected (es ++ [e]) := by
  have htasks : ∀ t ∈ s.tasks, .accept (some (.ok t.sent)) ∈ es ++ [e] := fun t ht =>
    List.mem_append_left _ (hC.1 t ht)
  have hset : ∀ {i : ℕ} {t t' : Task W}, s.tasks[i]? = some t → t'.sent = t.sent →
      ∀ t'' ∈ s.tasks.set i t', .accept (some (.ok t''.sent)) ∈ es ++ [e] := by
    intro i t t' ht heq t'' ht''
    rcases List.mem_or_eq_of_mem_set ht'' with hmem | rfl
    · exact htasks t'' hmem
    · rw [heq]
      exact htasks t (List.mem_of_getElem? ht)
  cases move_of_step hs with
  | @accept inp hloop =>
    refine ⟨htasks, fun inp' heq => ?_⟩
    obtain rfl := LoopPhase.accepted.inj heq
    simp
  | @serve inp hloop hcount =>
    refine ⟨?_, fun inp' heq => ?_⟩
    · rw [List.forall_mem_append, List.forall_mem_singleton]
      exact ⟨htasks, List.mem_append_left _ (hC.2 inp hloop)⟩
    · dsimp only at heq
      split_ifs at heq
  | acceptFails | refuse | refused | joined => exact ⟨htasks, nofun⟩
  | task hloop ht hend h =>
    exact ⟨hset ht rfl, fun inp heq => List.mem_append_left _ (hC.2 inp heq)⟩
  | store hloop ht hend h =>
    exact ⟨hset ht rfl, fun inp heq => List.mem_append_left _ (hC.2 inp heq)⟩

/-- A file that differs was the destination of one of the clients served. -/
theorem Serial.changed {secret : String} {ts : List (Task W)} {now : Files} {path : String}
    (h : Serial d secret files ts now) (hne : now path ≠ files path) :
    ∃ t ∈ ts, ∃ a, Process.Asked secret t.sent a ∧ a.destPath = path := by
  induction h with
  | nil => exact absurd rfl hne
  | @concat ts mid t now es hts hrun ih =>
    by_cases heq : now path = mid path
    · obtain ⟨t', ht', hasked⟩ := ih (by rwa [← heq])
      exact ⟨t', List.mem_append_left _ ht', hasked⟩
    · have hconf : Process.Confined secret mid t.sent (t.process now) :=
        run_invariant (fun _ _ _ h hs => h.step hs) Process.confined_start hrun
      obtain ⟨a, ha⟩ := hconf.changed fun hall => heq (congrFun hall path)
      refine ⟨t, by simp, a, ha.asked, ?_⟩
      by_contra hpath
      exact heq (ha.others path (Ne.symm hpath))

/-- Over the whole life of the server, a file changes only if a client has connected and sent a
well-formed request with the secret for it. -/
theorem changes_authenticated {es : List (MainEvent W)} {path : String}
    (h : run (step o d) (start files) es = some s) (hne : s.files path ≠ files path) :
    ∃ inp blockSize filesize force hashAlgorithm rest,
      .accept (some (.ok inp)) ∈ es ∧
      inp = requestBytes o.secret path blockSize filesize force hashAlgorithm ++ rest ∧
      (asBytes path).length ≤ 4096 ∧ (1 ≤ blockSize ∧ blockSize ≤ 2 ^ 30) ∧
      filesize < 2 ^ 64 := by
  have hconn : s.Connected es :=
    run_induction (P := fun es (s : Main W) => s.Connected es)
      ⟨by simp [start], by simp [start]⟩ (fun _ _ _ _ _ h hs => h.step hs) h
  obtain ⟨t, ht, a, ⟨x, rest, hsent, hacc⟩, rfl⟩ := (exclusive_of_run h).serial.changed hne
  obtain ⟨force, rfl, hpath, hblock, hfile, -⟩ := accepts_request hacc
  exact ⟨t.sent, _, _, force, _, rest, hconn.1 t ht, hsent, hpath, hblock, hfile⟩

theorem changes_authenticated_newFile :
    ∃ s, run (step (openServer false) crcDigests) (start fun _ => none)
        ([.accept (some (.ok (Process.newFile 2))), .exchange] ++
          (Process.createRun (.ok ())).map (.task 0)) = some s ∧
      s.files "a" = some [0, 0] ∧
      ∃ inp blockSize filesize force hashAlgorithm rest,
        inp = requestBytes "" "a" blockSize filesize force hashAlgorithm ++ rest ∧
        filesize < 2 ^ 64 := by
  have hrun : (run (step (openServer false) crcDigests) (start fun _ => none)
      ([.accept (some (.ok (Process.newFile 2))), .exchange] ++
        (Process.createRun (.ok ())).map (.task 0))).map (fun s => s.files "a") =
      some (some [0, 0]) := by decide +kernel
  obtain ⟨s, hs, hfile⟩ := Option.map_eq_some_iff.mp hrun
  obtain ⟨inp, blockSize, filesize, force, hashAlgorithm, rest, -, hinp, -, -, hlt⟩ :=
    changes_authenticated hs (show s.files "a" ≠ none by simp [hfile])
  exact ⟨s, hs, hfile, inp, blockSize, filesize, force, hashAlgorithm, rest, hinp, hlt⟩

/-! ## One-shot mode -/

/-- No more than one client is served, and none is told anything else. -/
def Single (es : List (MainEvent W)) (s : Main W) : Prop :=
  s.told = [] ∧
    match s.loop with
    | .next | .accepted _ => s.tasks = []
    | .awaiting i => i = 0 ∧ ∃ t, s.tasks = [t]
    | .refusing => False
    | .finished =>
      s.tasks = [] ∧ (∃ r, .accept r ∈ es ∧ ∀ inp, r ≠ some (.ok inp)) ∨
        ∃ t, s.tasks = [t] ∧ t.ended = true

/-- A step of a task leaves the number of them as it is. -/
theorem Single.setTask {es : List (MainEvent W)} (hS : s.Single es) {i : ℕ} {t : Task W}
    (hloop : s.loop ≠ .finished) (ht : s.tasks[i]? = some t) (es' : List (MainEvent W))
    (now : Files) (count : UInt8) (t' : Task W) :
    Single es' { s with files := now, clientCount := count, tasks := s.tasks.set i t' } := by
  obtain ⟨htold, hS⟩ := hS
  refine ⟨htold, ?_⟩
  cases hph : s.loop with
  | next | accepted inp =>
    rw [hph] at hS
    simp [hS] at ht
  | awaiting j =>
    rw [hph] at hS
    obtain ⟨hj, t₀, hts⟩ := hS
    exact ⟨hj, List.length_eq_one_iff.mp (by simp [hts])⟩
  | refusing =>
    rw [hph] at hS
    exact hS.elim
  | finished => exact absurd hph hloop

theorem Single.step (hone : o.oneShot = true) {es : List (MainEvent W)}
    (hE : s.Exclusive o d files) (hS : s.Single es) {e : MainEvent W}
    (hs : s.step o d e = some s') : s'.Single (es ++ [e]) := by
  obtain ⟨htold, hS⟩ := hS
  cases move_of_step hs with
  | accept hloop =>
    rw [hloop] at hS
    exact ⟨htold, hS⟩
  | @acceptFails r hloop hr =>
    rw [hloop] at hS
    exact ⟨htold, .inl ⟨hS, r, by simp, hr⟩⟩
  | serve hloop hcount =>
    rw [hloop] at hS
    refine ⟨htold, ?_⟩
    simp [hone, hS]
  | refuse hloop hcount =>
    rw [hloop] at hS
    exact absurd (by rw [hE.count, hS]; rfl) hcount
  | refused hloop =>
    rw [hloop] at hS
    exact hS.elim
  | joined hloop ht hend =>
    rw [hloop] at hS
    obtain ⟨rfl, t, hts⟩ := hS
    rw [hts] at ht
    obtain rfl := Option.some.inj ht
    exact ⟨htold, .inr ⟨_, hts, hend⟩⟩
  | task hloop ht hend h | store hloop ht hend h =>
    exact Single.setTask ⟨htold, hS⟩ hloop ht _ _ _ _

/-- A one-shot server serves one client, to the end, and tells no other one anything; unless
accepting a client fails before. -/
theorem one_shot_serves_one (hone : o.oneShot = true) {es : List (MainEvent W)}
    (h : run (step o d) (start files) es = some s) :
    s.told = [] ∧ s.tasks.length ≤ 1 ∧
      (s.loop = .finished →
        (∃ t, s.tasks = [t] ∧ t.ended = true ∧ t.phase.result.isSome = true) ∨
          s.tasks = [] ∧ ∃ r, .accept r ∈ es ∧ ∀ inp, r ≠ some (.ok inp)) := by
  have hE := exclusive_of_run h
  have hS : s.Single es :=
    run_induction (P := fun es (s : Main W) => s.Single es) ⟨rfl, rfl⟩
      (fun _ u _ _ hu h hs => h.step hone (exclusive_of_run hu) hs) h
  obtain ⟨htold, hS⟩ := hS
  refine ⟨htold, ?_, fun hloop => ?_⟩
  · split at hS
    case h_1 | h_2 => simp [hS]
    case h_3 =>
      obtain ⟨-, t, hts⟩ := hS
      simp [hts]
    case h_4 => exact hS.elim
    case h_5 =>
      rcases hS with ⟨hts, -⟩ | ⟨t, hts, -⟩ <;> simp [hts]
  · rw [hloop] at hS
    rcases hS with hfail | ⟨t, hts, hend⟩
    · exact .inr hfail
    · exact .inl ⟨t, hts, hend, hE.returned t (by simp [hts]) hend⟩

theorem one_shot_serves_one_refused :
    ∃ s, run (step (openServer true) crcDigests) (start fun _ => none)
        ([.accept (some (.ok [1])), .exchange] ++ refuseSecret 0 ++ [.joined]) = some s ∧
      s.loop = .finished ∧ ∃ t, s.tasks = [t] ∧ t.ended = true ∧ t.phase.result.isSome = true := by
  have hrun : (run (step (openServer true) crcDigests) (start fun _ => none)
      ([.accept (some (.ok [1])), .exchange] ++ refuseSecret 0 ++ [.joined])).map
        (fun s => (s.loop, s.tasks.length)) = some (.finished, 1) := by decide +kernel
  obtain ⟨s, hs, heq⟩ := Option.map_eq_some_iff.mp hrun
  simp only [Prod.mk.injEq] at heq
  refine ⟨s, hs, heq.1, ?_⟩
  rcases (one_shot_serves_one rfl hs).2.2 heq.1 with hserved | ⟨hnil, -⟩
  · exact hserved
  · simp [hnil] at heq

end Main

end Deltasync
