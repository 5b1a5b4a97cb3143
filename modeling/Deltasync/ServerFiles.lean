import Deltasync.ServerProcess

/-!
# What `process_new_client` does to the files of the server

Before the third `Ack`, only `File::create` and `set_len` change a file, and they come
after the whole request of the peer and the test of the metadata.  After it only the
loop does, which writes to the destination.
-/

namespace Deltasync

open BigEndian Blocks Dialogue Transition Handshake

namespace Process

variable {W : ℕ} {d : Digests} {secret : String} {files : Files} {inp : List UInt8}
  {s s' : Process W} {a : Agreement}

/-! ## Which files may change -/

/-- The peer has sent a request for `a`. -/
def Asked (secret : String) (inp : List UInt8) (a : Agreement) : Prop :=
  ∃ x rest, inp = x ++ rest ∧ (request secret).Accepts x a

/-- The destination is not there, or has the size that is asked for, or may get it. -/
def Allowed (files : Files) (a : Agreement) : Prop :=
  files a.destPath = none ∨
    (∃ content, files a.destPath = some content ∧ content.length = a.filesize) ∨
    a.forceTruncate = true

/-- A request that may be answered, when the files are now `now`: no other one has changed. -/
structure Touches (secret : String) (files : Files) (inp : List UInt8) (now : Files)
    (a : Agreement) : Prop where
  asked : Asked secret inp a
  allowed : Allowed files a
  others : ∀ path, path ≠ a.destPath → now path = files path

/-- What may have happened to the files, by where the function is. -/
def Confined (secret : String) (files : Files) (inp : List UInt8) (s : Process W) : Prop :=
  match s.phase with
  | .handshake p =>
    s.files = files ∧ ∃ x, inp = x ++ s.inbox ∧
      ∀ y a, p.Accepts y a → (request secret).Accepts (x ++ y) a
  | .metadata a => s.files = files ∧ Asked secret inp a
  | .opening a | .creating a => s.files = files ∧ Touches secret files inp s.files a
  | .sizing a | .acking a | .hashing a | .openingDest a _ | .session a _ _ =>
    Touches secret files inp s.files a
  | .stopped _ | .failed _ => s.files = files ∨ ∃ a, Touches secret files inp s.files a

/-- The destination may change. -/
theorem Touches.update {now : Files} (h : Touches secret files inp now a)
    (content : Option (List UInt8)) :
    Touches secret files inp (Function.update now a.destPath content) a where
  asked := h.asked
  allowed := h.allowed
  others := by
    intro path hne
    rw [Function.update_of_ne hne]
    exact h.others path hne

theorem confined_ofProc {p : ServerProc} {x inbox : List UInt8} (hx : inp = x ++ inbox)
    (hacc : ∀ y a, p.Accepts y a → (request secret).Accepts (x ++ y) a) :
    Confined secret files inp (⟨files, .ofProc p, inbox⟩ : Process W) := by
  cases p with
  | pass a =>
    refine ⟨rfl, x, inbox, hx, ?_⟩
    simpa using hacc [] a (.pass a)
  | quit e => exact .inl rfl
  | write bytes err next => exact ⟨rfl, x, hx, hacc⟩
  | read n next => exact ⟨rfl, x, hx, hacc⟩

theorem confined_start : Confined secret files inp (start secret files inp : Process W) :=
  confined_ofProc (x := []) rfl fun _ _ h => h

/-- The test of the metadata. -/
theorem confined_afterMetadata {r : Except (ErrorKind × String) ℕ} {inbox : List UInt8}
    (hasked : Asked secret inp a) (h : files.answers a.destPath r = true) :
    Confined secret files inp (⟨files, .afterMetadata a r, inbox⟩ : Process W) := by
  match r with
  | .ok len =>
    have hlen : (files a.destPath).map List.length = some len := by simpa [Files.answers] using h
    obtain ⟨content, hcontent, rfl⟩ := Option.map_eq_some_iff.mp hlen
    rw [ProcessPhase.afterMetadata]
    split_ifs with hok
    · refine ⟨rfl, hasked, ?_, fun _ _ => rfl⟩
      exact .inr (hok.imp (fun hsize => ⟨content, hcontent, hsize⟩) id)
    · exact .inl rfl
  | .error (.notFound, _) =>
    exact ⟨rfl, hasked, .inl (Option.isNone_iff_eq_none.mp h), fun _ _ => rfl⟩
  | .error (.permissionDenied, _) => exact .inl rfl
  | .error (.other, _) => exact .inl rfl

theorem Confined.step (h : Confined secret files inp s) {e : ProcessEvent W}
    (hs : s.step d e = some s') : Confined secret files inp s' := by
  cases move_of_step hs with
  | handshake hph hserve =>
    simp only [Confined, hph] at h
    obtain ⟨rfl, x, rfl, hacc⟩ := h
    obtain ⟨y, hy, hback⟩ := Proc.accepts_of_serve hserve
    refine confined_ofProc (x := x ++ y) (by rw [hy, List.append_assoc]) ?_
    intro z a hz
    rw [List.append_assoc]
    exact hacc (y ++ z) a (hback z a hz)
  | metadata hph hans =>
    simp only [Confined, hph] at h
    obtain ⟨rfl, hasked⟩ := h
    exact confined_afterMetadata hasked hans
  | openOk hph _ =>
    simp only [Confined, hph] at h
    exact h.2
  | createOk hph =>
    simp only [Confined, hph] at h
    exact h.2.update _
  | openError hph | createError hph =>
    simp only [Confined, hph] at h
    exact .inl h.1
  | setLenOk hph _ | session hph _ _ =>
    simp only [Confined, hph] at h
    exact h.update _
  | ackOk hph | hashFileOk hph _ | openDestOk hph _ =>
    simp only [Confined, hph] at h
    exact h
  | setLenError hph | ackError hph | hashFileError hph | openDestError hph =>
    simp only [Confined, hph] at h
    exact .inr ⟨_, h⟩

theorem Confined.changed (h : Confined secret files inp s) (hne : s.files ≠ files) :
    ∃ a, Touches secret files inp s.files a := by
  cases hph : s.phase with
  | handshake | metadata | opening | creating =>
    simp only [Confined, hph] at h
    exact absurd h.1 hne
  | sizing | acking | hashing | openingDest | session =>
    simp only [Confined, hph] at h
    exact ⟨_, h⟩
  | stopped | failed =>
    simp only [Confined, hph] at h
    exact h.resolve_left hne

/-- The function changes a file only when the peer sends a well-formed request with the secret,
and then only the destination, which was not there, or had the size, or may be truncated. -/
theorem changes_only_dest {es : List (ProcessEvent W)}
    (h : run (step d) (start secret files inp) es = some s) (hne : s.files ≠ files) :
    ∃ destPath blockSize filesize force hashAlgorithm rest,
      inp = requestBytes secret destPath blockSize filesize force hashAlgorithm ++ rest ∧
      (asBytes destPath).length ≤ 4096 ∧ (1 ≤ blockSize ∧ blockSize ≤ 2 ^ 30) ∧
      filesize < 2 ^ 64 ∧
      (files destPath = none ∨
        (∃ content, files destPath = some content ∧ content.length = filesize) ∨ force ≠ 0) ∧
      ∀ path, path ≠ destPath → s.files path = files path := by
  have hconf : Confined secret files inp s :=
    run_invariant (fun _ _ _ h hs => h.step hs) confined_start h
  obtain ⟨a, ⟨x, rest, hinp, hacc⟩, hallowed, hothers⟩ := hconf.changed hne
  obtain ⟨force, rfl, hpath, hblock, hfile, hforce⟩ := accepts_request hacc
  refine ⟨_, _, _, force, _, rest, hinp, hpath, hblock, hfile, ?_, hothers⟩
  refine hallowed.imp_right (Or.imp_right fun htrue => ?_)
  rw [hforce] at htrue
  exact of_decide_eq_true htrue

/-- A request for a file `a` that is not there. -/
def newFile (filesize : ℕ) : List UInt8 := requestBytes "" "a" 1 filesize 0 .crc32

/-- The file is created; `r` is what `set_len` returns. -/
def createRun (r : Except String Unit) : List (ProcessEvent 1) :=
  List.replicate 42 (.io false) ++
    [.metadata (.error (.notFound, "")), .create (.ok ()), .setLen r]

theorem changes_only_dest_newFile :
    ∃ s, run (step crcDigests) (start "" (fun _ => none) (newFile 2)) (createRun (.ok ())) =
        some s ∧
      s.files "a" = some [0, 0] ∧ ∀ path, path ≠ "a" → s.files path = none := by
  have hrun : (run (step crcDigests) (start "" (fun _ => none) (newFile 2))
      (createRun (.ok ()))).map (fun s => s.files "a") = some (some [0, 0]) := by decide +kernel
  obtain ⟨s, hs, hfile⟩ := Option.map_eq_some_iff.mp hrun
  have hne : s.files ≠ fun _ => none := by
    intro h
    rw [h] at hfile
    cases hfile
  obtain ⟨destPath, _, _, _, _, _, -, -, -, -, -, hothers⟩ := changes_only_dest hs hne
  obtain rfl : destPath = "a" := by
    by_contra hpath
    rw [hothers "a" (Ne.symm hpath)] at hfile
    cases hfile
  exact ⟨s, hs, hfile, hothers⟩

/-! ## What a refused or failed preparation leaves behind -/

variable {es : List (ProcessEvent W)}

/-- What may have happened to the files, by where the preparation is: until `File::create` has
succeeded they are as they were. -/
def Prepared (files : Files) (es : List (ProcessEvent W)) (s : Process W) : Prop :=
  match s.phase with
  | .handshake _ | .metadata _ | .opening _ => s.files = files ∧ .create (.ok ()) ∉ es
  | .creating a => s.files = files ∧ .create (.ok ()) ∉ es ∧ files a.destPath = none
  | .sizing a =>
    s.files = files ∧ .create (.ok ()) ∉ es ∨
      s.files a.destPath ≠ files a.destPath ∧ .create (.ok ()) ∈ es
  | .stopped _ =>
    s.files = files ↔ ¬ (.create (.ok ()) ∈ es ∧ ∃ err, .setLen (.error err) ∈ es)
  | _ => True

theorem prepared_of_eq (hfiles : s.files = files) (hes : .create (.ok ()) ∉ es)
    (hnone : ∀ a, s.phase = .creating a → files a.destPath = none) : Prepared files es s := by
  cases hph : s.phase with
  | handshake | metadata | opening =>
    simp only [Prepared, hph]
    exact ⟨hfiles, hes⟩
  | creating a =>
    simp only [Prepared, hph]
    exact ⟨hfiles, hes, hnone a hph⟩
  | sizing a =>
    simp only [Prepared, hph]
    exact .inl ⟨hfiles, hes⟩
  | stopped e =>
    simp only [Prepared, hph]
    exact iff_of_true hfiles fun hboth => hes hboth.1
  | acking | hashing | openingDest | session | failed => simp only [Prepared, hph]

theorem afterMetadata_creating {r : Except (ErrorKind × String) ℕ} {a' : Agreement}
    (h : files.answers a.destPath r = true)
    (hph : (.afterMetadata a r : ProcessPhase W) = .creating a') :
    files a'.destPath = none := by
  match r with
  | .ok len =>
    rw [ProcessPhase.afterMetadata] at hph
    split_ifs at hph
  | .error (.notFound, _) =>
    obtain rfl : a = a' := by simpa [ProcessPhase.afterMetadata] using hph
    exact Option.isNone_iff_eq_none.mp h
  | .error (.permissionDenied, _) => cases hph
  | .error (.other, _) => cases hph

theorem ofProc_ne_creating (p : ServerProc) (a : Agreement) :
    (.ofProc p : ProcessPhase W) ≠ .creating a := by
  cases p <;> exact nofun

theorem Prepared.step (h : Prepared files es s) {e : ProcessEvent W}
    (hs : s.step d e = some s') : Prepared files (es ++ [e]) s' := by
  cases move_of_step hs with
  | handshake hph _ =>
    simp only [Prepared, hph] at h
    exact prepared_of_eq h.1 (by simpa using h.2) fun a hph => absurd hph (ofProc_ne_creating _ a)
  | metadata hph hans =>
    simp only [Prepared, hph] at h
    obtain ⟨rfl, hes⟩ := h
    exact prepared_of_eq rfl (by simpa using hes) fun a => afterMetadata_creating hans
  | openOk hph _ | openError hph =>
    simp only [Prepared, hph] at h
    exact prepared_of_eq h.1 (by simpa using h.2) nofun
  | createError hph =>
    simp only [Prepared, hph] at h
    exact prepared_of_eq h.1 (by simpa using h.2.1) nofun
  | createOk hph =>
    simp only [Prepared, hph] at h
    refine .inr ⟨?_, by simp⟩
    rw [h.2.2]
    simp [setFile]
  | @setLenError a err hph =>
    simp only [Prepared, hph] at h
    rcases h with ⟨hfiles, hes⟩ | ⟨hne, hes⟩
    · exact prepared_of_eq hfiles (by simpa using hes) nofun
    -- the file that was created is still there
    · refine iff_of_false (fun hfiles => hne (by rw [← hfiles])) (not_not.mpr ⟨?_, err, ?_⟩)
      · exact List.mem_append_left _ hes
      · exact List.mem_concat_self
  | setLenOk | ackOk | ackError | hashFileOk | hashFileError | openDestOk | openDestError |
    session => trivial

/-- A peer that is refused, or for which the preparation fails, leaves the files as they were,
unless `File::create` has succeeded and `set_len` has failed. -/
theorem stopped_files_eq_iff (h : run (step d) (start secret files inp) es = some s) {e : Ending}
    (hph : s.phase = .stopped e) :
    s.files = files ↔ ¬ (.create (.ok ()) ∈ es ∧ ∃ err, .setLen (.error err) ∈ es) := by
  have h0 : Prepared files [] (start secret files inp : Process W) :=
    prepared_of_eq rfl (by simp) fun a hph => absurd hph (ofProc_ne_creating (request secret) a)
  have hprep : Prepared files es s := run_induction h0 (fun _ _ _ _ _ h hs => h.step hs) h
  simpa only [Prepared, hph] using hprep

/-- How a peer was turned away. -/
def ending (s : Process W) : Option Ending :=
  match s.phase with
  | .stopped e => some e
  | _ => none

theorem phase_of_ending {e : Ending} (h : s.ending = some e) : s.phase = .stopped e := by
  unfold ending at h
  split at h
  case h_1 e' hph => rw [hph, Option.some.inj h]
  case h_2 => cases h

/-- The request is for another size than the file has. -/
def refuseRun (size : ℕ) : List (ProcessEvent 1) :=
  List.replicate 42 (.io false) ++ [.metadata (.ok size)]

theorem stopped_files_eq_iff_refused :
    ∃ s, run (step crcDigests) (start "" (fun _ => some [7]) (newFile 2)) (refuseRun 1) = some s ∧
      s.ending = some (.refused .fileSizeDiffers) ∧ s.files = fun _ => some [7] := by
  have hrun : (run (step crcDigests) (start "" (fun _ => some [7]) (newFile 2))
      (refuseRun 1)).map ending = some (some (.refused .fileSizeDiffers)) := by decide +kernel
  obtain ⟨s, hs, hend⟩ := Option.map_eq_some_iff.mp hrun
  refine ⟨s, hs, hend, (stopped_files_eq_iff hs (phase_of_ending hend)).mpr ?_⟩
  simp [refuseRun]

/-- A size that `set_len` refuses leaves an empty file, and the next request for it is refused. -/
theorem createRun_leaves_file :
    ∃ s, run (step crcDigests) (start "" (fun _ => none) (newFile (2 ^ 63)))
        (createRun (.error "out of range integral type conversion attempted")) = some s ∧
      s.phase = .stopped (.failed "out of range integral type conversion attempted") ∧
      s.files "a" = some [] ∧
      ∃ s', run (step crcDigests) (start "" s.files (newFile (2 ^ 63))) (refuseRun 0) = some s' ∧
        s'.phase = .stopped (.refused .fileSizeDiffers) := by
  have hrun : ((run (step crcDigests) (start "" (fun _ => none) (newFile (2 ^ 63)))
      (createRun (.error "out of range integral type conversion attempted"))).bind fun s =>
      (run (step crcDigests) (start "" s.files (newFile (2 ^ 63))) (refuseRun 0)).map fun s' =>
        (s.ending, s.files "a", s'.ending)) =
      some (some (.failed "out of range integral type conversion attempted"), some [],
        some (.refused .fileSizeDiffers)) := by decide +kernel
  obtain ⟨s, hs, hretry⟩ := Option.bind_eq_some_iff.mp hrun
  obtain ⟨s', hs', heq⟩ := Option.map_eq_some_iff.mp hretry
  simp only [Prod.mk.injEq] at heq
  obtain ⟨hend, hfile, hend'⟩ := heq
  exact ⟨s, hs, phase_of_ending hend, hfile, s', hs', phase_of_ending hend'⟩

end Process

end Deltasync
