import Deltasync.Common

/-!
# Calls that are cancelled and made again

A resumable function is called until it returns; at every await the call may be
dropped, and another one made later.  `Sender` writes several structs one after
the other to a socket that takes some of the bytes offered, `Receiver` reads
from a stream that ends, in pieces of any size.  What they come to does not
depend on the pieces nor on the cancellations: it is said by the bytes that a
struct has `remaining`, and by a decoder of whole frames.
-/

namespace Deltasync

open Transition

/-! ## Writing -/

/-- A resumable `async fn` that writes. -/
structure WriteFn (σ : Type) where
  enter : σ → σ × Await (List UInt8) Unit
  onWrite : σ → Except String ℕ → σ × Await (List UInt8) Unit

/-- The structs still to be written, the first of them under way; `pending` is the slice
that a call waiting at its await has offered. -/
structure Sender (σ : Type) where
  queue : List σ
  pending : Option (List UInt8)
  emitted : List UInt8

inductive SenderEvent where
  | invoke
  /-- The socket accepts `n` bytes of the slice. -/
  | ready (n : ℕ)
  | cancel

namespace Sender

variable {σ : Type}

def new (queue : List σ) : Sender σ := { queue, pending := none, emitted := [] }

/-- The call stands at its next await, or has returned. -/
def resume (t : Sender σ) (rest : List σ) : σ × Await (List UInt8) Unit → Sender σ
  | (w, .io slice) => { t with queue := w :: rest, pending := some slice }
  | (_, .done _) => { t with queue := rest, pending := none }

def step (f : WriteFn σ) (t : Sender σ) : SenderEvent → Option (Sender σ)
  | .invoke =>
    match t.queue, t.pending with
    | w :: rest, none => some (t.resume rest (f.enter w))
    | _, _ => none
  | .ready n =>
    match t.queue, t.pending with
    | w :: rest, some slice =>
      if 0 < n ∧ n ≤ slice.length then
        some ({ t with emitted := t.emitted ++ slice.take n }.resume rest (f.onWrite w (.ok n)))
      else none
    | _, _ => none
  | .cancel =>
    match t.pending with
    | some _ => some { t with pending := none }
    | none => none

end Sender

/-- Where a call comes to when `rem` is still to be written.  At an await, the call of a
struct in the same state would wait for the same thing. -/
def WriteFn.Leads {σ : Type} (f : WriteFn σ) (remaining : σ → List UInt8) (Ok : σ → Prop)
    (rem : List UInt8) : σ × Await (List UInt8) Unit → Prop
  | (w, .io slice) =>
    Ok w ∧ remaining w = rem ∧ slice ≠ [] ∧ slice <+: rem ∧ f.enter w = (w, .io slice)
  | (_, .done r) => rem = [] ∧ r = .ok ()

/-- `remaining` says what is left to write of a struct. -/
structure WriteFn.Spec {σ : Type} (f : WriteFn σ) (remaining : σ → List UInt8) (Ok : σ → Prop) :
    Prop where
  enter : ∀ w, Ok w → f.Leads remaining Ok (remaining w) (f.enter w)
  onWrite : ∀ w slice n, Ok w → f.enter w = (w, .io slice) → n ≤ slice.length →
    f.Leads remaining Ok ((remaining w).drop n) (f.onWrite w (.ok n))

namespace Sender

variable {σ : Type} {f : WriteFn σ} {remaining : σ → List UInt8} {Ok : σ → Prop}
  {whole : List UInt8} {t t' : Sender σ}

/-- What is emitted and what the queue has left make up the whole. -/
structure Sends (f : WriteFn σ) (remaining : σ → List UInt8) (Ok : σ → Prop) (whole : List UInt8)
    (t : Sender σ) : Prop where
  ok : ∀ w ∈ t.queue, Ok w
  whole_eq : t.emitted ++ t.queue.flatMap remaining = whole
  pending : ∀ slice, t.pending = some slice → ∃ w rest, t.queue = w :: rest ∧ slice ≠ [] ∧
    slice <+: remaining w ∧ f.enter w = (w, .io slice)

theorem sends_new {ws : List σ} (hws : ∀ w ∈ ws, Ok w) :
    Sends f remaining Ok (ws.flatMap remaining) (new ws) :=
  ⟨hws, rfl, fun _ h => by cases h⟩

theorem sends_resume {rest : List σ} {rem : List UInt8} {p : σ × Await (List UInt8) Unit}
    (hok : ∀ w ∈ rest, Ok w) (hwhole : t.emitted ++ (rem ++ rest.flatMap remaining) = whole)
    (hp : f.Leads remaining Ok rem p) : Sends f remaining Ok whole (t.resume rest p) := by
  obtain ⟨w, a⟩ := p
  cases a with
  | io slice =>
    obtain ⟨hw, hrem, hne, hpre, henter⟩ := hp
    refine ⟨?_, ?_, ?_⟩
    · intro v hv
      rcases List.mem_cons.mp hv with rfl | hv
      · exact hw
      · exact hok v hv
    · show t.emitted ++ (w :: rest).flatMap remaining = whole
      rw [List.flatMap_cons, hrem, hwhole]
    · intro slice' h
      obtain rfl := Option.some.inj h
      exact ⟨w, rest, rfl, hne, by rwa [hrem], henter⟩
  | done r =>
    obtain ⟨rfl, -⟩ := hp
    exact ⟨hok, hwhole, fun slice h => by cases h⟩

theorem Sends.step (hf : f.Spec remaining Ok) (h : Sends f remaining Ok whole t)
    {e : SenderEvent} (hs : t.step f e = some t') : Sends f remaining Ok whole t' := by
  cases e with
  | invoke =>
    simp only [Sender.step] at hs
    split at hs
    · next w rest hq hp =>
      obtain rfl := Option.some.inj hs
      refine sends_resume (fun v hv => h.ok v ?_) ?_ (hf.enter w (h.ok w ?_))
      · rw [hq]; exact List.mem_cons_of_mem w hv
      · rw [← List.flatMap_cons, ← hq, h.whole_eq]
      · rw [hq]; exact List.mem_cons_self
    · cases hs
  | ready n =>
    simp only [Sender.step] at hs
    split at hs
    · next w rest slice hq hp =>
      split_ifs at hs with hn
      obtain rfl := Option.some.inj hs
      obtain ⟨w', rest', hq', hne, hpre, henter⟩ := h.pending slice hp
      obtain ⟨rfl, rfl⟩ := List.cons.inj (hq'.symm.trans hq)
      refine sends_resume (fun v hv => h.ok v ?_) ?_
        (hf.onWrite w' slice n (h.ok w' ?_) henter hn.2)
      · rw [hq]; exact List.mem_cons_of_mem w' hv
      · -- the bytes accepted are the first of those that remained
        have htake : slice.take n = (remaining w').take n := by
          obtain ⟨u, hu⟩ := hpre
          rw [← hu, List.take_append_of_le_length hn.2]
        rw [htake, List.append_assoc, ← List.append_assoc (List.take n _), List.take_append_drop,
          ← List.flatMap_cons, ← hq, h.whole_eq]
      · rw [hq]; exact List.mem_cons_self
    · cases hs
  | cancel =>
    simp only [Sender.step] at hs
    split at hs
    · obtain rfl := Option.some.inj hs
      exact ⟨h.ok, h.whole_eq, fun slice h => by cases h⟩
    · cases hs

/-- How far the sender is from the end: a call takes one step to make and one for each byte. -/
def distance (remaining : σ → List UInt8) (t : Sender σ) : ℕ :=
  2 * (t.queue.flatMap remaining).length + 2 * t.queue.length +
    (if t.pending = none then 1 else 0)

theorem distance_resume (rest : List σ) {rem : List UInt8} {p : σ × Await (List UInt8) Unit}
    (hp : f.Leads remaining Ok rem p) : (t.resume rest p).distance remaining ≤
      2 * (rem.length + (rest.flatMap remaining).length) + 2 * (rest.length + 1) := by
  obtain ⟨w, a⟩ := p
  cases a with
  | io slice =>
    obtain ⟨-, hrem, -⟩ := hp
    simp only [resume, distance, List.flatMap_cons, hrem, List.length_append, List.length_cons,
      reduceCtorEq, if_false]
    omega
  | done r =>
    simp only [resume, distance, if_true]
    omega

/-- A call that waits can take one byte, and one that does not can be made. -/
theorem Sends.progress (hf : f.Spec remaining Ok) (h : Sends f remaining Ok whole t)
    (hne : t.queue ≠ []) :
    ∃ e t', t.step f e = some t' ∧ t'.distance remaining < t.distance remaining := by
  obtain ⟨w, rest, hq⟩ := List.exists_cons_of_ne_nil hne
  have hw : Ok w := h.ok w (by rw [hq]; exact List.mem_cons_self)
  cases hp : t.pending with
  | none =>
    refine ⟨.invoke, t.resume rest (f.enter w), by simp only [Sender.step, hq, hp], ?_⟩
    have hle := distance_resume (t := t) rest (hf.enter w hw)
    refine lt_of_le_of_lt hle ?_
    simp only [distance, hq, hp, List.flatMap_cons, List.length_append, List.length_cons, if_true]
    omega
  | some slice =>
    obtain ⟨w', rest', hq', hne, hpre, henter⟩ := h.pending slice hp
    obtain ⟨rfl, rfl⟩ := List.cons.inj (hq'.symm.trans hq)
    have h1 : 1 ≤ slice.length := List.length_pos_iff.mpr hne
    have hpos : 1 ≤ (remaining w').length := h1.trans hpre.length_le
    refine ⟨.ready 1, { t with emitted := t.emitted ++ slice.take 1 }.resume rest'
      (f.onWrite w' (.ok 1)), ?_, ?_⟩
    · simp only [Sender.step, hq, hp]
      rw [if_pos ⟨Nat.one_pos, h1⟩]
    · refine lt_of_le_of_lt (distance_resume rest' (hf.onWrite w' slice 1 hw henter h1)) ?_
      simp only [distance, hq, hp, List.flatMap_cons, List.length_append, List.length_cons,
        List.length_drop, reduceCtorEq, if_false]
      omega

/-- Every run of the sender: a prefix of the whole, the whole once the queue is empty, and
from every state it can come to that. -/
theorem sends_run (hf : f.Spec remaining Ok) {ws : List σ} (hws : ∀ w ∈ ws, Ok w)
    {es : List SenderEvent} (hrun : run (Sender.step f) (new ws) es = some t) :
    t.emitted <+: ws.flatMap remaining ∧
    (t.queue = [] → t.emitted = ws.flatMap remaining) ∧
    ∃ es' t', run (Sender.step f) t es' = some t' ∧ t'.queue = [] := by
  have h : Sends f remaining Ok (ws.flatMap remaining) t :=
    run_invariant (fun _ _ _ h hs => h.step hf hs) (sends_new hws) hrun
  refine ⟨⟨_, h.whole_eq⟩, fun hq => ?_, ?_⟩
  · rw [← h.whole_eq, hq, List.flatMap_nil, List.append_nil]
  · obtain ⟨es', t', hrun', -, hend⟩ := exists_run_of_lt (G := fun t => t.queue = [])
      (distance remaining) (fun _ _ _ h hs => Sends.step hf h hs)
      (fun _ h hne => h.progress hf hne) h
    exact ⟨es', t', hrun', hend⟩

end Sender

/-! ## Reading -/

/-- A resumable `async fn` that reads into a buffer of the caller; `value` is what the
caller has when it returns. -/
structure ReadFn (σ β α γ : Type) where
  enter : σ → β → σ × β × Await ℕ α
  onRead : σ → β → Except String (List UInt8) → σ × β × Await ℕ α
  value : α → β → γ

inductive CallState where
  /-- The last call has returned, or none has been made. -/
  | returned
  /-- The last call was dropped at its await. -/
  | cancelled
  /-- At an await, with room for so many bytes. -/
  | pending (room : ℕ)
  /-- A call has returned an error. -/
  | failed
  deriving DecidableEq, Repr

/-- A reader on a stream that ends after `rest`.  Each result has with it what the stream
still held when the call returned. -/
structure Receiver (σ β γ : Type) where
  fn : σ
  buf : β
  call : CallState
  rest : List UInt8
  results : List (Except String (γ × List UInt8))

inductive ReceiverEvent (β : Type) where
  | invoke
  /-- A read gives `n` bytes; none means the end of the stream. -/
  | ready (n : ℕ)
  | cancel
  /-- Between two frames the caller puts another buffer in place. -/
  | swap (b : β)

namespace Receiver

variable {σ β α γ : Type}

def new (fn : σ) (buf : β) (inp : List UInt8) : Receiver σ β γ :=
  { fn, buf, call := .returned, rest := inp, results := [] }

def resume (f : ReadFn σ β α γ) (r : Receiver σ β γ) : σ × β × Await ℕ α → Receiver σ β γ
  | (fn, buf, .io room) => { r with fn, buf, call := .pending room }
  | (fn, buf, .done (.ok a)) =>
    { r with fn, buf, call := .returned, results := r.results ++ [.ok (f.value a buf, r.rest)] }
  | (fn, buf, .done (.error e)) =>
    { r with fn, buf, call := .failed, results := r.results ++ [.error e] }

def step (f : ReadFn σ β α γ) (r : Receiver σ β γ) :
    ReceiverEvent β → Option (Receiver σ β γ)
  | .invoke =>
    match r.call with
    | .returned | .cancelled => some (r.resume f (f.enter r.fn r.buf))
    | _ => none
  | .ready n =>
    match r.call with
    | .pending room =>
      if n ≤ room ∧ n ≤ r.rest.length ∧ (n = 0 → r.rest = []) then
        some ({ r with rest := r.rest.drop n }.resume f (f.onRead r.fn r.buf (.ok (r.rest.take n))))
      else none
    | _ => none
  | .cancel =>
    match r.call with
    | .pending _ => some { r with call := .cancelled }
    | _ => none
  | .swap b =>
    match r.call with
    | .returned => some { r with buf := b }
    | _ => none

/-- The results, whatever the errors say. -/
def outcomes (r : Receiver σ β γ) : List (Option (γ × List UInt8)) :=
  r.results.map Except.toOption

end Receiver

section Spec

variable {σ β α γ : Type}

/-- Where a call comes to that has `got` of the current frame. -/
def ReadFn.Leads (f : ReadFn σ β α γ) (decode : List UInt8 → Option (γ × List UInt8))
    (Part : σ → β → List UInt8 → Prop) (got : List UInt8) : σ × β × Await ℕ α → Prop
  | (s, b, .io room) => Part s b got ∧ 0 < room ∧ f.enter s b = (s, b, .io room)
  | (s, b, .done (.ok a)) =>
    (∀ rest, decode (got ++ rest) = some (f.value a b, rest)) ∧ ∀ b', Part s b' []
  | (_, _, .done (.error _)) => ∀ rest, decode (got ++ rest) = none

/-- `all` decodes frame after frame, up to and including the first failure. -/
def Iterates (decode : List UInt8 → Option (γ × List UInt8))
    (all : List UInt8 → List (Option (γ × List UInt8))) : Prop :=
  ∀ inp, all inp = match decode inp with
    | none => [none]
    | some x => some x :: all x.2

/-- `Part s b got` says that `got` has been read of the current frame; `decode` takes a whole
frame from a stream that ends. -/
structure ReadFn.Spec (f : ReadFn σ β α γ) (decode : List UInt8 → Option (γ × List UInt8))
    (Part : σ → β → List UInt8 → Prop) : Prop where
  enter : ∀ s b got, Part s b got → ∃ s' b' room, f.enter s b = (s', b', .io room) ∧
    f.Leads decode Part got (s', b', .io room)
  onRead : ∀ s b got room bytes, Part s b got → f.enter s b = (s, b, .io room) → bytes ≠ [] →
    bytes.length ≤ room → f.Leads decode Part (got ++ bytes) (f.onRead s b (.ok bytes))
  eof : ∀ s b, ∃ s' b' e, f.onRead s b (.ok []) = (s', b', .done (.error e))
  incomplete : ∀ s b got, Part s b got → decode got = none

end Spec

namespace Receiver

variable {σ β α γ : Type} {f : ReadFn σ β α γ} {decode : List UInt8 → Option (γ × List UInt8)}
  {Part : σ → β → List UInt8 → Prop} {all : List UInt8 → List (Option (γ × List UInt8))}
  {inp : List UInt8} {r r' : Receiver σ β γ}

/-- The results so far, followed by those of decoding what is left, are those of decoding
the whole stream. -/
inductive Receives (f : ReadFn σ β α γ) (Part : σ → β → List UInt8 → Prop)
    (all : List UInt8 → List (Option (γ × List UInt8))) (inp : List UInt8)
    (r : Receiver σ β γ) : Prop where
  | returned (hc : r.call = .returned) (hp : ∀ b, Part r.fn b [])
      (hall : all inp = r.outcomes ++ all r.rest)
  | cancelled (got : List UInt8) (hc : r.call = .cancelled) (hp : Part r.fn r.buf got)
      (hall : all inp = r.outcomes ++ all (got ++ r.rest))
  | pending (got : List UInt8) (room : ℕ) (hc : r.call = .pending room) (hp : Part r.fn r.buf got)
      (hroom : 0 < room) (henter : f.enter r.fn r.buf = (r.fn, r.buf, .io room))
      (hall : all inp = r.outcomes ++ all (got ++ r.rest))
  | failed (hc : r.call = .failed) (hall : all inp = r.outcomes)

theorem receives_resume (got : List UInt8) {p : σ × β × Await ℕ α}
    (hdec : Iterates decode all)
    (hall : all inp = r.outcomes ++ all (got ++ r.rest)) (hp : f.Leads decode Part got p) :
    Receives f Part all inp (r.resume f p) := by
  obtain ⟨s, b, a⟩ := p
  cases a with
  | io room =>
    obtain ⟨hpart, hroom, henter⟩ := hp
    exact .pending got room rfl hpart hroom henter hall
  | done res =>
    cases res with
    | ok a =>
      obtain ⟨hd, hpart⟩ := hp
      refine .returned rfl hpart ?_
      rw [hall, hdec (got ++ r.rest), hd r.rest]
      simp [resume, outcomes, Except.toOption]
    | error e =>
      refine .failed rfl ?_
      rw [hall, hdec (got ++ r.rest), hp r.rest]
      simp [resume, outcomes, Except.toOption]

/-- A read of `n` bytes, or the end of the stream, inside a frame or before it. -/
theorem receives_ready (hf : f.Spec decode Part) (hdec : Iterates decode all) {got : List UInt8}
    {room n : ℕ} (hp : Part r.fn r.buf got) (henter : f.enter r.fn r.buf = (r.fn, r.buf, .io room))
    (hall : all inp = r.outcomes ++ all (got ++ r.rest)) (hroom : n ≤ room)
    (hrest : n ≤ r.rest.length) (hend : n = 0 → r.rest = []) :
    Receives f Part all inp
      ({ r with rest := r.rest.drop n }.resume f (f.onRead r.fn r.buf (.ok (r.rest.take n)))) := by
  by_cases hz : n = 0
  · obtain ⟨s', b', e, heof⟩ := hf.eof r.fn r.buf
    have hnone := hf.incomplete _ _ _ hp
    rw [hz, List.take_zero, heof]
    refine .failed rfl ?_
    rw [hall, hend hz, List.append_nil, hdec got, hnone]
    simp [resume, outcomes, Except.toOption]
  · have hlen : (r.rest.take n).length = n := by rw [List.length_take]; omega
    have hne : r.rest.take n ≠ [] := by
      intro hnil
      rw [hnil, List.length_nil] at hlen
      omega
    have hl := hf.onRead _ _ got room (r.rest.take n) hp henter hne (by omega)
    refine receives_resume (r := { r with rest := r.rest.drop n }) _ hdec ?_ hl
    rw [List.append_assoc, List.take_append_drop]
    exact hall

theorem Receives.step (hf : f.Spec decode Part)
    (hdec : Iterates decode all)
    (h : Receives f Part all inp r) {e : ReceiverEvent β} (hs : r.step f e = some r') :
    Receives f Part all inp r' := by
  cases e with
  | invoke =>
    simp only [Receiver.step] at hs
    cases h with
    | returned hc hp hall =>
      rw [hc] at hs
      obtain rfl := Option.some.inj hs
      obtain ⟨s', b', room, he, hl⟩ := hf.enter r.fn r.buf [] (hp r.buf)
      rw [he]
      exact receives_resume [] hdec hall hl
    | cancelled got hc hp hall =>
      rw [hc] at hs
      obtain rfl := Option.some.inj hs
      obtain ⟨s', b', room, he, hl⟩ := hf.enter r.fn r.buf got hp
      rw [he]
      exact receives_resume _ hdec hall hl
    | pending got room hc => rw [hc] at hs; cases hs
    | failed hc => rw [hc] at hs; cases hs
  | ready n =>
    simp only [Receiver.step] at hs
    cases h with
    | returned hc => rw [hc] at hs; cases hs
    | cancelled got hc => rw [hc] at hs; cases hs
    | pending got room hc hp hroom henter hall =>
      rw [hc] at hs
      dsimp only at hs
      split_ifs at hs with hn
      obtain rfl := Option.some.inj hs
      exact receives_ready hf hdec hp henter hall hn.1 hn.2.1 hn.2.2
    | failed hc => rw [hc] at hs; cases hs
  | cancel =>
    simp only [Receiver.step] at hs
    cases h with
    | returned hc => rw [hc] at hs; cases hs
    | cancelled got hc => rw [hc] at hs; cases hs
    | pending got room hc hp hroom henter hall =>
      rw [hc] at hs
      obtain rfl := Option.some.inj hs
      exact .cancelled got rfl hp hall
    | failed hc => rw [hc] at hs; cases hs
  | swap b =>
    simp only [Receiver.step] at hs
    cases h with
    | returned hc hp hall =>
      rw [hc] at hs
      obtain rfl := Option.some.inj hs
      exact .returned rfl hp hall
    | cancelled got hc => rw [hc] at hs; cases hs
    | pending got room hc => rw [hc] at hs; cases hs
    | failed hc => rw [hc] at hs; cases hs

/-- How far the reader is from the end of the stream. -/
def distance (r : Receiver σ β γ) : ℕ :=
  match r.call with
  | .failed => 0
  | .pending _ => 2 * r.rest.length + 1
  | _ => 2 * r.rest.length + 2

theorem distance_resume_le (p : σ × β × Await ℕ α) :
    (r.resume f p).distance ≤ 2 * r.rest.length + 2 := by
  obtain ⟨s, b, a⟩ := p
  rcases a with room | (e | a)
  · simp [resume, distance]
  · simp [resume, distance]
  · simp [resume, distance]

/-- A call that waits can read one byte or the end of the stream; another can be made. -/
theorem Receives.progress (hf : f.Spec decode Part) (h : Receives f Part all inp r)
    (hne : r.call ≠ .failed) :
    ∃ e r', r.step f e = some r' ∧ r'.distance < r.distance := by
  cases h with
  | returned hc hp hall =>
    obtain ⟨s', b', room, he, -⟩ := hf.enter r.fn r.buf [] (hp r.buf)
    exact ⟨.invoke, r.resume f (f.enter r.fn r.buf), by simp only [Receiver.step, hc],
      by simp [he, resume, distance, hc]⟩
  | cancelled got hc hp hall =>
    obtain ⟨s', b', room, he, -⟩ := hf.enter r.fn r.buf got hp
    exact ⟨.invoke, r.resume f (f.enter r.fn r.buf), by simp only [Receiver.step, hc],
      by simp [he, resume, distance, hc]⟩
  | pending got room hc hp hroom henter hall =>
    by_cases hnil : r.rest = []
    · obtain ⟨s', b', e, heof⟩ := hf.eof r.fn r.buf
      refine ⟨.ready 0, { r with rest := r.rest.drop 0 }.resume f
        (f.onRead r.fn r.buf (.ok (r.rest.take 0))), ?_, ?_⟩
      · simp only [Receiver.step, hc]
        rw [if_pos ⟨by omega, by omega, fun _ => hnil⟩]
      · rw [List.take_zero, heof]
        simp [resume, distance, hc]
    · have hpos : 0 < r.rest.length := List.length_pos_iff.mpr hnil
      refine ⟨.ready 1, { r with rest := r.rest.drop 1 }.resume f
        (f.onRead r.fn r.buf (.ok (r.rest.take 1))), ?_, ?_⟩
      · simp only [Receiver.step, hc]
        rw [if_pos ⟨hroom, hpos, fun h0 => by omega⟩]
      · refine lt_of_le_of_lt (distance_resume_le _) ?_
        simp only [distance, hc, List.length_drop]
        omega
  | failed hc => exact absurd hc hne

/-- Every run of the reader: its results are the first ones of decoding the stream, all of
them once a call has failed, and from every state it can come to that. -/
theorem receives_run (hf : f.Spec decode Part)
    (hdec : Iterates decode all)
    {fn : σ} {buf : β} (hnew : ∀ b, Part fn b []) {es : List (ReceiverEvent β)}
    (hrun : run (Receiver.step f) (new fn buf inp) es = some r) :
    r.outcomes <+: all inp ∧ (r.call = .failed → r.outcomes = all inp) ∧
    ∃ es' r', run (Receiver.step f) r es' = some r' ∧ r'.call = .failed := by
  have h : Receives f Part all inp r :=
    run_invariant (fun _ _ _ h hs => h.step hf hdec hs) (.returned rfl hnew rfl) hrun
  refine ⟨?_, ?_, ?_⟩
  · cases h with
    | returned hc hp hall => exact ⟨_, hall.symm⟩
    | cancelled got hc hp hall => exact ⟨_, hall.symm⟩
    | pending got room hc hp hroom henter hall => exact ⟨_, hall.symm⟩
    | failed hc hall => rw [hall]
  · intro hfail
    cases h with
    | returned hc => rw [hc] at hfail; cases hfail
    | cancelled got hc => rw [hc] at hfail; cases hfail
    | pending got room hc => rw [hc] at hfail; cases hfail
    | failed hc hall => exact hall.symm
  · obtain ⟨es', r', hrun', -, hend⟩ := exists_run_of_lt (G := fun r => r.call = .failed)
      distance (fun _ _ _ h hs => Receives.step hf hdec h hs) (fun _ h hne => h.progress hf hne) h
    exact ⟨es', r', hrun', hend⟩

end Receiver

end Deltasync
