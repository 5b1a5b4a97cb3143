import Deltasync.Lib.Transition

/-!
# Two processes that exchange bytes

A process writes and reads elements of `β` one after the other, over two streams
of finite capacity.  A step moves one element; a `read` or a `write` of several is
several steps.  A process that quits closes its end: its peer still reads what was
written, and then comes to the end of the stream; what the peer writes is lost, or
fails.

Each side is deterministic and the streams are queues, so that steps of the two
sides commute: to know how all interleavings end, it is enough to follow one.

Of a peer that is not a process nothing is known but the elements that it sends:
what a process has read when it passes tells what they were.
-/

namespace Dialogue

open Transition

/-- What a side still has to do: it is done with an open end, has quit, writes and fails with
`err` if it cannot, or reads exactly `n` elements, `none` if the stream ends before. -/
inductive Proc (β ε ρ : Type*) where
  | pass (r : ρ)
  | quit (e : ε)
  | write (bytes : List β) (err : ε) (next : Proc β ε ρ)
  | read (n : ℕ) (next : Option (List β) → Proc β ε ρ)

namespace Proc

variable {β ε ρ : Type*}

/-- The process has closed its end. -/
def closed : Proc β ε ρ → Bool
  | quit _ => true
  | _ => false

/-- The process waits for an element. -/
def reads : Proc β ε ρ → Bool
  | read (_ + 1) _ => true
  | _ => false

/-- One step, with what is then left in the stream that it reads and in the one that it
writes, the latter with room for `cap` elements; `peer` says whether the peer is closed. -/
def step (cap : ℕ) (peer : Bool) (inbox outbox : List β) :
    Proc β ε ρ → Option (Proc β ε ρ × List β × List β)
  | pass _ => none
  | quit _ => none
  | write [] _ next => some (next, inbox, outbox)
  | write (b :: bytes) err next =>
    if peer = true ∨ outbox.length < cap then
      some (write bytes err next, inbox, outbox ++ [b])
    else none
  | read 0 next => some (next (some []), inbox, outbox)
  | read (n + 1) next =>
    match inbox with
    | b :: rest => some (read n (fun r => next (r.map (b :: ·))), rest, outbox)
    | [] => if peer = true then some (next none, [], outbox) else none

/-- A write to a closed peer may fail. -/
def fails : Proc β ε ρ → Option (Proc β ε ρ)
  | write (_ :: _) err _ => some (quit err)
  | _ => none

/-- How the process ends when its peer is closed and has left `inbox`. -/
def alone : Proc β ε ρ → List β → Except ε ρ
  | pass r, _ => .ok r
  | quit e, _ => .error e
  | write _ _ next, inbox => next.alone inbox
  | read n next, inbox =>
    if n ≤ inbox.length then (next (some (inbox.take n))).alone (inbox.drop n)
    else (next none).alone []

variable {cap : ℕ} {peer : Bool} {inbox outbox inbox' outbox' : List β} {p p' : Proc β ε ρ}

/-- A step takes from the front of one stream and adds to the back of the other, and does the
same with more to read, more room to write and the peer closed in the meantime. -/
theorem step_mono (h : p.step cap peer inbox outbox = some (p', inbox', outbox')) :
    ∃ k x, k ≤ inbox.length ∧ inbox' = inbox.drop k ∧ outbox' = outbox ++ x ∧
      ∀ peer' more room, (peer = true → peer' = true ∧ more = []) →
        room.length ≤ outbox.length →
        p.step cap peer' (inbox ++ more) room = some (p', inbox.drop k ++ more, room ++ x) := by
  cases p with
  | pass r => cases h
  | quit e => cases h
  | write bytes err next =>
    cases bytes with
    | nil =>
      simp only [step, Option.some.injEq, Prod.mk.injEq] at h
      obtain ⟨rfl, rfl, rfl⟩ := h
      exact ⟨0, [], by simp, rfl, by simp, fun _ _ _ _ _ => by simp [step]⟩
    | cons b bytes =>
      simp only [step, Option.ite_none_right_eq_some, Option.some.injEq, Prod.mk.injEq] at h
      obtain ⟨hroom, rfl, rfl, rfl⟩ := h
      refine ⟨0, [b], by simp, rfl, rfl, fun peer' more room hpeer hle => ?_⟩
      have hok : peer' = true ∨ room.length < cap := by
        rcases hroom with hp | hlt
        · exact .inl (hpeer hp).1
        · exact .inr (by omega)
      rw [step, if_pos hok, List.drop_zero]
  | read n next =>
    cases n with
    | zero =>
      simp only [step, Option.some.injEq, Prod.mk.injEq] at h
      obtain ⟨rfl, rfl, rfl⟩ := h
      exact ⟨0, [], by simp, rfl, by simp, fun _ _ _ _ _ => by simp [step]⟩
    | succ n =>
      cases inbox with
      | cons b rest =>
        simp only [step, Option.some.injEq, Prod.mk.injEq] at h
        obtain ⟨rfl, rfl, rfl⟩ := h
        exact ⟨1, [], by simp, by simp, by simp, fun _ _ _ _ _ => by simp [step]⟩
      | nil =>
        simp only [step, Option.ite_none_right_eq_some, Option.some.injEq, Prod.mk.injEq] at h
        obtain ⟨hp, rfl, rfl, rfl⟩ := h
        refine ⟨0, [], by simp, rfl, by simp, fun peer' more room hpeer _ => ?_⟩
        obtain ⟨hp', rfl⟩ := hpeer hp
        simp [step, hp']

theorem step_eq_none_of_closed (h : p.closed = true) :
    p.step cap peer inbox outbox = none := by
  cases p with
  | quit e => rfl
  | _ => simp [closed] at h

end Proc

/-- The two sides, and what is on its way to each of them. -/
structure State (β ε ε' ρ ρ' : Type*) where
  left : Proc β ε ρ
  right : Proc β ε' ρ'
  toLeft : List β
  toRight : List β

inductive Event where
  | left
  | right
  /-- A write of the left side fails, the right side being closed. -/
  | leftFails
  | rightFails
  deriving DecidableEq, Repr

variable {β ε ε' ρ ρ' : Type*}

/-- A step with room for `capLeft` elements on the way to the left, `capRight` to the right. -/
def step (capLeft capRight : ℕ) (s : State β ε ε' ρ ρ') : Event → Option (State β ε ε' ρ ρ')
  | .left => (s.left.step capRight s.right.closed s.toLeft s.toRight).map fun (p, l, r) =>
    { s with left := p, toLeft := l, toRight := r }
  | .right => (s.right.step capLeft s.left.closed s.toRight s.toLeft).map fun (p, r, l) =>
    { s with right := p, toLeft := l, toRight := r }
  | .leftFails => if s.right.closed then s.left.fails.map fun p => { s with left := p } else none
  | .rightFails => if s.left.closed then s.right.fails.map fun p => { s with right := p } else none

/-- Nothing fails in this step. -/
def steady (_ : State β ε ε' ρ ρ') : Event → Bool
  | .left | .right => true
  | _ => false

/-- The steps in which nothing fails. -/
def steadyStep (capLeft capRight : ℕ) : State β ε ε' ρ ρ' → Event → Option (State β ε ε' ρ ρ') :=
  restrict steady (step capLeft capRight)

/-- Both sides wait for the other one. -/
def Deadlocked (s : State β ε ε' ρ ρ') : Prop :=
  s.left.reads = true ∧ s.toLeft = [] ∧ s.right.reads = true ∧ s.toRight = []

/-- Neither side goes on. -/
def BothQuit (s : State β ε ε' ρ ρ') : Prop := s.left.closed = true ∧ s.right.closed = true

variable {capLeft capRight : ℕ} {s s' t u : State β ε ε' ρ ρ'}

/-! ## All runs end alike -/

theorem steadyStep_left (p : Proc β ε ρ) (q : Proc β ε' ρ') (l r : List β) :
    steadyStep capLeft capRight ⟨p, q, l, r⟩ .left =
      (p.step capRight q.closed l r).map fun (p', l', r') => ⟨p', q, l', r'⟩ := rfl

theorem steadyStep_right (p : Proc β ε ρ) (q : Proc β ε' ρ') (l r : List β) :
    steadyStep capLeft capRight ⟨p, q, l, r⟩ .right =
      (q.step capLeft p.closed r l).map fun (q', r', l') => ⟨p, q', l', r'⟩ := rfl

/-- A step of one side and a step of the other one. -/
theorem steadyStep_comm {a b : State β ε ε' ρ ρ'}
    (ha : steadyStep capLeft capRight s .left = some a)
    (hb : steadyStep capLeft capRight s .right = some b) :
    ∃ u, steadyStep capLeft capRight a .right = some u ∧
      steadyStep capLeft capRight b .left = some u := by
  obtain ⟨p, q, l, r⟩ := s
  rw [steadyStep_left, Option.map_eq_some_iff] at ha
  rw [steadyStep_right, Option.map_eq_some_iff] at hb
  obtain ⟨⟨p', l', r'⟩, hp, rfl⟩ := ha
  obtain ⟨⟨q', r'', l''⟩, hq, rfl⟩ := hb
  -- a side that moves has not quit
  have hpc : p.closed = true → False := fun h => by
    rw [Proc.step_eq_none_of_closed h] at hp
    cases hp
  have hqc : q.closed = true → False := fun h => by
    rw [Proc.step_eq_none_of_closed h] at hq
    cases hq
  obtain ⟨k, x, hk, rfl, rfl, hleft⟩ := Proc.step_mono hp
  obtain ⟨m, y, hm, rfl, rfl, hright⟩ := Proc.step_mono hq
  refine ⟨⟨p', q', l.drop k ++ y, r.drop m ++ x⟩, ?_, ?_⟩
  · rw [steadyStep_right, hright p'.closed x (l.drop k) (fun h => (hpc h).elim) (by simp)]
    rfl
  · rw [steadyStep_left, hleft q'.closed y (r.drop m) (fun h => (hqc h).elim) (by simp)]
    rfl

theorem commutes_steadyStep :
    Commutes (steadyStep capLeft capRight : State β ε ε' ρ ρ' → _ → _) := by
  intro s e e' a b ha hb
  cases e with
  | left =>
    cases e' with
    | left => exact .inl rfl
    | right => exact .inr (steadyStep_comm ha hb)
    | leftFails => cases hb
    | rightFails => cases hb
  | right =>
    cases e' with
    | left =>
      obtain ⟨u, h1, h2⟩ := steadyStep_comm hb ha
      exact .inr ⟨u, h2, h1⟩
    | right => exact .inl rfl
    | leftFails => cases hb
    | rightFails => cases hb
  | leftFails => cases ha
  | rightFails => cases ha

theorem BothQuit.ended (h : BothQuit s) : Ended (step capLeft capRight) s := by
  obtain ⟨hl, hr⟩ := h
  obtain ⟨p, q, l, r⟩ := s
  cases p with
  | quit e =>
    cases q with
    | quit e' => intro ev; cases ev <;> rfl
    | _ => simp [Proc.closed] at hr
  | _ => simp [Proc.closed] at hl

/-- A failing write leaves both sides closed, and could as well have been lost. -/
theorem bothQuit_of_fails {e : Event} (he : steady s e = false)
    (hs : step capLeft capRight s e = some s') :
    BothQuit s' ∧ ∃ e' v, steadyStep capLeft capRight s e' = some v := by
  obtain ⟨p, q, l, r⟩ := s
  cases e with
  | left => cases he
  | right => cases he
  | leftFails =>
    simp only [step, Option.ite_none_right_eq_some, Option.map_eq_some_iff] at hs
    obtain ⟨hq, p', hp, rfl⟩ := hs
    rcases p with _ | _ | ⟨_ | ⟨b, bytes⟩, err, next⟩ | _ <;> cases hp
    refine ⟨⟨rfl, hq⟩, .left, ⟨.write bytes err next, q, l, r ++ [b]⟩, ?_⟩
    simp [steadyStep_left, Proc.step, hq]
  | rightFails =>
    simp only [step, Option.ite_none_right_eq_some, Option.map_eq_some_iff] at hs
    obtain ⟨hp, q', hq, rfl⟩ := hs
    rcases q with _ | _ | ⟨_ | ⟨b, bytes⟩, err, next⟩ | _ <;> cases hq
    refine ⟨⟨hp, rfl⟩, .right, ⟨p, .write bytes err next, l ++ [b], r⟩, ?_⟩
    simp [steadyStep_right, Proc.step, hp]

/-- One run without failing writes that ends stands for all runs: any other one is a part of
one that ends in the same state, or is over with both sides closed; none is longer. -/
theorem run_outcome (ht : Ended (steadyStep capLeft capRight) t) {es : List Event}
    (hcan : run (steadyStep capLeft capRight) s es = some t) {es' : List Event}
    (h : run (step capLeft capRight) s es' = some u) :
    es'.length ≤ es.length ∧
      ((∃ rest, run (steadyStep capLeft capRight) u rest = some t ∧
        es.length = es'.length + rest.length) ∨ BothQuit u) := by
  refine run_induction (P := fun es' u => es'.length ≤ es.length ∧
    ((∃ rest, run (steadyStep capLeft capRight) u rest = some t ∧
      es.length = es'.length + rest.length) ∨ BothQuit u)) ?_ ?_ h
  · exact ⟨Nat.zero_le _, .inl ⟨es, hcan, by simp⟩⟩
  · rintro es' u e v - ⟨hle, ⟨rest, hrest, hlen⟩ | hquit⟩ hv
    · rw [List.length_append, List.length_singleton]
      by_cases he : steady u e = true
      · have hstep : steadyStep capLeft capRight u e = some v :=
          restrict_eq_some.mpr ⟨he, hv⟩
        obtain ⟨rest', hrest', hlen'⟩ := commutes_steadyStep.strip ht hrest hstep
        exact ⟨by omega, .inl ⟨rest', hrest', by omega⟩⟩
      · obtain ⟨hquit, e', w, hw⟩ := bothQuit_of_fails (by simpa using he) hv
        obtain ⟨rest', -, hlen'⟩ := commutes_steadyStep.strip ht hrest hw
        exact ⟨by omega, .inr hquit⟩
    · rw [hquit.ended e] at hv
      cases hv

/-- Every run that cannot go on is in that state, or has both sides closed. -/
theorem eq_of_ended (ht : Ended (steadyStep capLeft capRight) t) {es : List Event}
    (hcan : run (steadyStep capLeft capRight) s es = some t) {es' : List Event}
    (h : run (step capLeft capRight) s es' = some u) (hu : Ended (step capLeft capRight) u) :
    u = t ∨ BothQuit u := by
  rcases (run_outcome ht hcan h).2 with ⟨rest, hrest, -⟩ | hquit
  · left
    cases rest with
    | nil => simpa using hrest
    | cons e rest =>
      rw [run_cons, steadyStep, restrict, hu e, ite_self] at hrest
      cases hrest
  · exact .inr hquit

theorem Deadlocked.ended (h : Deadlocked s) : Ended (step capLeft capRight) s := by
  obtain ⟨hl, hlnil, hr, hrnil⟩ := h
  obtain ⟨p, q, l, r⟩ := s
  obtain rfl : l = [] := hlnil
  obtain rfl : r = [] := hrnil
  rcases p with _ | _ | _ | ⟨_ | n, next⟩ <;> simp only [Proc.reads, Bool.false_eq_true] at hl
  rcases q with _ | _ | _ | ⟨_ | m, next'⟩ <;> simp only [Proc.reads, Bool.false_eq_true] at hr
  intro e
  cases e <;> rfl

theorem Deadlocked.not_bothQuit (h : Deadlocked s) : ¬ BothQuit s := by
  rintro ⟨hc, -⟩
  obtain ⟨hl, -⟩ := h
  rcases s with ⟨_ | _ | _ | ⟨_ | n, next⟩, q, l, r⟩ <;> simp [Proc.reads, Proc.closed] at hl hc

/-! ## One run -/

/-- A run without failing writes. -/
def Reaches (capLeft capRight : ℕ) (s t : State β ε ε' ρ ρ') : Prop :=
  ∃ es, run (steadyStep capLeft capRight) s es = some t

theorem Reaches.refl (s : State β ε ε' ρ ρ') : Reaches capLeft capRight s s := ⟨[], rfl⟩

theorem Reaches.trans (h : Reaches capLeft capRight s t) (h' : Reaches capLeft capRight t u) :
    Reaches capLeft capRight s u := by
  obtain ⟨es, hes⟩ := h
  obtain ⟨es', hes'⟩ := h'
  exact ⟨es ++ es', by rw [run_append, hes]; exact hes'⟩

theorem Reaches.step {e : Event} (hs : steadyStep capLeft capRight s e = some t)
    (h : Reaches capLeft capRight t u) : Reaches capLeft capRight s u := by
  obtain ⟨es, hes⟩ := h
  exact ⟨e :: es, by rw [run_cons, hs]; exact hes⟩

/-- The same, seen from the other side. -/
def State.swap (s : State β ε ε' ρ ρ') : State β ε' ε ρ' ρ :=
  ⟨s.right, s.left, s.toRight, s.toLeft⟩

theorem Reaches.swap (h : Reaches capLeft capRight s t) :
    Reaches capRight capLeft s.swap t.swap := by
  obtain ⟨es, hes⟩ := h
  induction es generalizing s with
  | nil =>
    obtain rfl : s = t := by simpa using hes
    exact .refl _
  | cons e es ih =>
    rw [run_cons, Option.bind_eq_some_iff] at hes
    obtain ⟨v, hv, hrun⟩ := hes
    cases e with
    | left =>
      obtain ⟨x, hx, rfl⟩ := Option.map_eq_some_iff.mp hv
      refine .step (e := .right) ?_ (ih hrun)
      exact Option.map_eq_some_iff.mpr ⟨x, hx, rfl⟩
    | right =>
      obtain ⟨x, hx, rfl⟩ := Option.map_eq_some_iff.mp hv
      refine .step (e := .left) ?_ (ih hrun)
      exact Option.map_eq_some_iff.mpr ⟨x, hx, rfl⟩
    | leftFails => cases hv
    | rightFails => cases hv

/-- What the left side writes is what the right side reads, however little room there is. -/
theorem exchange (hcap : 0 < capRight) (bytes : List β) (err : ε) (p : Proc β ε ρ)
    (q : Option (List β) → Proc β ε' ρ') (l : List β) :
    Reaches capLeft capRight ⟨.write bytes err p, .read bytes.length q, l, []⟩
      ⟨p, q (some bytes), l, []⟩ := by
  induction bytes generalizing q with
  | nil => exact .step (e := .left) rfl (.step (e := .right) rfl (.refl _))
  | cons b bytes ih =>
    have hwrite : steadyStep capLeft capRight
        ⟨.write (b :: bytes) err p, .read (b :: bytes).length q, l, []⟩ .left =
        some ⟨.write bytes err p, .read (b :: bytes).length q, l, [b]⟩ := by
      simp [steadyStep_left, Proc.step, hcap]
    exact .step hwrite (.step (e := .right) rfl (ih fun r => q (r.map (b :: ·))))

/-- What the right side writes is what the left side reads. -/
theorem exchange_left (hcap : 0 < capLeft) (bytes : List β) (err : ε')
    (p : Option (List β) → Proc β ε ρ) (q : Proc β ε' ρ') (r : List β) :
    Reaches capLeft capRight ⟨.read bytes.length p, .write bytes err q, [], r⟩
      ⟨p (some bytes), q, [], r⟩ :=
  (exchange hcap bytes err q p r).swap

/-- The right side writes an element that the left side does not read yet. -/
theorem write_ahead (hcap : 0 < capLeft) (p : Proc β ε ρ) (b : β) (err : ε') (q : Proc β ε' ρ')
    (r : List β) :
    Reaches capLeft capRight ⟨p, .write [b] err q, [], r⟩ ⟨p, q, [b], r⟩ := by
  refine .step (e := .right) (t := ⟨p, .write [] err q, [b], r⟩) ?_ (.step (e := .right) rfl
    (.refl _))
  simp [steadyStep_right, Proc.step, hcap]

/-! ### With a closed peer -/

theorem write_closed (bytes : List β) (err : ε) (p : Proc β ε ρ) (e : ε') (l r : List β) :
    Reaches capLeft capRight (⟨.write bytes err p, .quit e, l, r⟩ : State β ε ε' ρ ρ')
      ⟨p, .quit e, l, r ++ bytes⟩ := by
  induction bytes generalizing r with
  | nil =>
    rw [List.append_nil]
    exact .step (e := .left) rfl (.refl _)
  | cons b bytes ih =>
    have hrest := ih (r ++ [b])
    rw [List.append_assoc, List.singleton_append] at hrest
    refine .step (e := .left) ?_ hrest
    simp [steadyStep_left, Proc.step, Proc.closed]

theorem read_closed {n : ℕ} (next : Option (List β) → Proc β ε ρ) (e : ε') {l : List β}
    (hn : n ≤ l.length) (r : List β) :
    Reaches capLeft capRight (⟨.read n next, .quit e, l, r⟩ : State β ε ε' ρ ρ')
      ⟨next (some (l.take n)), .quit e, l.drop n, r⟩ := by
  induction n generalizing l next with
  | zero => exact .step (e := .left) rfl (.refl _)
  | succ n ih =>
    cases l with
    | nil => simp at hn
    | cons b l =>
      refine .step (e := .left) rfl (ih (fun x => next (x.map (b :: ·))) ?_)
      simpa using hn

/-- The end of the stream comes after what was written. -/
theorem read_eof {n : ℕ} (next : Option (List β) → Proc β ε ρ) (e : ε') {l : List β}
    (hn : l.length < n) (r : List β) :
    Reaches capLeft capRight (⟨.read n next, .quit e, l, r⟩ : State β ε ε' ρ ρ')
      ⟨next none, .quit e, [], r⟩ := by
  induction l generalizing n next with
  | nil =>
    cases n with
    | zero => simp at hn
    | succ n => exact .step (e := .left) rfl (.refl _)
  | cons b l ih =>
    cases n with
    | zero => simp at hn
    | succ n =>
      refine .step (e := .left) rfl (ih (fun x => next (x.map (b :: ·))) ?_)
      simpa using hn

/-- A side whose peer is closed goes on alone. -/
theorem left_alone {p : Proc β ε ρ} {x : ε} (e : ε') {l : List β} (h : p.alone l = .error x)
    (r : List β) :
    ∃ l' r', Reaches capLeft capRight (⟨p, .quit e, l, r⟩ : State β ε ε' ρ ρ')
      ⟨.quit x, .quit e, l', r'⟩ := by
  induction p generalizing l r with
  | pass y => cases h
  | quit y =>
    obtain rfl : y = x := by simpa [Proc.alone] using h
    exact ⟨l, r, .refl _⟩
  | write bytes err p ih =>
    obtain ⟨l', r', hreach⟩ := ih h (r ++ bytes)
    exact ⟨l', r', (write_closed bytes err p e l r).trans hreach⟩
  | read n next ih =>
    rw [Proc.alone] at h
    split_ifs at h with hn
    · obtain ⟨l', r', hreach⟩ := ih _ h r
      exact ⟨l', r', (read_closed next e hn r).trans hreach⟩
    · obtain ⟨l', r', hreach⟩ := ih _ h r
      exact ⟨l', r', (read_eof next e (by omega) r).trans hreach⟩

theorem right_alone {q : Proc β ε' ρ'} {x : ε'} (e : ε) {r : List β} (h : q.alone r = .error x)
    (l : List β) :
    ∃ l' r', Reaches capLeft capRight (⟨.quit e, q, l, r⟩ : State β ε ε' ρ ρ')
      ⟨.quit e, .quit x, l', r'⟩ := by
  obtain ⟨r', l', hreach⟩ : ∃ r' l', Reaches capRight capLeft
      (⟨q, .quit e, r, l⟩ : State β ε' ε ρ' ρ) ⟨.quit x, .quit e, r', l'⟩ := left_alone e h l
  exact ⟨l', r', hreach.swap⟩

/-! ## With failing writes -/

namespace Proc

variable {p p' : Proc β ε ρ} {P : β → ε → Prop}

/-- When the process fails to write an element, the two are in `P`, or the error is the one that
the process quits with right after. -/
def FailsIn (P : β → ε → Prop) : Proc β ε ρ → Prop
  | pass _ => True
  | quit _ => True
  | write bytes err next => ((∀ b ∈ bytes, P b err) ∨ next = quit err) ∧ next.FailsIn P
  | read _ next => ∀ x, (next x).FailsIn P

theorem FailsIn.step (hp : p.FailsIn P) {cap : ℕ} {peer : Bool}
    {inbox outbox inbox' outbox' : List β}
    (h : p.step cap peer inbox outbox = some (p', inbox', outbox')) : p'.FailsIn P := by
  cases p with
  | pass r => cases h
  | quit e => cases h
  | write bytes err next =>
    cases bytes with
    | nil =>
      obtain ⟨rfl, -⟩ := Prod.mk.inj (Option.some.inj h)
      exact hp.2
    | cons b bytes =>
      simp only [Proc.step, Option.ite_none_right_eq_some, Option.some.injEq, Prod.mk.injEq] at h
      obtain ⟨-, rfl, -⟩ := h
      exact ⟨hp.1.imp_left fun hall c hc => hall c (List.mem_cons_of_mem b hc), hp.2⟩
  | read n next =>
    cases n with
    | zero =>
      obtain ⟨rfl, -⟩ := Prod.mk.inj (Option.some.inj h)
      exact hp _
    | succ n =>
      cases inbox with
      | nil =>
        simp only [Proc.step, Option.ite_none_right_eq_some, Option.some.injEq, Prod.mk.injEq] at h
        obtain ⟨-, rfl, -⟩ := h
        exact hp _
      | cons b rest =>
        obtain ⟨rfl, -⟩ := Prod.mk.inj (Option.some.inj h)
        exact fun x => hp _

end Proc

namespace Proc

variable {p p' : Proc β ε ρ} {x y inbox inbox' : List β} {r : ρ}

/-- A process, and then another one with its result. -/
def bind : Proc β ε ρ → (ρ → Proc β ε ρ') → Proc β ε ρ'
  | pass r, f => f r
  | quit e, _ => quit e
  | write bytes err next, f => write bytes err (next.bind f)
  | read n next, f => read n fun r => (next r).bind f

/-- One step with a peer that has sent `inbox` and takes what is written, or, when it is
`lost`, with one that is gone. -/
def serve (inbox : List β) : Bool → Proc β ε ρ → Option (Proc β ε ρ × List β)
  | false, p => (p.step 1 false inbox []).map fun (p', rest, _) => (p', rest)
  | true, read (_ + 1) next => some (next none, inbox)
  | true, p => p.fails.map fun p' => (p', inbox)

/-- The process can pass with `r` after it has read `x`, whatever it does about reads that
fail. -/
inductive Accepts : Proc β ε ρ → List β → ρ → Prop where
  | pass (r : ρ) : Accepts (pass r) [] r
  | write {bytes err next x r} (h : Accepts next x r) : Accepts (write bytes err next) x r
  | read {next x r} (bytes : List β) (h : Accepts (next (some bytes)) x r) :
      Accepts (read bytes.length next) (bytes ++ x) r
  | lost {n next x r} (bytes : List β) (hlt : bytes.length < n) (h : Accepts (next none) x r) :
      Accepts (read n next) (bytes ++ x) r

theorem not_accepts_quit (e : ε) : ¬ (quit e : Proc β ε ρ).Accepts x r := by
  intro h
  cases h

theorem accepts_write_iff {bytes : List β} {err : ε} :
    (write bytes err p).Accepts x r ↔ p.Accepts x r := by
  constructor
  · intro h
    cases h with
    | write h => exact h
  · exact .write

/-- A process that quits when a read fails has read all of it. -/
theorem accepts_read {n : ℕ} {next : Option (List β) → Proc β ε ρ} {e : ε}
    (h : (read n next).Accepts x r) (hnone : next none = quit e) :
    ∃ bytes y, bytes.length = n ∧ x = bytes ++ y ∧ (next (some bytes)).Accepts y r := by
  cases h with
  | read bytes h => exact ⟨bytes, _, rfl, rfl, h⟩
  | lost bytes hlt h =>
    rw [hnone] at h
    exact absurd h (not_accepts_quit e)

theorem accepts_of_lost (h : p.serve inbox true = some (p', inbox')) :
    inbox = inbox' ∧ ∀ y r, p'.Accepts y r → p.Accepts y r := by
  cases p with
  | pass r => cases h
  | quit e => cases h
  | write bytes err next =>
    obtain ⟨q, hq, heq⟩ := Option.map_eq_some_iff.mp h
    obtain ⟨rfl, rfl⟩ := Prod.mk.inj heq
    cases bytes with
    | nil => cases hq
    | cons b bytes =>
      obtain rfl := Option.some.inj hq
      exact ⟨rfl, fun y r hy => absurd hy (not_accepts_quit err)⟩
  | read n next =>
    cases n with
    | zero => cases h
    | succ n =>
      obtain ⟨rfl, rfl⟩ := Prod.mk.inj (Option.some.inj h)
      exact ⟨rfl, fun y r hy => .lost [] (by simp) hy⟩

theorem accepts_of_kept (h : p.serve inbox false = some (p', inbox')) :
    ∃ x, inbox = x ++ inbox' ∧ ∀ y r, p'.Accepts y r → p.Accepts (x ++ y) r := by
  obtain ⟨⟨q, rest, out⟩, hq, heq⟩ := Option.map_eq_some_iff.mp h
  obtain ⟨rfl, rfl⟩ := Prod.mk.inj heq
  cases p with
  | pass r => cases hq
  | quit e => cases hq
  | write bytes err next =>
    cases bytes with
    | nil =>
      simp only [step, Option.some.injEq, Prod.mk.injEq] at hq
      obtain ⟨rfl, rfl, -⟩ := hq
      exact ⟨[], rfl, fun y r hy => .write hy⟩
    | cons b bytes =>
      simp only [step, Option.ite_none_right_eq_some, Option.some.injEq, Prod.mk.injEq] at hq
      obtain ⟨-, rfl, rfl, -⟩ := hq
      exact ⟨[], rfl, fun y r hy => .write (accepts_write_iff.mp hy)⟩
  | read n next =>
    cases n with
    | zero =>
      simp only [step, Option.some.injEq, Prod.mk.injEq] at hq
      obtain ⟨rfl, rfl, -⟩ := hq
      exact ⟨[], rfl, fun y r hy => .read [] hy⟩
    | succ n =>
      cases inbox with
      | nil => simp [step] at hq
      | cons b inbox =>
        simp only [step, Option.some.injEq, Prod.mk.injEq] at hq
        obtain ⟨rfl, rfl, -⟩ := hq
        refine ⟨[b], rfl, fun y r hy => ?_⟩
        -- the element goes in front of those that are read after it
        cases hy with
        | read bytes hy => exact .read (b :: bytes) hy
        | lost bytes hlt hy => exact .lost (b :: bytes) (by simpa using hlt) hy

/-- What a step takes from the stream is read before the rest. -/
theorem accepts_of_serve {lost : Bool} (h : p.serve inbox lost = some (p', inbox')) :
    ∃ x, inbox = x ++ inbox' ∧ ∀ y r, p'.Accepts y r → p.Accepts (x ++ y) r := by
  cases lost with
  | true => exact ⟨[], accepts_of_lost h⟩
  | false => exact accepts_of_kept h

/-- With the peer closed, a process can do what it could do before. -/
theorem step_of_closed {cap : ℕ} {peer peer' : Bool} {outbox outbox' : List β}
    (h : p.step cap peer inbox outbox = some (p', inbox', outbox'))
    (hpeer : peer = true → peer' = true) :
    p.step cap peer' inbox outbox = some (p', inbox', outbox') := by
  obtain ⟨k, y, -, rfl, rfl, hmono⟩ := step_mono h
  have hsame := hmono peer' [] outbox (fun hp => ⟨hpeer hp, rfl⟩) (Nat.le_refl _)
  simpa using hsame

/-- What a process does with a peer, it may do with any peer that sends the same. -/
theorem serve_of_step {cap : ℕ} {peer : Bool} {outbox outbox' : List β}
    (h : p.step cap peer inbox outbox = some (p', inbox', outbox')) :
    ∃ lost, p.serve inbox lost = some (p', inbox') ∧
      (lost = true → peer = true ∧ p.reads = true ∧ inbox = []) := by
  cases p with
  | pass r => cases h
  | quit e => cases h
  | write bytes err next =>
    refine ⟨false, ?_, nofun⟩
    cases bytes with
    | nil =>
      simp only [step, Option.some.injEq, Prod.mk.injEq] at h
      obtain ⟨rfl, rfl, -⟩ := h
      rfl
    | cons b bytes =>
      simp only [step, Option.ite_none_right_eq_some, Option.some.injEq, Prod.mk.injEq] at h
      obtain ⟨-, rfl, rfl, -⟩ := h
      rfl
  | read n next =>
    cases n with
    | zero =>
      simp only [step, Option.some.injEq, Prod.mk.injEq] at h
      obtain ⟨rfl, rfl, -⟩ := h
      exact ⟨false, rfl, nofun⟩
    | succ n =>
      cases inbox with
      | cons b rest =>
        simp only [step, Option.some.injEq, Prod.mk.injEq] at h
        obtain ⟨rfl, rfl, -⟩ := h
        exact ⟨false, rfl, nofun⟩
      | nil =>
        simp only [step, Option.ite_none_right_eq_some, Option.some.injEq, Prod.mk.injEq] at h
        obtain ⟨hpeer, rfl, rfl, -⟩ := h
        exact ⟨true, rfl, fun _ => ⟨hpeer, rfl, rfl⟩⟩

theorem serve_of_fails (h : p.fails = some p') (inbox : List β) :
    p.serve inbox true = some (p', inbox) := by
  cases p with
  | write bytes err next =>
    cases bytes with
    | nil => cases h
    | cons b bytes =>
      obtain rfl := Option.some.inj h
      rfl
  | pass r => cases h
  | quit e => cases h
  | read n next => cases h

/-! ### One process after another -/

/-- The process has neither passed nor quit. -/
def busy : Proc β ε ρ → Bool
  | pass _ => false
  | quit _ => false
  | _ => true

theorem closed_of_busy (h : p.busy = true) : p.closed = false := by
  cases p with
  | quit e => cases h
  | _ => rfl

variable {f : ρ → Proc β ε ρ'}

theorem step_bind (hp : p.busy = true) (cap : ℕ) (peer : Bool) (inbox outbox : List β) :
    (p.bind f).step cap peer inbox outbox =
      (p.step cap peer inbox outbox).map fun (p', l, r) => (p'.bind f, l, r) := by
  cases p with
  | pass r => cases hp
  | quit e => rfl
  | write bytes err next =>
    cases bytes with
    | nil => rfl
    | cons b bytes =>
      simp only [bind, step]
      split_ifs <;> rfl
  | read n next =>
    cases n with
    | zero => rfl
    | succ n =>
      cases inbox with
      | cons b rest => rfl
      | nil =>
        simp only [bind, step]
        split_ifs <;> rfl

theorem fails_bind (hp : p.busy = true) : (p.bind f).fails = p.fails.map (·.bind f) := by
  cases p with
  | pass r => cases hp
  | quit e => rfl
  | write bytes err next => cases bytes <;> rfl
  | read n next => rfl

theorem FailsIn.bind {P : β → ε → Prop} (hp : p.FailsIn P) (hf : ∀ r, (f r).FailsIn P) :
    (p.bind f).FailsIn P := by
  induction p with
  | pass r => exact hf r
  | quit e => trivial
  | write bytes err next ih => exact ⟨hp.1.imp_right fun heq => by rw [heq]; rfl, ih hp.2⟩
  | read n next ih => exact fun x => ih x (hp x)

/-- The process cannot pass without writing. -/
def Announces : Proc β ε ρ → Prop
  | pass _ => False
  | quit _ => True
  | write bytes _ next => bytes ≠ [] ∨ next.Announces
  | read _ next => ∀ r, (next r).Announces

theorem Announces.bind (hf : ∀ r, (f r).Announces) : (p.bind f).Announces := by
  induction p with
  | pass r => exact hf r
  | quit e => trivial
  | write bytes err next ih => exact .inr ih
  | read n next ih => exact fun r => ih r

/-- Until it has written, a step does not change that. -/
theorem Announces.step (hp : p.Announces) {cap : ℕ} {peer : Bool} {outbox outbox' : List β}
    (h : p.step cap peer inbox outbox = some (p', inbox', outbox')) :
    p'.Announces ∨ outbox' ≠ [] := by
  cases p with
  | pass r => cases h
  | quit e => cases h
  | write bytes err next =>
    cases bytes with
    | nil =>
      simp only [Proc.step, Option.some.injEq, Prod.mk.injEq] at h
      obtain ⟨rfl, -, -⟩ := h
      exact .inl (hp.resolve_left (by simp))
    | cons b bytes =>
      simp only [Proc.step, Option.ite_none_right_eq_some, Option.some.injEq,
        Prod.mk.injEq] at h
      obtain ⟨-, -, -, rfl⟩ := h
      exact .inr (by simp)
  | read n next =>
    cases n with
    | zero =>
      simp only [Proc.step, Option.some.injEq, Prod.mk.injEq] at h
      obtain ⟨rfl, -, -⟩ := h
      exact .inl (hp _)
    | succ n =>
      cases inbox with
      | cons b rest =>
        simp only [Proc.step, Option.some.injEq, Prod.mk.injEq] at h
        obtain ⟨rfl, -, -⟩ := h
        exact .inl fun r => hp _
      | nil =>
        simp only [Proc.step, Option.ite_none_right_eq_some, Option.some.injEq,
          Prod.mk.injEq] at h
        obtain ⟨-, rfl, -, -⟩ := h
        exact .inl (hp none)

end Proc

/-! ## A side that has passed -/

variable {a : ρ} {b : ρ'}

/-- When the left side has passed, what the right side writes stays. -/
theorem Reaches.pass_left (h : Reaches capLeft capRight s t) (hl : s.left = .pass a)
    (hr : s.right.Announces ∨ s.toLeft ≠ []) :
    t.left = .pass a ∧ (t.right.Announces ∨ t.toLeft ≠ []) := by
  obtain ⟨es, hes⟩ := h
  refine run_invariant (I := fun t : State β ε ε' ρ ρ' => t.left = .pass a ∧
    (t.right.Announces ∨ t.toLeft ≠ [])) ?_ ⟨hl, hr⟩ hes
  rintro ⟨p, q, l, r⟩ e v ⟨rfl, hq⟩ hv
  cases e with
  | left => cases hv
  | right =>
    obtain ⟨⟨q', r', l'⟩, hstep, rfl⟩ := Option.map_eq_some_iff.mp hv
    refine ⟨rfl, ?_⟩
    obtain ⟨-, x, -, -, rfl, -⟩ := Proc.step_mono hstep
    rcases hq with hq | hne
    · exact hq.step hstep
    · exact .inr (by simp [hne])
  | leftFails => cases hv
  | rightFails => cases hv

/-- When the right side has passed, the left side goes on alone. -/
theorem Reaches.pass_right (h : Reaches capLeft capRight s t) (hr : s.right = .pass b) :
    t.right = .pass b ∧ s.toRight <+: t.toRight := by
  obtain ⟨es, hes⟩ := h
  refine run_invariant (I := fun t : State β ε ε' ρ ρ' => t.right = .pass b ∧
    s.toRight <+: t.toRight) ?_ ⟨hr, List.prefix_rfl⟩ hes
  rintro ⟨p, q, l, r⟩ e v ⟨rfl, hpre⟩ hv
  cases e with
  | left =>
    obtain ⟨⟨p', l', r'⟩, hstep, rfl⟩ := Option.map_eq_some_iff.mp hv
    obtain ⟨-, x, -, -, rfl, -⟩ := Proc.step_mono hstep
    exact ⟨rfl, hpre.trans (List.prefix_append _ _)⟩
  | right => cases hv
  | leftFails => cases hv
  | rightFails => cases hv

/-- A side that passes has accepted what it has read. -/
theorem exists_accepts_left {es : List Event} (h : run (step capLeft capRight) s es = some t)
    (ht : t.left = .pass a) : ∃ x, s.left.Accepts x a := by
  have hall : ∀ y, t.left.Accepts y a → ∃ x, s.left.Accepts x a := by
    refine run_invariant (I := fun t : State β ε ε' ρ ρ' => ∀ y, t.left.Accepts y a →
      ∃ x, s.left.Accepts x a) ?_ (fun y hy => ⟨y, hy⟩) h
    intro u e v hu hv y hy
    cases e with
    | left =>
      obtain ⟨⟨p', l', r'⟩, hstep, rfl⟩ := Option.map_eq_some_iff.mp hv
      obtain ⟨lost, hserve, -⟩ := Proc.serve_of_step hstep
      obtain ⟨x, -, hback⟩ := Proc.accepts_of_serve hserve
      exact hu _ (hback y a hy)
    | right =>
      obtain ⟨⟨q', r', l'⟩, -, rfl⟩ := Option.map_eq_some_iff.mp hv
      exact hu y hy
    | leftFails =>
      obtain ⟨-, hv⟩ := Option.ite_none_right_eq_some.mp hv
      obtain ⟨p', hfails, rfl⟩ := Option.map_eq_some_iff.mp hv
      obtain ⟨x, -, hback⟩ := Proc.accepts_of_serve (Proc.serve_of_fails hfails [])
      exact hu _ (hback y a hy)
    | rightFails =>
      obtain ⟨-, hv⟩ := Option.ite_none_right_eq_some.mp hv
      obtain ⟨q', -, rfl⟩ := Option.map_eq_some_iff.mp hv
      exact hu y hy
  exact hall [] (by rw [ht]; exact .pass a)

end Dialogue
