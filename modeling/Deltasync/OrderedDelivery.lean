import Deltasync.Sync

/-!
# What the ordered channel keeps true

The receiver announces the indices `0, 1, 2, …` one at a time and not before
the previous value has been returned, so that at most one value is on its way
(in the slot, or taken and not yet returned).  A `send` that has not returned
carries an index that nothing placed so far has used; hence the slot is empty
whenever its index is the announced one, and `blocking_send` never blocks.
-/

namespace Deltasync.OrderedChannel

variable {ι I T : Type*}

/-- The values that entered the slot and have not been returned yet. -/
def inFlight (c : OrderedChannel ι I T) : List T := c.recv.value ++ c.slot.toList

/-- What `wanted_idx` is, from the number of values returned. -/
def announced [AddMonoidWithOne I] (receiving : Bool) : ℕ → Option I
  | 0 => if receiving then some 0 else none
  | n + 1 => if receiving then some ((n + 1 : ℕ) : I) else some (n : I)

structure Inv [AddMonoidWithOne I] (c : OrderedChannel ι I T) : Prop where
  lock_eq : c.lock = none
  not_blocked : ∀ i idx v, c.send i ≠ .blocked idx v
  placed_eq : c.placed = c.delivered ++ c.inFlight
  inFlight_le : c.inFlight.length ≤ 1
  receiving_of_pending : c.inFlight ≠ [] ∨ c.recv = .awaiting → c.receiving = true
  wanted_eq : c.wantedIdx = announced c.receiving c.delivered.length
  placed_called : ∀ (k : ℕ) v, c.placed[k]? = some v → ((k : I), v) ∈ c.calls
  request_called : ∀ i r, (c.send i).request = some r → r ∈ c.calls
  request_fresh : ∀ i idx v, (c.send i).request = some (idx, v) →
    ∀ k : ℕ, k < c.placed.length → (k : I) ≠ idx
  request_inj : ∀ i j idx v v', (c.send i).request = some (idx, v) →
    (c.send j).request = some (idx, v') → i = j
  waiting_open : ∀ i idx v, c.send i = .waiting idx v →
    c.recvClosed = false ∧ c.wantedIdx ≠ some idx
  recvClosed_of_rxClosed : c.rxClosed = true → c.recvClosed = true

@[simp] theorem request_wake (x : SendCall I T) : x.wake.request = x.request := by
  cases x <;> rfl

theorem wake_ne_waiting (x : SendCall I T) (idx : I) (v : T) : x.wake ≠ .waiting idx v := by
  cases x <;> simp [SendCall.wake]

theorem wake_eq_blocked {x : SendCall I T} {idx : I} {v : T} (h : x.wake = .blocked idx v) :
    x = .blocked idx v := by
  cases x <;> simp_all [SendCall.wake]

theorem slot_of_inFlight {c : OrderedChannel ι I T} (h : c.inFlight = []) :
    c.slot = none ∧ c.recv.value = [] := by
  rw [inFlight, List.append_eq_nil_iff] at h
  refine ⟨?_, h.1⟩
  cases hs : c.slot with
  | none => rfl
  | some v => simp [hs] at h

theorem request_setSend [DecidableEq ι] (c : OrderedChannel ι I T) (i j : ι) (x : SendCall I T) :
    ((c.setSend i x).send j).request = if j = i then x.request else (c.send j).request := by
  simp only [setSend, Function.update_apply]
  split_ifs <;> rfl

theorem announced_succ [AddMonoidWithOne I] (n : ℕ) :
    (announced true n : Option I) = announced false (n + 1) := by
  cases n <;> simp [announced]

theorem announced_true [AddMonoidWithOne I] (n : ℕ) :
    (announced true n : Option I) = some (n : I) := by
  cases n <;> simp [announced]

/-- The next announcement, after `n` values have been returned. -/
theorem nextIdx_announced [AddMonoidWithOne I] (n : ℕ) :
    nextIdx (announced false n : Option I) = (n : I) := by
  cases n <;> simp [announced, nextIdx]

theorem inv_new [AddMonoidWithOne I] : (new : OrderedChannel ι I T).Inv where
  lock_eq := rfl
  not_blocked := by simp [new]
  placed_eq := rfl
  inFlight_le := by simp [new, inFlight, RecvCall.value]
  receiving_of_pending := by simp [new, inFlight, RecvCall.value]
  wanted_eq := rfl
  placed_called := by simp [new]
  request_called := by simp [new, SendCall.request]
  request_fresh := by simp [new]
  request_inj := by simp [new, SendCall.request]
  waiting_open := by simp [new]
  recvClosed_of_rxClosed := by simp [new]

section Invariant

variable [AddMonoidWithOne I] {c c' : OrderedChannel ι I T}

/-- A thread that may send has the announced index, and nothing is on its way. -/
theorem Inv.slot_empty (h : c.Inv) {i : ι} {idx : I} {v : T}
    (hi : (c.send i).request = some (idx, v)) (hw : c.wantedIdx = some idx) :
    c.inFlight = [] ∧ c.receiving = true ∧ (c.placed.length : I) = idx := by
  have hlen : c.placed.length = c.delivered.length + c.inFlight.length := by
    rw [h.placed_eq, List.length_append]
  rw [h.wanted_eq] at hw
  cases hr : c.receiving with
  | false =>
    rw [hr] at hw
    -- the last announced index has been placed already
    cases hd : c.delivered.length with
    | zero => simp [announced, hd] at hw
    | succ n =>
      simp only [announced, hd, Bool.false_eq_true, if_false, Option.some.injEq] at hw
      exact absurd hw (h.request_fresh i idx v hi n (by omega))
  | true =>
    rw [hr, announced_true, Option.some.injEq] at hw
    have hnil : c.inFlight = [] := by
      by_contra hne
      have hpos := List.length_pos_iff.mpr hne
      exact h.request_fresh i idx v hi c.delivered.length (by omega) hw
    refine ⟨hnil, rfl, ?_⟩
    rw [hlen, hnil, List.length_nil, Nat.add_zero, hw]

theorem Inv.not_receiving (h : c.Inv) (hr : c.receiving = false) : c.inFlight = [] := by
  by_contra hne
  have := h.receiving_of_pending (.inl hne)
  simp [hr] at this

theorem Inv.notifyAll (h : c.Inv) : c.notifyAll.Inv := by
  refine ⟨h.lock_eq, ?_, h.placed_eq, h.inFlight_le, h.receiving_of_pending, h.wanted_eq,
    h.placed_called, ?_, ?_, ?_, ?_, h.recvClosed_of_rxClosed⟩
  · intro j idx v hj
    exact h.not_blocked j idx v (wake_eq_blocked hj)
  · intro j r hj
    exact h.request_called j r (by rwa [← request_wake])
  · intro j idx v hj
    exact h.request_fresh j idx v (by rwa [← request_wake])
  · intro j k idx v v' hj hk
    exact h.request_inj j k idx v v' (by rwa [← request_wake]) (by rwa [← request_wake])
  · intro j idx v hj
    exact absurd hj (wake_ne_waiting _ idx v)

/-- After a `notify_all` no thread waits, whatever becomes of the two flags. -/
theorem Inv.close (h : c.Inv) (closed : Bool) :
    ({ c with recvClosed := true, rxClosed := closed }.notifyAll).Inv := by
  have hn := h.notifyAll
  refine ⟨hn.lock_eq, hn.not_blocked, hn.placed_eq, hn.inFlight_le, hn.receiving_of_pending,
    hn.wanted_eq, hn.placed_called, hn.request_called, hn.request_fresh, hn.request_inj, ?_,
    fun _ => rfl⟩
  intro j idx v hj
  exact absurd hj (wake_ne_waiting _ idx v)

theorem Inv.recvEnter (h : c.Inv) (hs : c.recvEnter = some c') : c'.Inv := by
  unfold OrderedChannel.recvEnter at hs
  split at hs
  case h_2 => cases hs
  case h_1 hidle =>
    have hfl : c.inFlight = c.slot.toList := by rw [inFlight, hidle]; rfl
    rw [if_neg (by simp [h.lock_eq])] at hs
    split_ifs at hs with hr
    · obtain rfl := Option.some.inj hs
      have hp := h.placed_eq
      have hle := h.inFlight_le
      rw [hfl] at hp hle
      exact ⟨h.lock_eq, h.not_blocked, hp, hle, fun _ => hr, h.wanted_eq, h.placed_called,
        h.request_called, h.request_fresh, h.request_inj, h.waiting_open,
        h.recvClosed_of_rxClosed⟩
    · obtain rfl := Option.some.inj hs
      -- a new announcement, with nothing in flight
      have hr' : c.receiving = false := by simpa using hr
      have hnil : c.slot.toList = [] := by rw [← hfl]; exact h.not_receiving hr'
      have hn := h.notifyAll
      refine ⟨h.lock_eq, hn.not_blocked, ?_, ?_, fun _ => rfl, ?_, h.placed_called,
        hn.request_called, hn.request_fresh, hn.request_inj, ?_, h.recvClosed_of_rxClosed⟩
      · change c.placed = c.delivered ++ c.slot.toList
        rw [h.placed_eq, hfl]
      · change (c.slot.toList).length ≤ 1
        rw [hnil]; simp
      · change some (nextIdx c.wantedIdx) = announced true c.delivered.length
        rw [h.wanted_eq, hr', nextIdx_announced, announced_true]
      · intro j idx v hj
        exact absurd hj (wake_ne_waiting _ idx v)

theorem Inv.recvTake (h : c.Inv) (hs : c.recvTake = some c') : c'.Inv := by
  unfold OrderedChannel.recvTake at hs
  split at hs
  case h_2 => cases hs
  case h_1 v hw hv =>
    obtain rfl := Option.some.inj hs
    have hfl : c.inFlight = [v] := by rw [inFlight, hw, hv]; rfl
    exact ⟨h.lock_eq, h.not_blocked, by rw [h.placed_eq, hfl]; rfl, by simp [inFlight,
      RecvCall.value], fun _ => h.receiving_of_pending (.inl (by simp [hfl])), h.wanted_eq,
      h.placed_called, h.request_called, h.request_fresh, h.request_inj, h.waiting_open,
      h.recvClosed_of_rxClosed⟩

/-- Leaving `recv` at its await changes nothing but the position of the receiver. -/
theorem Inv.leaveRecv (h : c.Inv) (hv : c.recv.value = []) : { c with recv := .idle }.Inv := by
  have hfl : c.inFlight = ({ c with recv := .idle } : OrderedChannel ι I T).inFlight := by
    rw [inFlight, inFlight, hv]; rfl
  have hp := h.placed_eq
  rw [hfl] at hp
  exact ⟨h.lock_eq, h.not_blocked, hp, by rw [← hfl]; exact h.inFlight_le,
    fun hne => h.receiving_of_pending (.inl (by rw [hfl]; simpa using hne)), h.wanted_eq,
    h.placed_called,
    h.request_called, h.request_fresh, h.request_inj, h.waiting_open, h.recvClosed_of_rxClosed⟩

theorem Inv.recvNone [Fintype ι] (h : c.Inv) (hs : c.recvNone = some c') : c'.Inv := by
  unfold OrderedChannel.recvNone at hs
  split at hs
  case h_2 => cases hs
  case h_1 hw =>
    simp only [Option.ite_none_right_eq_some, Option.some.injEq] at hs
    obtain ⟨-, rfl⟩ := hs
    exact h.leaveRecv (by rw [hw]; rfl)

omit [AddMonoidWithOne I] in
/-- Only a `recv` that holds no value can be cancelled. -/
theorem recvCancel_eq (hs : c.recvCancel = some c') :
    c.recv.value = [] ∧ c' = { c with recv := .idle } := by
  unfold OrderedChannel.recvCancel at hs
  split at hs
  · cases hs
  · next hne =>
    refine ⟨?_, (Option.some.inj hs).symm⟩
    cases hr : c.recv with
    | idle => rfl
    | awaiting => rfl
    | took v => exact absurd hr (hne v)

theorem Inv.recvCancel (h : c.Inv) (hs : c.recvCancel = some c') : c'.Inv := by
  obtain ⟨hv, rfl⟩ := recvCancel_eq hs
  exact h.leaveRecv hv

theorem Inv.recvFinish (h : c.Inv) {v : T} (hs : c.recvFinish = some (c', v)) : c'.Inv := by
  unfold OrderedChannel.recvFinish at hs
  split at hs
  case h_2 => cases hs
  case h_1 v' ht =>
    rw [if_neg (by simp [h.lock_eq])] at hs
    simp only [Option.some.injEq, Prod.mk.injEq] at hs
    obtain ⟨rfl, rfl⟩ := hs
    have hfl : c.inFlight = v' :: c.slot.toList := by rw [inFlight, ht]; rfl
    have hslot : c.slot.toList = [] := by
      have hle := h.inFlight_le
      rw [hfl, List.length_cons] at hle
      exact List.eq_nil_of_length_eq_zero (by omega)
    have hr : c.receiving = true := h.receiving_of_pending (.inl (by simp [hfl]))
    refine ⟨h.lock_eq, h.not_blocked, ?_, ?_, ?_, ?_, h.placed_called, h.request_called,
      h.request_fresh, h.request_inj, h.waiting_open, h.recvClosed_of_rxClosed⟩
    · change c.placed = c.delivered ++ [v'] ++ ([] ++ c.slot.toList)
      rw [h.placed_eq, hfl, hslot, List.nil_append, List.append_nil]
    · change ([] ++ c.slot.toList).length ≤ 1
      rw [hslot]; simp
    · rintro (hne | hne)
      · exact absurd (show [] ++ c.slot.toList = [] by rw [hslot]; rfl) hne
      · cases hne
    · change c.wantedIdx = announced false (c.delivered ++ [v']).length
      rw [h.wanted_eq, hr, announced_succ, List.length_append, List.length_singleton]

theorem Inv.closeRx (h : c.Inv) (hs : c.closeRx = some c') : c'.Inv := by
  unfold OrderedChannel.closeRx at hs
  split at hs
  case h_2 => cases hs
  case h_1 =>
    rw [if_neg (by simp [h.lock_eq])] at hs
    split_ifs at hs
    · obtain rfl := Option.some.inj hs
      exact h
    · obtain rfl := Option.some.inj hs
      exact h.close true

variable [DecidableEq ι]

/-- Changing the state of a call that stays inside `send` with the same request. -/
theorem Inv.setSend_request (h : c.Inv) {i : ι} {x : SendCall I T}
    (hx : x.request = (c.send i).request) (hb : ∀ idx v, x ≠ .blocked idx v)
    (hw : ∀ idx v, x = .waiting idx v → c.recvClosed = false ∧ c.wantedIdx ≠ some idx) :
    (c.setSend i x).Inv := by
  have hreq : ∀ j, ((c.setSend i x).send j).request = (c.send j).request := by
    intro j
    rw [request_setSend]
    split_ifs with hj
    · rw [hj, hx]
    · rfl
  refine ⟨h.lock_eq, ?_, h.placed_eq, h.inFlight_le, h.receiving_of_pending, h.wanted_eq,
    h.placed_called, ?_, ?_, ?_, ?_, h.recvClosed_of_rxClosed⟩
  · intro j idx v hj
    simp only [setSend, Function.update_apply] at hj
    split_ifs at hj
    · exact hb idx v hj
    · exact h.not_blocked j idx v hj
  · intro j r hj
    rw [hreq] at hj
    exact h.request_called j r hj
  · intro j idx v hj
    rw [hreq] at hj
    exact h.request_fresh j idx v hj
  · intro j k idx v v' hj hk
    rw [hreq] at hj hk
    exact h.request_inj j k idx v v' hj hk
  · intro j idx v hj
    simp only [setSend, Function.update_apply] at hj
    split_ifs at hj
    · exact hw idx v hj
    · exact h.waiting_open j idx v hj

/-- A call that returns. -/
theorem Inv.setSend_idle (h : c.Inv) (i : ι) : (c.setSend i .idle).Inv := by
  have hreq : ∀ j r, ((c.setSend i .idle).send j).request = some r →
      (c.send j).request = some r := by
    intro j r hj
    rw [request_setSend] at hj
    split_ifs at hj
    · simp [SendCall.request] at hj
    · exact hj
  refine ⟨h.lock_eq, ?_, h.placed_eq, h.inFlight_le, h.receiving_of_pending, h.wanted_eq,
    h.placed_called, fun j r hj => h.request_called j r (hreq j r hj),
    fun j idx v hj => h.request_fresh j idx v (hreq j _ hj),
    fun j k idx v v' hj hk => h.request_inj j k idx v v' (hreq j _ hj) (hreq k _ hk), ?_,
    h.recvClosed_of_rxClosed⟩
  · intro j idx v hj
    simp only [setSend, Function.update_apply] at hj
    split_ifs at hj
    exact h.not_blocked j idx v hj
  · intro j idx v hj
    simp only [setSend, Function.update_apply] at hj
    split_ifs at hj
    exact h.waiting_open j idx v hj

theorem Inv.callSend (h : c.Inv) {i : ι} {idx : I} {v : T}
    (hfresh : idx ∉ c.calls.map Prod.fst) (hs : c.callSend i idx v = some c') : c'.Inv := by
  simp only [OrderedChannel.callSend, Option.ite_none_right_eq_some, Option.some.injEq] at hs
  obtain ⟨-, rfl⟩ := hs
  have hne : ∀ idx' v', (idx', v') ∈ c.calls → idx' ≠ idx := by
    rintro idx' v' hmem rfl
    exact hfresh (List.mem_map.mpr ⟨_, hmem, rfl⟩)
  have hreq := request_setSend c i
  refine ⟨h.lock_eq, ?_, h.placed_eq, h.inFlight_le, h.receiving_of_pending, h.wanted_eq,
    ?_, ?_, ?_, ?_, ?_, h.recvClosed_of_rxClosed⟩
  · intro j idx' v' hj
    simp only [setSend, Function.update_apply] at hj
    split_ifs at hj
    exact h.not_blocked j idx' v' hj
  · intro k v' hk
    exact List.mem_append_left _ (h.placed_called k v' hk)
  · intro j r hj
    change ((c.setSend i _).send j).request = some r at hj
    rw [hreq] at hj
    split_ifs at hj
    · simp only [SendCall.request, Option.some.injEq] at hj
      exact List.mem_append_right _ (by simp [hj])
    · exact List.mem_append_left _ (h.request_called j r hj)
  · intro j idx' v' hj k hk
    change ((c.setSend i _).send j).request = some _ at hj
    rw [hreq] at hj
    split_ifs at hj
    · simp only [SendCall.request, Option.some.injEq, Prod.mk.injEq] at hj
      obtain ⟨rfl, rfl⟩ := hj
      exact hne _ _ (h.placed_called k _ (List.getElem?_eq_getElem hk))
    · exact h.request_fresh j idx' v' hj k hk
  · intro j k idx' v' v'' hj hk
    change ((c.setSend i _).send j).request = some _ at hj
    change ((c.setSend i _).send k).request = some _ at hk
    rw [hreq] at hj hk
    -- the new index differs from those of all calls before
    split_ifs at hj hk with h1 h2 h2
    · rw [h1, h2]
    · simp only [SendCall.request, Option.some.injEq, Prod.mk.injEq] at hj
      exact absurd hj.1.symm (hne _ _ (h.request_called k _ hk))
    · simp only [SendCall.request, Option.some.injEq, Prod.mk.injEq] at hk
      exact absurd hk.1.symm (hne _ _ (h.request_called j _ hj))
    · exact h.request_inj j k idx' v' v'' hj hk
  · intro j idx' v' hj
    simp only [setSend, Function.update_apply] at hj
    split_ifs at hj
    exact h.waiting_open j idx' v' hj

/-- The value of a call that may send enters the empty slot. -/
def place (c : OrderedChannel ι I T) (i : ι) (v : T) : OrderedChannel ι I T :=
  { c.setSend i .idle with slot := some v, placed := c.placed ++ [v] }

theorem Inv.place (h : c.Inv) {i : ι} {idx : I} {v : T}
    (hi : (c.send i).request = some (idx, v)) (hw : c.wantedIdx = some idx) :
    (c.place i v).Inv := by
  obtain ⟨hnil, hr, hidx⟩ := h.slot_empty hi hw
  obtain ⟨hslot, hrecv⟩ := slot_of_inFlight hnil
  have hp : c.placed = c.delivered := by rw [h.placed_eq, hnil, List.append_nil]
  have hfl : (c.place i v).inFlight = [v] := by
    change c.recv.value ++ [v] = [v]
    rw [hrecv, List.nil_append]
  have hs := h.setSend_idle i
  have hreq : ∀ j idx' v', ((c.place i v).send j).request = some (idx', v') →
      j ≠ i ∧ (c.send j).request = some (idx', v') := by
    intro j idx' v' hj
    change ((c.setSend i .idle).send j).request = some _ at hj
    rw [request_setSend] at hj
    split_ifs at hj with h1
    · simp [SendCall.request] at hj
    · exact ⟨h1, hj⟩
  refine ⟨h.lock_eq, hs.not_blocked, ?_, by rw [hfl]; simp, fun _ => hr, h.wanted_eq, ?_,
    hs.request_called, ?_, hs.request_inj, hs.waiting_open, h.recvClosed_of_rxClosed⟩
  · rw [hfl]
    change c.placed ++ [v] = c.delivered ++ [v]
    rw [hp]
  · intro k v' hk
    change (c.placed ++ [v])[k]? = some v' at hk
    rcases Nat.lt_trichotomy k c.placed.length with hlt | heq | hgt
    · rw [List.getElem?_append_left hlt] at hk
      exact h.placed_called k v' hk
    · subst heq
      obtain rfl : v = v' := by simpa using hk
      rw [hidx]
      exact h.request_called i _ hi
    · rw [List.getElem?_eq_none (by simp; omega)] at hk
      simp at hk
  · intro j idx' v' hj k hk
    obtain ⟨hji, hj'⟩ := hreq j idx' v' hj
    have hk' : k < c.placed.length ∨ k = c.placed.length := by
      have : k < (c.placed ++ [v]).length := hk
      simp only [List.length_append, List.length_singleton] at this
      omega
    rcases hk' with hk' | rfl
    · exact h.request_fresh j idx' v' hj' k hk'
    · rw [hidx]
      rintro rfl
      exact hji (h.request_inj j i idx v' v hj' hi)

variable [DecidableEq I]

/-- Everything one turn of `send` can do.  `blocking_send` neither blocks nor fails. -/
theorem Inv.sendStep_cases (h : c.Inv) {i : ι} {r : Option SendResult}
    (hs : c.sendStep i = some (c', r)) :
    ∃ idx v, c.send i = .locking idx v ∧
      ((c.recvClosed = true ∧ c' = c.setSend i .idle ∧ r = some .closed) ∨
        (c.recvClosed = false ∧ c.wantedIdx = some idx ∧ c' = c.place i v ∧ r = some .sent) ∨
        (c.recvClosed = false ∧ c.wantedIdx ≠ some idx ∧ c' = c.setSend i (.waiting idx v) ∧
          r = none)) := by
  cases hi : c.send i with
  | idle => simp [OrderedChannel.sendStep, hi] at hs
  | waiting idx v => simp [OrderedChannel.sendStep, hi] at hs
  | blocked idx v => exact absurd hi (h.not_blocked i idx v)
  | locking idx v =>
    refine ⟨idx, v, rfl, ?_⟩
    simp only [OrderedChannel.sendStep, hi, h.lock_eq, Option.isSome_none, Bool.false_eq_true,
      if_false] at hs
    split_ifs at hs with hcl hw
    · simp only [Option.some.injEq, Prod.mk.injEq] at hs
      exact .inl ⟨hcl, hs.1.symm, hs.2.symm⟩
    · -- neither closed nor full, hence `blocking_send` returns at once
      have hopen : c.rxClosed = false := by
        by_contra hcon
        exact hcl (h.recvClosed_of_rxClosed (by simpa using hcon))
      have hslot := (slot_of_inFlight
        (h.slot_empty (i := i) (v := v) (by rw [hi]; rfl) hw).1).1
      simp only [blockingSend, hopen, hslot, Bool.false_eq_true, if_false, Option.some.injEq,
        Prod.mk.injEq] at hs
      refine .inr (.inl ⟨by simpa using hcl, hw, ?_, hs.2.symm⟩)
      rw [← hs.1, OrderedChannel.place, ← h.lock_eq]
      rfl
    · simp only [Option.some.injEq, Prod.mk.injEq] at hs
      exact .inr (.inr ⟨by simpa using hcl, hw, hs.1.symm, hs.2.symm⟩)

theorem Inv.sendStep (h : c.Inv) {i : ι} {r : Option SendResult}
    (hs : c.sendStep i = some (c', r)) : c'.Inv := by
  obtain ⟨idx, v, hi, ⟨-, rfl, -⟩ | ⟨-, hw, rfl, -⟩ | ⟨hcl, hw, rfl, -⟩⟩ := h.sendStep_cases hs
  · exact h.setSend_idle i
  · exact h.place (by rw [hi]; rfl) hw
  · refine h.setSend_request (by rw [hi]; rfl) (by simp) ?_
    intro idx' v' heq
    cases heq
    exact ⟨hcl, hw⟩

omit [DecidableEq I] in
theorem Inv.wakeOne (h : c.Inv) {i : ι} (hs : c.wakeOne i = some c') : c'.Inv := by
  unfold OrderedChannel.wakeOne at hs
  split at hs
  · next idx v hi =>
    obtain rfl := Option.some.inj hs
    exact h.setSend_request (by rw [hi]; rfl) (by simp) (by simp)
  · cases hs

omit [DecidableEq ι] [DecidableEq I] in
theorem Inv.closeTx (h : c.Inv) {i : ι} (hs : c.closeTx i = some c') : c'.Inv := by
  simp only [OrderedChannel.closeTx, Option.ite_none_right_eq_some, Option.some.injEq] at hs
  obtain ⟨-, rfl⟩ := hs
  exact h.close c.rxClosed

omit [DecidableEq I] in
theorem Inv.dropTx (h : c.Inv) {i : ι} (hs : c.dropTx i = some c') : c'.Inv := by
  simp only [OrderedChannel.dropTx, Option.ite_none_right_eq_some, Option.some.injEq] at hs
  obtain ⟨-, rfl⟩ := hs
  exact ⟨h.lock_eq, h.not_blocked, h.placed_eq, h.inFlight_le, h.receiving_of_pending,
    h.wanted_eq, h.placed_called, h.request_called, h.request_fresh, h.request_inj,
    h.waiting_open, h.recvClosed_of_rxClosed⟩

end Invariant

/-! ## Whole runs -/

section Runs

variable [DecidableEq ι] [Fintype ι] [DecidableEq I] [AddMonoidWithOne I]

omit [Fintype ι] [DecidableEq I] [AddMonoidWithOne I] in
theorem calls_blockingSend (c : OrderedChannel ι I T) (i : ι) (idx : I) (v : T) :
    (c.blockingSend i idx v).1.calls = c.calls := by
  unfold blockingSend
  split_ifs
  · rfl
  · cases c.slot <;> rfl

/-- The history of calls only grows, by the calls made. -/
theorem calls_step {c c' : OrderedChannel ι I T} {e : Event ι I T} (hs : c.step e = some c') :
    c'.calls = c.calls ∨ ∃ i idx v, e = .callSend i idx v ∧ c'.calls = c.calls ++ [(idx, v)] := by
  cases e with
  | callSend i idx v =>
    simp only [step, callSend, Option.ite_none_right_eq_some, Option.some.injEq] at hs
    obtain ⟨-, rfl⟩ := hs
    exact .inr ⟨i, idx, v, rfl, rfl⟩
  | sendStep i =>
    left
    simp only [step, Option.map_eq_some_iff, sendStep] at hs
    obtain ⟨⟨d, r⟩, hd, rfl⟩ := hs
    split at hd
    · next idx v hi =>
      split_ifs at hd
      · cases hd
        rfl
      · obtain rfl : (c.blockingSend i idx v).1 = d := congrArg Prod.fst (Option.some.inj hd)
        exact calls_blockingSend c i idx v
      · cases hd
        rfl
    · next idx v hi =>
      split_ifs at hd
      obtain rfl : (c.blockingSend i idx v).1 = d := congrArg Prod.fst (Option.some.inj hd)
      exact calls_blockingSend c i idx v
    · cases hd
  | wakeOne i =>
    left
    simp only [step, wakeOne] at hs
    split at hs <;> cases hs
    rfl
  | closeTx i =>
    simp only [step, closeTx, Option.ite_none_right_eq_some, Option.some.injEq] at hs
    obtain ⟨-, rfl⟩ := hs
    exact .inl rfl
  | dropTx i =>
    simp only [step, dropTx, Option.ite_none_right_eq_some, Option.some.injEq] at hs
    obtain ⟨-, rfl⟩ := hs
    exact .inl rfl
  | recvEnter =>
    left
    simp only [step, recvEnter] at hs
    split at hs
    · split_ifs at hs <;> cases hs <;> rfl
    · cases hs
  | recvTake =>
    left
    simp only [step, recvTake] at hs
    split at hs <;> cases hs
    rfl
  | recvNone =>
    left
    simp only [step, recvNone] at hs
    split at hs
    · split_ifs at hs
      cases hs
      rfl
    · cases hs
  | recvFinish =>
    left
    simp only [step, Option.map_eq_some_iff, recvFinish] at hs
    obtain ⟨⟨d, v⟩, hd, rfl⟩ := hs
    split at hd
    · split_ifs at hd
      cases hd
      rfl
    · cases hd
  | recvCancel =>
    left
    simp only [step, recvCancel] at hs
    split at hs <;> cases hs
    rfl
  | closeRx =>
    left
    simp only [step, closeRx] at hs
    split at hs
    · split_ifs at hs <;> cases hs <;> rfl
    · cases hs

theorem Inv.step {c c' : OrderedChannel ι I T} {e : Event ι I T} (h : c.Inv)
    (hd : (c'.calls.map Prod.fst).Nodup) (hs : c.step e = some c') : c'.Inv := by
  cases e with
  | callSend i idx v =>
    refine h.callSend ?_ hs
    rcases calls_step hs with heq | ⟨_, _, _, he, heq⟩
    · simp only [OrderedChannel.step, OrderedChannel.callSend, Option.ite_none_right_eq_some,
        Option.some.injEq] at hs
      obtain ⟨-, rfl⟩ := hs
      simp at heq
    · cases he
      rw [heq, List.map_append, List.nodup_append] at hd
      intro hmem
      exact hd.2.2 idx hmem idx (by simp) rfl
  | sendStep i =>
    obtain ⟨⟨d, r⟩, hd', rfl⟩ := Option.map_eq_some_iff.mp hs
    exact h.sendStep hd'
  | wakeOne i => exact h.wakeOne hs
  | closeTx i => exact h.closeTx hs
  | dropTx i => exact h.dropTx hs
  | recvEnter => exact h.recvEnter hs
  | recvTake => exact h.recvTake hs
  | recvNone => exact h.recvNone hs
  | recvFinish =>
    obtain ⟨⟨d, v⟩, hd', rfl⟩ := Option.map_eq_some_iff.mp hs
    exact h.recvFinish hd'
  | recvCancel => exact h.recvCancel hs
  | closeRx => exact h.closeRx hs

theorem inv_of_run {es : List (Event ι I T)} {c : OrderedChannel ι I T}
    (h : Transition.run OrderedChannel.step new es = some c)
    (hd : (c.calls.map Prod.fst).Nodup) : c.Inv := by
  refine Transition.run_induction (P := fun _ c => (c.calls.map Prod.fst).Nodup → c.Inv)
    (fun _ => inv_new) ?_ h hd
  intro es u e t _ ih hs hd'
  refine (ih ?_).step hd' hs
  rcases calls_step hs with heq | ⟨i, idx, v, -, heq⟩
  · rwa [← heq]
  · rw [heq, List.map_append, List.nodup_append] at hd'
    exact hd'.1

/-- In-order, exactly-once delivery.  Whatever the interleaving, the cancellations
and the closings, the `k`-th value that `recv` returned is the one passed to
`send` with index `k`; and a value that a `send` placed has been returned or is
the one on its way, so that none is lost. -/
theorem delivered_in_order {es : List (Event ι I T)} {c : OrderedChannel ι I T}
    (h : Transition.run OrderedChannel.step new es = some c)
    (hd : (c.calls.map Prod.fst).Nodup) :
    (∀ (k : ℕ) (v : T), c.delivered[k]? = some v → ∀ v', ((k : I), v') ∈ c.calls ↔ v' = v) ∧
      c.placed = c.delivered ++ c.inFlight ∧ c.inFlight.length ≤ 1 := by
  have hinv := inv_of_run h hd
  refine ⟨?_, hinv.placed_eq, hinv.inFlight_le⟩
  intro k v hk v'
  have hlt : k < c.delivered.length := (List.getElem?_eq_some_iff.mp hk).1
  have hmem : ((k : I), v) ∈ c.calls := by
    apply hinv.placed_called
    rw [hinv.placed_eq, List.getElem?_append_left hlt, hk]
  constructor
  · intro hmem'
    exact congrArg Prod.snd (List.inj_on_of_nodup_map hd hmem' hmem rfl)
  · rintro rfl
    exact hmem

end Runs

/-- Two senders, the second value offered first, and a `recv` cancelled after its
announcement: both values come out in order. -/
def crossedRun : List (Event Bool ℕ Char) :=
  [.callSend true 1 'b', .sendStep true, .callSend false 0 'a', .recvEnter, .recvCancel,
    .sendStep false, .recvEnter, .recvTake, .recvFinish, .recvEnter, .sendStep true, .recvTake,
    .recvFinish]

theorem delivered_in_order_crossed :
    ∃ c, Transition.run step new crossedRun = some c ∧ c.delivered = ['a', 'b'] ∧
      ∀ v', (((1 : ℕ) : ℕ), v') ∈ c.calls ↔ v' = 'b' := by
  have hsome : (Transition.run step new crossedRun).isSome = true := by rfl
  obtain ⟨c, hc⟩ := Option.isSome_iff_exists.mp hsome
  have hd : c.delivered = ['a', 'b'] := by
    have : (Transition.run step new crossedRun).map (·.delivered) = some ['a', 'b'] := by rfl
    simpa [hc] using this
  have hn : c.calls = [(1, 'b'), (0, 'a')] := by
    have : (Transition.run step new crossedRun).map (·.calls) = some [(1, 'b'), (0, 'a')] := by rfl
    simpa [hc] using this
  exact ⟨c, hc, hd, (delivered_in_order hc (by rw [hn]; decide)).1 1 'b' (by rw [hd]; rfl)⟩

end Deltasync.OrderedChannel
