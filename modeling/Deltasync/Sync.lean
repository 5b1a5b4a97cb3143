import Deltasync.Lib.Transition
import Mathlib.Algebra.Group.Nat.Even
import Mathlib.Data.Fintype.Basic
import Mathlib.Data.Nat.Cast.Basic

/-!
# `sync.rs`: loans and the ordered channel

`loan(value)` splits a value into a `Loan`, which gives it back when dropped,
and a `Reclaim`, which waits for that.  `ordered_channel()` delivers in the
order of their indices the values that several senders offer in any order: a
sender sleeps on a condition variable until the receiver announces its index.

The threads of the channel are the elements of `ι`.  Every critical section of
the state mutex is one step, except that a sender whose `blocking_send` finds
the slot full keeps the mutex (`lock`).  The tokio `mpsc` channel of capacity 1
underneath is the field `slot`; closing its receiver (`rxClosed`) refuses later
sends and keeps the value already buffered.
-/

namespace Deltasync

/-- `Loan<T>`: the value and the reader of its `oneshot` channel, the thread that
waits in `blocking_reclaim` to have the value back. -/
structure Loan (ι α : Type*) where
  value : α
  tx : ι
  deriving DecidableEq, Repr

/-- Where a thread stands inside `OrderedSender::send`. -/
inductive SendCall (I T : Type*) where
  | idle
  /-- About to take the state mutex, on entry or after a wakeup. -/
  | locking (idx : I) (value : T)
  /-- In `cond_var.wait`, not notified. -/
  | waiting (idx : I) (value : T)
  /-- In `blocking_send` on a full slot, with the mutex held. -/
  | blocked (idx : I) (value : T)
  deriving DecidableEq, Repr

/-- Where the receiver stands inside `OrderedReceiver::recv`. -/
inductive RecvCall (T : Type*) where
  | idle
  /-- The index is announced; suspended at `self.inner.recv().await`. -/
  | awaiting
  /-- The value has left the slot; about to take the mutex to clear `receiving`. -/
  | took (value : T)
  deriving DecidableEq, Repr

/-- The result of a `send` that returns: `Ok(())`, or the error "Receiver has been closed". -/
inductive SendResult where
  | sent
  | closed
  deriving DecidableEq, Repr

/-- The shared state of an ordered channel.  `calls`, `placed` and `delivered` are
its history: the arguments of all `send` calls, the values that entered the
slot, and the values that `recv` returned. -/
structure OrderedChannel (ι I T : Type*) where
  wantedIdx : Option I
  recvClosed : Bool
  receiving : Bool
  slot : Option T
  rxClosed : Bool
  lock : Option ι
  send : ι → SendCall I T
  dropped : ι → Bool
  recv : RecvCall T
  calls : List (I × T)
  placed : List T
  delivered : List T

/-- The `idx` and `value` of a `send` that has not returned. -/
def SendCall.request {I T : Type*} : SendCall I T → Option (I × T)
  | .idle => none
  | .locking idx v => some (idx, v)
  | .waiting idx v => some (idx, v)
  | .blocked idx v => some (idx, v)

/-- The effect of `notify_all` on one thread. -/
def SendCall.wake {I T : Type*} : SendCall I T → SendCall I T
  | .waiting idx v => .locking idx v
  | c => c

def RecvCall.value {T : Type*} : RecvCall T → List T
  | .took v => [v]
  | _ => []

namespace OrderedChannel

variable {ι I T : Type*}

/-- `ordered_channel()`, every thread of `ι` holding a clone of the sender. -/
def new : OrderedChannel ι I T where
  wantedIdx := none
  recvClosed := false
  receiving := false
  slot := none
  rxClosed := false
  lock := none
  send := fun _ => .idle
  dropped := fun _ => false
  recv := .idle
  calls := []
  placed := []
  delivered := []

def notifyAll (c : OrderedChannel ι I T) : OrderedChannel ι I T :=
  { c with send := fun i => (c.send i).wake }

section Sender

variable [DecidableEq ι]

def setSend (c : OrderedChannel ι I T) (i : ι) (x : SendCall I T) : OrderedChannel ι I T :=
  { c with send := Function.update c.send i x }

/-- Thread `i` calls `send(idx, value)`. -/
def callSend (c : OrderedChannel ι I T) (i : ι) (idx : I) (v : T) :
    Option (OrderedChannel ι I T) :=
  if (c.send i).request = none ∧ c.dropped i = false then
    some { c.setSend i (.locking idx v) with calls := c.calls ++ [(idx, v)] }
  else none

/-- `self.inner.blocking_send(value)`, called with the mutex held. -/
def blockingSend (c : OrderedChannel ι I T) (i : ι) (idx : I) (v : T) :
    OrderedChannel ι I T × Option SendResult :=
  if c.rxClosed then ({ c.setSend i .idle with lock := none }, some .closed)
  else match c.slot with
    | none => ({ c.setSend i .idle with lock := none, slot := some v, placed := c.placed ++ [v] },
        some .sent)
    | some _ => ({ c.setSend i (.blocked idx v) with lock := some i }, none)

/-- One turn of the loop of `send`, with the mutex taken; or, for a thread inside
`blocking_send`, a new look at the slot.  The result is there once `send` returns. -/
def sendStep [DecidableEq I] (c : OrderedChannel ι I T) (i : ι) :
    Option (OrderedChannel ι I T × Option SendResult) :=
  match c.send i with
  | .locking idx v =>
    if c.lock.isSome then none
    else if c.recvClosed then some (c.setSend i .idle, some .closed)
    else if c.wantedIdx = some idx then some (c.blockingSend i idx v)
    else some (c.setSend i (.waiting idx v), none)
  | .blocked idx v =>
    if c.slot.isSome ∧ c.rxClosed = false then none else some (c.blockingSend i idx v)
  | _ => none

/-- A wakeup without a notification, which a condition variable may give. -/
def wakeOne (c : OrderedChannel ι I T) (i : ι) : Option (OrderedChannel ι I T) :=
  match c.send i with
  | .waiting idx v => some (c.setSend i (.locking idx v))
  | _ => none

/-- `OrderedSender::close`, by a thread outside `send`. -/
def closeTx (c : OrderedChannel ι I T) (i : ι) : Option (OrderedChannel ι I T) :=
  if c.lock.isSome = false ∧ (c.send i).request = none ∧ c.dropped i = false then
    some ({ c with recvClosed := true }.notifyAll)
  else none

/-- Thread `i` drops its sender. -/
def dropTx (c : OrderedChannel ι I T) (i : ι) : Option (OrderedChannel ι I T) :=
  if (c.send i).request = none ∧ c.dropped i = false then
    some { c with dropped := Function.update c.dropped i true }
  else none

end Sender

section Receiver

/-- The index after the announced one. -/
def nextIdx [AddMonoidWithOne I] : Option I → I
  | none => 0
  | some i => i + 1

/-- `recv` up to its await: announce the next index, unless one is announced already. -/
def recvEnter [AddMonoidWithOne I] (c : OrderedChannel ι I T) : Option (OrderedChannel ι I T) :=
  match c.recv with
  | .idle =>
    if c.lock.isSome then none
    -- the index was announced by a call that was cancelled
    else if c.receiving then some { c with recv := .awaiting }
    else some { c.notifyAll with
      wantedIdx := some (nextIdx c.wantedIdx), receiving := true, recv := .awaiting }
  | _ => none

/-- `self.inner.recv()` is ready with the buffered value. -/
def recvTake (c : OrderedChannel ι I T) : Option (OrderedChannel ι I T) :=
  match c.recv, c.slot with
  | .awaiting, some v => some { c with recv := .took v, slot := none }
  | _, _ => none

/-- `self.inner.recv()` is ready with `None`: nothing is buffered and no value can come. -/
def recvNone [Fintype ι] (c : OrderedChannel ι I T) : Option (OrderedChannel ι I T) :=
  match c.recv with
  | .awaiting =>
    if c.slot = none ∧ (c.rxClosed = true ∨ ∀ i, c.dropped i = true) then
      some { c with recv := .idle }
    else none
  | _ => none

/-- The end of `recv`: clear `receiving` under the mutex and return the value. -/
def recvFinish (c : OrderedChannel ι I T) : Option (OrderedChannel ι I T × T) :=
  match c.recv with
  | .took v =>
    if c.lock.isSome then none
    else some ({ c with receiving := false, recv := .idle, delivered := c.delivered ++ [v] }, v)
  | _ => none

/-- The `recv` future, if there is one, is dropped at its await. -/
def recvCancel (c : OrderedChannel ι I T) : Option (OrderedChannel ι I T) :=
  match c.recv with
  | .took _ => none
  | _ => some { c with recv := .idle }

/-- `OrderedReceiver::close`. -/
def closeRx (c : OrderedChannel ι I T) : Option (OrderedChannel ι I T) :=
  match c.recv with
  | .idle =>
    if c.lock.isSome then none
    -- `inner.close()` is skipped when a sender has closed the channel
    else if c.recvClosed then some c
    else some ({ c with recvClosed := true, rxClosed := true }.notifyAll)
  | _ => none

end Receiver

/-- What can happen on a channel. -/
inductive Event (ι I T : Type*) where
  | callSend (i : ι) (idx : I) (v : T)
  | sendStep (i : ι)
  | wakeOne (i : ι)
  | closeTx (i : ι)
  | dropTx (i : ι)
  | recvEnter
  | recvTake
  | recvNone
  | recvFinish
  | recvCancel
  | closeRx

def step [DecidableEq ι] [Fintype ι] [DecidableEq I] [AddMonoidWithOne I]
    (c : OrderedChannel ι I T) : Event ι I T → Option (OrderedChannel ι I T)
  | .callSend i idx v => c.callSend i idx v
  | .sendStep i => (c.sendStep i).map Prod.fst
  | .wakeOne i => c.wakeOne i
  | .closeTx i => c.closeTx i
  | .dropTx i => c.dropTx i
  | .recvEnter => c.recvEnter
  | .recvTake => c.recvTake
  | .recvNone => c.recvNone
  | .recvFinish => c.recvFinish.map Prod.fst
  | .recvCancel => c.recvCancel
  | .closeRx => c.closeRx

/-- The steps that need the receiver. -/
def Event.ofReceiver {ι I T : Type*} : Event ι I T → Bool
  | .recvEnter | .recvTake | .recvNone | .recvFinish | .recvCancel | .closeRx => true
  | _ => false

/-- `OrderedReceiver::drop`: `close`, and then the `mpsc` receiver goes with what it buffers. -/
def dropRx (c : OrderedChannel ι I T) : Option (OrderedChannel ι I T) :=
  c.closeRx.map fun c => { c with slot := none, rxClosed := true }

end OrderedChannel

/-- An ordered channel whose receiver may have been dropped. -/
structure DroppableChannel (ι I T : Type*) where
  chan : OrderedChannel ι I T
  rxDropped : Bool

namespace DroppableChannel

variable {ι I T : Type*}

def new : DroppableChannel ι I T := { chan := .new, rxDropped := false }

inductive Event (ι I T : Type*) where
  | chan (e : OrderedChannel.Event ι I T)
  | dropRx

def step [DecidableEq ι] [Fintype ι] [DecidableEq I] [AddMonoidWithOne I]
    (d : DroppableChannel ι I T) : Event ι I T → Option (DroppableChannel ι I T)
  | .chan e =>
    if d.rxDropped = true ∧ e.ofReceiver = true then none
    else (d.chan.step e).map fun c => { d with chan := c }
  | .dropRx =>
    if d.rxDropped then none
    else d.chan.dropRx.map fun c => { chan := c, rxDropped := true }

end DroppableChannel

end Deltasync
