import Deltasync.Handshake

/-!
# What the handshake decides

The outcome of the handshake as one function of the options of the client, the secret of the
server and its file system: the parameters of the session, or what each side returns.  The order
of the steps does not matter, except that a client which writes to a closed connection may see
that first.
-/

namespace Deltasync.Handshake

open BigEndian Dialogue Transition

/-! ## The outcome -/

/-- What `check_status` makes of the end of the server. -/
def Ending.answer : Ending → String
  | .refused status => (statusError status).getD ""
  | .failed _ => unexpectedEof

/-- The server ends, and the client learns of it from a status. -/
def refuse (ending : Ending) : Except (String × Ending) Agreement := .error (ending.answer, ending)

/-- The state that a verdict stands for.  An `Ack` does not stay unread. -/
def Final : Except (String × Ending) Agreement →
    State UInt8 String Ending Agreement Agreement → Prop
  | .ok a, s => s = ⟨.pass a, .pass a, [], []⟩
  | .error (err, ending), s =>
    s.left = .quit err ∧ s.right = .quit ending ∧ StatusCode.ack.toU8 ∉ s.toLeft

/-- Some run without failing writes ends with the verdict. -/
def Decides (capLeft capRight : ℕ) (v : Except (String × Ending) Agreement)
    (s : State UInt8 String Ending Agreement Agreement) : Prop :=
  ∃ t, Reaches capLeft capRight s t ∧ Final v t

variable {o : ClientProcessOptions} {capLeft capRight : ℕ} {v : Except (String × Ending) Agreement}
  {s t : State UInt8 String Ending Agreement Agreement} {p : ClientProc} {q : ServerProc}

theorem Decides.of_reaches (hr : Reaches capLeft capRight s t) (h : Decides capLeft capRight v t) :
    Decides capLeft capRight v s := by
  obtain ⟨u, hu, hfin⟩ := h
  exact ⟨u, hr.trans hu, hfin⟩

/-- What the server has sent when it stops. -/
def Ending.bytes : Ending → List UInt8
  | .refused status => [status.toU8]
  | .failed _ => []

/-- The client waits for a status, perhaps after some more writes. -/
def Waits (p : ClientProc) : Prop :=
  ∀ ending : Ending, ending ≠ .refused .ack → p.alone ending.bytes = .error ending.answer

theorem Waits.writeAll (h : Waits p) (bytes : List UInt8) : Waits (writeAll bytes p) := h

/-- How a run of the handshake ends, by its verdict. -/
def Outcome : Except (String × Ending) Agreement →
    State UInt8 String Ending Agreement Agreement → Prop
  | .ok a, s => s = ⟨.pass a, .pass a, [], []⟩
  | .error (err, ending), s =>
    (s.left = .quit err ∨ s.left = .quit brokenPipe) ∧ s.right = .quit ending

end Deltasync.Handshake
