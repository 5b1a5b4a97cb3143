import Deltasync.ConnectionReturns
import Deltasync.HandshakeVerdict

/-!
# When a connection succeeds, and how it fails

What the two functions return is decided before the first block is compared: by the options of
the client, the secret of the server and what its file system answers.
-/

namespace Deltasync

open Dialogue Transition Handshake

/-- What `process_new_client` returns. -/
def Handshake.Ending.result : Ending → Except String StatusCode
  | .refused status => .ok status
  | .failed err => .error err

namespace Connection

variable {x : Peers} {s : Connection x.clientWorkers x.serverWorkers}
  {es : List (ConnectionEvent x.clientWorkers x.serverWorkers)} {ds : List Event}
  {t : State UInt8 String Ending Agreement Agreement}

end Connection

end Deltasync
