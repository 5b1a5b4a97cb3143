import Deltasync.OrderedDelivery
import Deltasync.OrderedWakeup
import Deltasync.RoundTrip
import Deltasync.HashContent
import Deltasync.Widths
import Deltasync.LoanWindow
import Deltasync.ClientExact
import Deltasync.ServerRefine
import Deltasync.ConnectionVerdict
import Deltasync.Resume
import Deltasync.SessionTranscript
import Deltasync.ClientReturns
import Deltasync.ServerReturns
import Deltasync.Handshake
import Deltasync.Main
import Deltasync.SourceSize
