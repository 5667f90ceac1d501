import Xfer.Process.Fate
import Xfer.Common.Width
import Xfer.Transfer.Scan
import Xfer.Transfer.Surface
import Xfer.Transfer.Parts
import Xfer.Transfer.Counted
import Xfer.Process.Leaves
import Xfer.Transfer.Handles
import Xfer.Process.Monitor
import Xfer.Transfer.Tampering
import Xfer.Transfer.Recovery
import Xfer.Cli.Exit
import Xfer.Net.Anyhow
import Xfer.Cli.Awaiting
import Xfer.Cli.Commands
import Xfer.Cli.Paired
import Xfer.Net.Dialing
import Xfer.Cli.Run
import Xfer.Cli.Connecting
import Xfer.Net.Endpoint
import Xfer.Process.Embedding
import Xfer.Process.Meeting
import Xfer.Transfer.Enumeration
import Xfer.Transfer.Prefilled
import Xfer.Transfer.Stale
import Xfer.Transfer.Relaxing
import Xfer.Transfer.Hostile
import Xfer.Net.Descriptors
import Xfer.Cli.Accepted
import Xfer.Cli.Rendering
import Xfer.Cli.Order
import Xfer.Cli.Port
import Xfer.Cli.Line
import Xfer.Cli.Parse
import Xfer.Transfer.Fidelity
import Xfer.Transfer.Precheck
import Xfer.Transfer.Canonical
import Xfer.Transfer.Grammar
import Xfer.Posix.Normal
import Xfer.Transfer.Populated
import Xfer.Common.Progress
import Xfer.Common.Format
import Xfer.Transfer.Flushing
import Xfer.Transfer.ZeroCopy
import Xfer.Net.Accounting
import Xfer.Net.Returning
import Xfer.Net.Platform
import Xfer.Process.Loop
import Xfer.Process.Record
import Xfer.Net.Counts
import Xfer.Transfer.Agreement
import Xfer.Transfer.Storing
import Xfer.Transfer.Shortfall
import Xfer.Posix.Ways
import Xfer.Process.Apart
import Xfer.Transfer.Verdict
import Xfer.Transfer.Standstill
import Xfer.Transfer.Announced
import Xfer.Transfer.Handing
import Xfer.Net.Watching
import Xfer.Process.Watched
import Xfer.Transfer.Idempotence
import Xfer.Posix.Alike
import Xfer.Transfer.Interpretation
import Xfer.Transfer.Reference
import Xfer.Transfer.Naming
import Xfer.Transfer.HeaderDamage
import Xfer.Common.Detection
import Xfer.Common.Castagnoli
import Xfer.Data.Gf2
import Xfer.Transfer.Completeness
import Xfer.Transfer.Emission
import Xfer.Transfer.Phases
import Xfer.Transfer.Sending
import Xfer.Transfer.Reading
import Xfer.Transfer.Resolve
import Xfer.Transfer.Manifest
import Xfer.Posix.Relative
import Xfer.Transfer.Integrity
import Xfer.Transfer.Sync
import Xfer.Transfer.Files
import Xfer.Transfer.Damage
import Xfer.Transfer.RecordCount
import Xfer.Net.Liveness
import Xfer.Transfer.Delivery
import Xfer.Transfer.Containment
import Xfer.Transfer.Session
import Xfer.Transfer.Records
import Xfer.Transfer.Payload
import Xfer.Posix.Locate
import Xfer.Posix.Leads
import Xfer.Transfer.RoundTrip
import Xfer.Transfer.Codec
import Xfer.Net.Exchange
import Xfer.Transfer.Sender
import Xfer.Posix.Directory
import Xfer.Transfer.Receiver
import Xfer.Net.Socket
import Xfer.Net.System
import Xfer.Common.Crc32
import Xfer.Process.Network
import Xfer.Posix.Lookup
