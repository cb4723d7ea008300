import Mmfg.Lib.System
import Mmfg.Layout
import Mmfg.Queue.Basic
import Mmfg.Queue.Invariant
import Mmfg.Queue.Fifo
import Mmfg.Queue.Wrap
import Mmfg.Bus.Basic
import Mmfg.Lib.Pool
import Mmfg.Bus.Alloc
import Mmfg.Growth.Basic
import Mmfg.Growth.Locks
import Mmfg.Growth.Chunks
import Mmfg.Growth.Agree
import Mmfg.Growth.Deadlock
import Mmfg.Shm.Header
import Mmfg.Shm.Sequence
import Mmfg.Shm.Stripe
import Mmfg.Hub.Basic
import Mmfg.Hub.Step
import Mmfg.Hub.Cases
import Mmfg.Hub.Slots
import Mmfg.Hub.Tokens
import Mmfg.Hub.Handoff
import Mmfg.Hub.Dispatch
import Mmfg.Hub.Nodes
import Mmfg.Hub.Progress
import Mmfg.Hub.Complete
import Mmfg.Lib.File
import Mmfg.Shm.Data
import Mmfg.Shm.Represent
import Mmfg.Conn.Basic
import Mmfg.Lib.Cursor
import Mmfg.Conn.File
import Mmfg.Conn.Isolation
import Mmfg.Conn.Node
import Mmfg.Rust.Connection
import Mmfg.Rust.Chunks
import Mmfg.Session.Basic
import Mmfg.Session.Table
import Mmfg.Session.Commands
import Mmfg.Queue.Wakeup
import Mmfg.Expand.Basic
import Mmfg.Expand.Update
import Mmfg.Hub.Asks
import Mmfg.Hub.Ledger
import Mmfg.Hub.Blocks
import Mmfg.Hub.Grants
import Mmfg.Hub.Ownership
import Mmfg.Hub.Safety
import Mmfg.Conn.Expansion
import Mmfg.Conn.Offsets
import Mmfg.Lib.Schedule
import Mmfg.Rust.Polling
import Mmfg.Bus.Complete
import Mmfg.Slots.Basic
import Mmfg.Slots.Semaphore
import Mmfg.Registry.Basic
import Mmfg.Registry.Cleanup
import Mmfg.Hub.Next
import Mmfg.Session.Dial
import Mmfg.Hub.Requests
import Mmfg.Lib.Search
import Mmfg.Lib.Segments
import Mmfg.View.Viewer
import Mmfg.View.Index
import Mmfg.View.Range
import Mmfg.View.Write
import Mmfg.Codec.Header
import Mmfg.Codec.Sequence
import Mmfg.Codec.Refresh
import Mmfg.Handshake.Basic
import Mmfg.Handshake.Descriptors
import Mmfg.Queue.Readers
import Mmfg.Handshake.Agree
import Mmfg.Lib.Simulation
import Mmfg.Queue.Linear
import Mmfg.Control.Ring
import Mmfg.Control.Registry
import Mmfg.Control.Region
import Mmfg.Lib.Progress
import Mmfg.Queue.Progress
import Mmfg.Bus.Refine
import Mmfg.Bus.Progress
import Mmfg.Relay.Basic
import Mmfg.Relay.Copies
import Mmfg.Relay.Runs
import Mmfg.Bus.NextFit
import Mmfg.Control.NewHub
import Mmfg.Node.Basic
import Mmfg.Node.Invariant
import Mmfg.Node.Rendezvous
import Mmfg.Hub.Sessions
import Mmfg.Growth.Tables
import Mmfg.Hub.Expanders
