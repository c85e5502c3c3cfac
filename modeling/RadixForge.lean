import RadixForge.Mapper.KVMapper
import RadixForge.Library.Traversal
import RadixForge.Library.Run
import RadixForge.Tree.Shape
import RadixForge.Tree.Split
import RadixForge.Tree.Insertion
import RadixForge.Tree.Pruning
import RadixForge.Tree.Reading
import RadixForge.Tree.Operations
import RadixForge.Library.Lease
import RadixForge.Session.Protocol
import RadixForge.Session.Registers
import RadixForge.Session.Placement
import RadixForge.Session.Books
import RadixForge.Session.Eviction
import RadixForge.Session.Steps
import RadixForge.Session.Prepare
import RadixForge.Session.Invariant
import RadixForge.Session.Results
import RadixForge.Tree.Entering
import RadixForge.Tree.Branches
import RadixForge.Session.Capacity
import RadixForge.Session.DeadBranches
import RadixForge.Library.Pass
import RadixForge.Worker.Prepare
import RadixForge.Worker.FusedStep
import RadixForge.Worker.Loop
import RadixForge.Session.Permits
import RadixForge.Worker.Tracking
import RadixForge.Worker.Tickets
import RadixForge.Worker.Decoding
import RadixForge.Worker.Following
import RadixForge.Worker.Generation
import RadixForge.Worker.Ledger
import RadixForge.Worker.Serving
import RadixForge.Worker.Settling
import RadixForge.Worker.Lifecycle
import RadixForge.Worker.Callbacks
import RadixForge.Worker.Conservation
import RadixForge.Worker.Bounds
import RadixForge.Session.Representation
import RadixForge.Worker.Threads
import RadixForge.Worker.Wakeup
import RadixForge.Worker.Draining
import RadixForge.Json.Parser
import RadixForge.Json.Grammar
import RadixForge.Json.Strings
import RadixForge.Json.Numbers
import RadixForge.Json.Containers
import RadixForge.Json.Acceptance
import RadixForge.Http.OpenAi
import RadixForge.Http.Streaming
import RadixForge.Http.Boundaries
import RadixForge.Http.Documents
import RadixForge.Http.Framing
import RadixForge.Http.Sink
import RadixForge.Tree.Inspecting
import RadixForge.Tree.Undoing
import RadixForge.Tree.Restoring
import RadixForge.Session.Atomicity
import RadixForge.Library.Recency
import RadixForge.Tree.Ticks
import RadixForge.Session.LeastRecent
import RadixForge.Worker.Budgets
import RadixForge.Worker.Progress
import RadixForge.Worker.Counting
import RadixForge.Worker.Limits
import RadixForge.Session.Retention
import RadixForge.Worker.Owners
import RadixForge.Tree.Represented
import RadixForge.Tree.Covering
import RadixForge.Tree.Agreement
import RadixForge.Session.Sources
import RadixForge.Session.CellCounts
import RadixForge.Worker.CellCounts
import RadixForge.Worker.Accounting
import RadixForge.Session.Disabled
import RadixForge.Worker.Exceptions
import RadixForge.Worker.Intact
import RadixForge.Worker.Losing
import RadixForge.Worker.Isolation
import RadixForge.Worker.Pinned
import RadixForge.Worker.Transparency
import RadixForge.Session.Pressure
import RadixForge.Session.Balance
import RadixForge.Worker.Requeue
import RadixForge.Json.Nesting
import RadixForge.Json.Limit
import RadixForge.Http.Envelopes
import RadixForge.Http.HoldBack
import RadixForge.Http.Requests
import RadixForge.Tools.ChunkAssembly
import RadixForge.Library.Paging
import RadixForge.Study.ExpertCache
import RadixForge.Study.Oracle
import RadixForge.Session.Reuse
import RadixForge.Worker.Journal
import RadixForge.Worker.Departures
import RadixForge.Worker.Reuse
import RadixForge.Worker.Load
import RadixForge.Http.Client
import RadixForge.Http.LateUse
import RadixForge.Worker.Service
import RadixForge.Http.TreeDump
import RadixForge.Library.Lists
import RadixForge.Library.Speculation
import RadixForge.Study.Drafting
import RadixForge.Study.Replay
import RadixForge.Http.Hanging
import RadixForge.Library.ReuseDistance
import RadixForge.Study.Residency
import RadixForge.Study.Profiles
import RadixForge.Study.TraceReading
