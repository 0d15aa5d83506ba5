import FastInAHurry.Library.LowerBound
import FastInAHurry.Library.Runs
import FastInAHurry.Library.RingIndex
import FastInAHurry.Library.BoundedFifo
import FastInAHurry.Library.Census
import FastInAHurry.Library.Bump
import FastInAHurry.Library.Blocks
import FastInAHurry.Library.RefCount
import FastInAHurry.Library.Descriptors
import FastInAHurry.Library.StdString
import FastInAHurry.Library.CString
import FastInAHurry.Library.Copying
import FastInAHurry.Library.Words
import FastInAHurry.Library.Turns
import FastInAHurry.Library.Merge
import FastInAHurry.Library.Ladder
import FastInAHurry.Memory.BumpArena
import FastInAHurry.Memory.Disjointness
import FastInAHurry.Memory.Padding
import FastInAHurry.Memory.ByteCopies
import FastInAHurry.Memory.Strcpy
import FastInAHurry.Orderbook.Book
import FastInAHurry.Orderbook.Matching
import FastInAHurry.Orderbook.Invariant
import FastInAHurry.Orderbook.Conservation
import FastInAHurry.Orderbook.Priority
import FastInAHurry.Orderbook.Cancelled
import FastInAHurry.Orderbook.PublicInterface
import FastInAHurry.Orderbook.Splitting
import FastInAHurry.Orderbook.Depth
import FastInAHurry.Orderbook.Symmetry
import FastInAHurry.Orderbook.Audit
import FastInAHurry.Queue.SPSCQueue
import FastInAHurry.Queue.SPSCRefinement
import FastInAHurry.Queue.SPSCLifetimes
import FastInAHurry.Queue.SPSCObservers
import FastInAHurry.Queue.SPSCExample
import FastInAHurry.Queue.MPSCQueue
import FastInAHurry.Queue.MPSCSafety
import FastInAHurry.Queue.MPSCFullTest
import FastInAHurry.Queue.MPSCLifetimes
import FastInAHurry.Queue.MPSCBenchmark
import FastInAHurry.Queue.ThreadSafeQueue
import FastInAHurry.Queue.QueueClients
import FastInAHurry.Queue.QueueStarvation
import FastInAHurry.Thread.SpinMutex
import FastInAHurry.Thread.ThreadPool
import FastInAHurry.Thread.Accounting
import FastInAHurry.Thread.Shutdown
import FastInAHurry.Thread.Destruction
import FastInAHurry.Thread.Clients
import FastInAHurry.Thread.Sections
import FastInAHurry.Vector.Vector
import FastInAHurry.Vector.Operations
import FastInAHurry.Vector.Refinement
import FastInAHurry.Vector.Capacity
import FastInAHurry.Vector.Invalidation
import FastInAHurry.Vector.CopyAssignment
import FastInAHurry.Handle.SharedPtr
import FastInAHurry.Handle.Counts
import FastInAHurry.Handle.Exact
import FastInAHurry.Handle.AllocationFailure
import FastInAHurry.Handle.Nested
import FastInAHurry.Handle.Cascade
import FastInAHurry.Handle.Assignment
import FastInAHurry.Handle.UniquePtr
import FastInAHurry.Utils.SPSCLogger
import FastInAHurry.Utils.Flushing
import FastInAHurry.Utils.Draining
import FastInAHurry.Utils.Serializing
import FastInAHurry.Utils.LoggerConstruction
import FastInAHurry.Utils.LogProgram
import FastInAHurry.Utils.LogShutdown
import FastInAHurry.Utils.TomlParser
import FastInAHurry.Utils.TomlGrammar
import FastInAHurry.Utils.TomlReload
import FastInAHurry.Utils.TomlQuotes
import FastInAHurry.Utils.TomlFailure
import FastInAHurry.Utils.TomlWriter
import FastInAHurry.Utils.Logger
import FastInAHurry.Utils.XorBitant
import FastInAHurry.Math.AutoDiff
import FastInAHurry.Math.FiniteDiff
import FastInAHurry.Io.Config
import FastInAHurry.Io.ConfigFile
import FastInAHurry.Io.Socket
import FastInAHurry.Io.Tcp
import FastInAHurry.Io.Udp
