import RdmaIht.Concurrency.Runs
import RdmaIht.Concurrency.Linearizability
import RdmaIht.Common
import RdmaIht.FiniteMap
import RdmaIht.Assoc
import RdmaIht.Iht.Memory
import RdmaIht.Iht.Shape
import RdmaIht.Iht.Machine
import RdmaIht.Iht.Change
import RdmaIht.Iht.ThreadInvariant
import RdmaIht.Iht.StepSafety
import RdmaIht.Iht.Safety
import RdmaIht.Iht.Content
import RdmaIht.Iht.ContentInvariant
import RdmaIht.Iht.ContentStep
import RdmaIht.Iht.ContentPoints
import RdmaIht.Iht.ContentRehash
import RdmaIht.Iht.Linearizability
import RdmaIht.Iht.Sequential
import RdmaIht.Iht.Progress
import RdmaIht.Iht.Representation
import RdmaIht.Iht.Shipped
import RdmaIht.Tcp.Machine
import RdmaIht.Tcp.Invariant
import RdmaIht.Tcp.Experiment
import RdmaIht.Tcp.Broadcast
import RdmaIht.Hashtable.Machine
import RdmaIht.Hashtable.Table
import RdmaIht.Hashtable.Chain
import RdmaIht.Hashtable.Section
import RdmaIht.Hashtable.Invariant
import RdmaIht.Hashtable.Steps
import RdmaIht.Hashtable.ResizeSteps
import RdmaIht.Hashtable.Safety
import RdmaIht.Hashtable.Publish
import RdmaIht.Hashtable.Run
import RdmaIht.Concurrency.Record
import RdmaIht.Hashtable.Serial
import RdmaIht.Hashtable.Linearizability
import RdmaIht.Hashtable.Overlap
import RdmaIht.Hashtable.Sequential
import RdmaIht.Hashtable.SoloResize
import RdmaIht.Hashtable.Calls
import RdmaIht.Hashtable.Growth
import RdmaIht.Hashtable.Lookups
import RdmaIht.Hashtable.Refinement
import RdmaIht.Hashtable.Serializability
import RdmaIht.Tcp.Shutdown
import RdmaIht.LittleEndian
import RdmaIht.Tcp.Framing
import RdmaIht.Iht.LockDiscipline
import RdmaIht.Iht.Workload
import RdmaIht.Iht.Alone
import RdmaIht.Iht.Phases
import RdmaIht.Iht.Copies
import RdmaIht.Iht.Leaks
import RdmaIht.Iht.Inserts
import RdmaIht.Trie
import RdmaIht.Iht.InsertOrder
import RdmaIht.FixedWidth
import RdmaIht.Iht.StoredValues
import RdmaIht.Hashtable.Bookkeeping
import RdmaIht.Iht.Rehash
import RdmaIht.Iht.ClientTests
import RdmaIht.Iht.Provenance
import RdmaIht.Hashtable.Provenance
import RdmaIht.Hashtable.Liveness
import RdmaIht.Hashtable.MemorySafety
import RdmaIht.Protobuf
import RdmaIht.Base128
import RdmaIht.Messages
import RdmaIht.RootExchange
import RdmaIht.Hashtable.Init
import RdmaIht.Hashtable.Settling
import RdmaIht.Tcp.Startup
import RdmaIht.System
