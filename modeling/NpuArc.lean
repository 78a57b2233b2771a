import NpuArc.Contracts.Errors
import NpuArc.Library.Dict
import NpuArc.Library.SelfDelimiting
import NpuArc.Library.Json
import NpuArc.Library.JsonReader
import NpuArc.Library.JsonTexts
import NpuArc.Library.Lists
import NpuArc.Library.Decimal
import NpuArc.Library.KBest
import NpuArc.Library.Intervals
import NpuArc.Scheduler.Events
import NpuArc.Scheduler.Queues
import NpuArc.Scheduler.Resources
import NpuArc.Scheduler.Policies
import NpuArc.Scheduler.Metrics
import NpuArc.Scheduler.BusyTime
import NpuArc.Scheduler.Percentiles
import NpuArc.Scheduler.Kernel
import NpuArc.Scheduler.Quiet
import NpuArc.Scheduler.Calls
import NpuArc.Scheduler.Lifecycle
import NpuArc.Scheduler.Dependencies
import NpuArc.Scheduler.WakeUps
import NpuArc.Scheduler.Serial
import NpuArc.Scheduler.SerialRuns
import NpuArc.Scheduler.Registration
import NpuArc.Library.CallSequence
import NpuArc.Library.DictSum
import NpuArc.Contracts.LegacyResult
import NpuArc.Contracts.Migrations
import NpuArc.Contracts.ReadBack
import NpuArc.Scheduler.AdmissionRuns
import NpuArc.Scheduler.PoolRuns
import NpuArc.Scheduler.ByteServer
import NpuArc.Scheduler.WorkConserving
import NpuArc.Scheduler.MailboxRuns
import NpuArc.Library.ReturnSearch
import NpuArc.Scheduler.CycleSearch
import NpuArc.Scheduler.Atomicity
import NpuArc.Scheduler.EventRuns
import NpuArc.Scenarios.Schema
import NpuArc.Scenarios.Compiler
import NpuArc.Scenarios.Compiled
import NpuArc.Runner.Model
import NpuArc.Runner.Views
import NpuArc.Runner.Steps
import NpuArc.Runner.Visited
import NpuArc.Runner.Timers
import NpuArc.Runner.Runs
import NpuArc.Runner.ResourceSafety
import NpuArc.Runner.Preemption
import NpuArc.Runner.Presence
import NpuArc.Runner.QueueBound
import NpuArc.Runner.Execution
import NpuArc.Runner.Progress
import NpuArc.Runner.Termination
import NpuArc.Runner.Segments
import NpuArc.Runner.Instants
import NpuArc.Runner.Accounting
import NpuArc.Runner.Stability
import NpuArc.Runner.Reservations
import NpuArc.Runner.Utilization
import NpuArc.Runner.Lineup
import NpuArc.Runner.Slots
import NpuArc.Runner.Optimality
import NpuArc.Runner.Load
import NpuArc.Runner.Recovery
import NpuArc.Runner.Conservation
import NpuArc.Library.StableSort
import NpuArc.Workloads.Graph
import NpuArc.Memory.Hierarchy
import NpuArc.Memory.Residency
import NpuArc.Memory.Filling
import NpuArc.Memory.Safety
import NpuArc.Memory.Access
import NpuArc.Memory.Footprint
import NpuArc.Memory.Order
import NpuArc.Memory.Ties
import NpuArc.Memory.Spill
import NpuArc.Memory.Aliases
import NpuArc.Memory.Weights
import NpuArc.Memory.Rounding
import NpuArc.Library.EqSet
import NpuArc.Library.LastWrite
import NpuArc.Dse.Models
import NpuArc.Dse.Manifest
import NpuArc.Dse.Space
import NpuArc.Dse.Repair
import NpuArc.Dse.Attempts
import NpuArc.Dse.Reclassification
import NpuArc.Dse.HardwareBuilder
import NpuArc.Dse.Explorer
import NpuArc.Dse.MergedMacs
import NpuArc.Dse.Frequency
import NpuArc.Dse.SameModel
import NpuArc.Dse.Coverage
import NpuArc.Dse.Subset
import NpuArc.Dse.PointIdentity
import NpuArc.Library.PyFloat
import NpuArc.Library.Maxima
import NpuArc.Contracts.Result
import NpuArc.Contracts.Identity
import NpuArc.Dse.Pareto
import NpuArc.Dse.Frontier
import NpuArc.Dse.DseRunner
import NpuArc.Dse.DseOutcome
import NpuArc.Dse.ReplayBundle
import NpuArc.Dse.ReplayReading
import NpuArc.Contracts.Canonical
import NpuArc.Library.Kahn
import NpuArc.Workloads.Schema
import NpuArc.Workloads.Dimensions
import NpuArc.Workloads.Validate
import NpuArc.Workloads.TopologicalOrder
import NpuArc.Workloads.JsonAdapter
import NpuArc.Workloads.Legacy
import NpuArc.Workloads.Pipeline
import NpuArc.Workloads.LegacyOrder
import NpuArc.Workloads.Onnx
import NpuArc.Workloads.OnnxFaithful
import NpuArc.Library.PySlice
import NpuArc.Library.PyText
import NpuArc.Library.BitFields
import NpuArc.Core.Memory
import NpuArc.Core.Descriptor
import NpuArc.Core.Isa
import NpuArc.Core.Reencoding
import NpuArc.Core.Executor
import NpuArc.Core.Chains
import NpuArc.Core.Converters
import NpuArc.Core.NoEffects
import NpuArc.Core.Ranges
import NpuArc.Core.Chaining
import NpuArc.Core.Scratch
import NpuArc.Core.Frame
import NpuArc.Library.Patches
import NpuArc.Core.Reordering
import NpuArc.Core.Assembly
import NpuArc.Core.Compiler
import NpuArc.Library.Interleave
import NpuArc.Core.Packing
import NpuArc.Library.Tiles
import NpuArc.Library.Rounding
import NpuArc.Library.FactorPairs
import NpuArc.Library.TwoStage
import NpuArc.Library.NdArray
import NpuArc.Core.Quantize
import NpuArc.Core.Mxu
import NpuArc.Library.PyBytes
import NpuArc.Pcie.Crossbar
import NpuArc.Pcie.Endpoint
import NpuArc.Pcie.EndpointFrame
import NpuArc.Pcie.DmaEngine
import NpuArc.Pcie.Headers
import NpuArc.Pcie.Transfers
import NpuArc.Pcie.HostRoundTrip
import NpuArc.Pcie.Injection
import NpuArc.Pcie.Reassembly
import NpuArc.Library.Pipeline
import NpuArc.Engines.Config
import NpuArc.Engines.MacEngine
import NpuArc.Engines.Transfer
import NpuArc.Engines.Systolic
import NpuArc.Engines.Stationary
import NpuArc.Engines.Block
import NpuArc.Engines.Warps
import NpuArc.Engines.Fsa
import NpuArc.Library.Grid
import NpuArc.Engines.TensorCore
import NpuArc.Engines.WaveSchedule
import NpuArc.Engines.InlineAttention
import NpuArc.Engines.Registry
import NpuArc.Engines.Creation
import NpuArc.Engines.ComputeFloor
import NpuArc.Engines.BandwidthFloor
import NpuArc.Engines.Monotone
import NpuArc.Engines.Pair
import NpuArc.Engines.Capacity
import NpuArc.Simulator.Timeline
import NpuArc.Simulator.CycleCounts
import NpuArc.Simulator.MultiCore
import NpuArc.Simulator.LayerPipeline
import NpuArc.Simulator.Config
import NpuArc.Simulator.ElementUnits
import NpuArc.Simulator.KvCache
import NpuArc.Simulator.Noc
import NpuArc.Simulator.MeshGeometry
import NpuArc.Simulator.Decode
import NpuArc.Simulator.Dma
import NpuArc.Simulator.DmaCosts
import NpuArc.Simulator.Conservation
import NpuArc.Calibration.TrustGate
import NpuArc.Cv.ConvMapper
import NpuArc.Cv.CvTrace
import NpuArc.Cv.CvSim
import NpuArc.Cv.LayerWork
