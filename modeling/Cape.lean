import Cape.Runtime.AllocStack
import Cape.Slicing.LoopBlocks
import Cape.Slicing.HighestBranch
import Cape.Slicing.NodesWalk
import Cape.Slicing.BufferIds
import Cape.Slicing.AllocBalance
import Cape.Slicing.CodePreload
import Cape.PointerAnalysis.ChangeTracking
import Cape.PointerAnalysis.Soundness
import Cape.PointerAnalysis.ThreadRuns
import Cape.PointerAnalysis.WiringRuns
import Cape.MemorySSA.ModRef
import Cape.ControlDependence.DODExact
import Cape.ControlDependence.CallDependence
import Cape.ControlDependence.PostDominanceFrontiers
import Cape.ControlDependence.LegacyNTSCD
import Cape.ControlDependence.ControlClosure
import Cape.LLVMReadWriteGraph.MapPointers
import Cape.LLVMReadWriteGraph.Stores
import Cape.LLVMReadWriteGraph.MemoryCalls
import Cape.LLVMReadWriteGraph.AddressTaken
import Cape.SummaryEdges.Exactness
import Cape.ADT.IntervalCoverage
import Cape.ValueRelations.RelationsClosure
import Cape.ValueRelations.Termination
import Cape.ValueRelations.CallSites
import Cape.Library.FinishingOrder
import Cape.ThreadRegions.Regions
import Cape.ThreadRegions.CriticalSections
import Cape.ADT.IntervalGather
import Cape.MemorySSA.DefinitionsOperations
import Cape.MemorySSA.Definitions
import Cape.MemorySSA.DefSiteSet
import Cape.PointerAnalysis.UnknownOffsets
import Cape.PointerAnalysis.MustPointToRuns
import Cape.ADT.BitvectorRuns
import Cape.ADT.NumberSet
import Cape.PointerAnalysis.RemovalReports
import Cape.ADT.SCC
import Cape.Library.ChainSplit
import Cape.MemorySSA.BlockSplitting
import Cape.PointerAnalysis.OffsetCoverage
import Cape.PointerAnalysis.ConstantExpressions
import Cape.PointerAnalysis.AggregateOffsets
import Cape.PointerAnalysis.OffsetsSetRuns
import Cape.Library.FittingRuns
import Cape.Library.GeneratedEquivalence
import Cape.Library.LiveIteration
import Cape.Library.Elimination
import Cape.ValueRelations.SharedClasses
import Cape.ValueRelations.EqualityRuns
import Cape.Slicing.BlockEdges
import Cape.Slicing.BlockSuccessors
import Cape.Slicing.NodeEdges
import Cape.PointerAnalysis.SubgraphNode
import Cape.PointerAnalysis.BlockSuccessors
import Cape.ThreadRegions.Interference
import Cape.PointerAnalysis.MemoryRegions
import Cape.Slicing.SecondaryCriteria
import Cape.PointerAnalysis.Optimizer
import Cape.MemorySSA.BlocksBuilder
import Cape.PointerAnalysis.FlowSensitiveSoundness
import Cape.PointerAnalysis.InvalidationRuns
import Cape.MemorySSA.OnDemandTermination
import Cape.MemorySSA.OnDemandStability
import Cape.Slicing.SlicedBlocks
