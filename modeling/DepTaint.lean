import DepTaint.Base.Containers
import DepTaint.Base.AppendTree
import DepTaint.Base.Fold
import DepTaint.Base.Worklist
import DepTaint.Base.DepthFirst
import DepTaint.Base.ReverseMap
import DepTaint.IR
import DepTaint.DependencyGraph
import DepTaint.Wrapper
import DepTaint.DataDependencies
import DepTaint.PostDominatorTree
import DepTaint.FunctionWrapper
import DepTaint.ControlDependencies
import DepTaint.PostDominatorWalk
import DepTaint.ProgramDependencies
import DepTaint.Dependences
import DepTaint.ModuleGraphs
import DepTaint.ModuleLoop
import DepTaint.Propagation
import DepTaint.PropagationStep
import DepTaint.PropagationRun
import DepTaint.Report
import DepTaint.Seeds
import DepTaint.Tainted
import DepTaint.ControlDependence
import DepTaint.GraphMerge
import DepTaint.FlowDependence
import DepTaint.CallLinks
import DepTaint.Confinement
import DepTaint.MissingInstruction
import DepTaint.TaintLines
import DepTaint.ExplicitFlow
import DepTaint.HeapOrder
import DepTaint.GraphCalls
import DepTaint.NearestStore
import DepTaint.ControlLinks
import DepTaint.PropagationTrace
import DepTaint.AllocaMarks
import DepTaint.ReportMarks
import DepTaint.TaintNames
import DepTaint.RegistryCalls
import DepTaint.SecondModule
import DepTaint.ParameterTrees
import DepTaint.TreeDepth
import DepTaint.FieldIds
import DepTaint.ArgumentTrees
import DepTaint.TreeAlignment
import DepTaint.BackEdges
import DepTaint.BackEdgeRemoval
import DepTaint.DependenceScan
import DepTaint.DependenceCache
import DepTaint.DependenceWalk
import DepTaint.CacheInverse
import DepTaint.CacheEntries
import DepTaint.CacheRemoval
import DepTaint.CacheRuns
import DepTaint.CallDependence
import DepTaint.ScanAgreement
import DepTaint.LocalAgreement
import DepTaint.CallAnswers
import DepTaint.ClientRuns
import DepTaint.RemovedPointers
import DepTaint.Base.Forest
import DepTaint.TreeNodes
import DepTaint.TreeLinks
import DepTaint.TreeUpdates
import DepTaint.TreeTraversal
import DepTaint.TreeErasure
import DepTaint.TreeCopy
import DepTaint.TreeCommands
import DepTaint.TreeRuns
import DepTaint.AppendedTrees
import DepTaint.PointerEntries
import DepTaint.RemovalAssertions
import DepTaint.UntranslatedWalks
