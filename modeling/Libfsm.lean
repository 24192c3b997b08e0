import Libfsm.Lib.SortedArray
import Libfsm.Adt.StateSet
import Libfsm.Adt.EdgeSet
import Libfsm.Fsm.Basic
import Libfsm.Fsm.Semantics
import Libfsm.Ops.Concat
import Libfsm.Ops.Union
import Libfsm.Lib.GraphSearch
import Libfsm.Adt.Queue
import Libfsm.Lib.OffsetIndex
import Libfsm.Ops.Compact
import Libfsm.Ops.Trim
import Libfsm.Ops.Epsilons
import Libfsm.Adt.InternedStateSet
import Libfsm.Ops.DstBuf
import Libfsm.Ops.LabelPartition
import Libfsm.Ops.ClosureAnalysis
import Libfsm.Ops.SubsetConstruction
import Libfsm.Ops.Determinise
import Libfsm.Ops.Complement
import Libfsm.Ops.Walk2
import Libfsm.Ops.Product
import Libfsm.Ops.Equal
import Libfsm.Lib.LongestSuffix
import Libfsm.Re.Trie
import Libfsm.Re.FailureEdges
import Libfsm.Re.TrieToFsm
import Libfsm.Re.Strings
import Libfsm.Re.StringEndids
import Libfsm.Lib.Runs
import Libfsm.Print.Ir
import Libfsm.Print.IrFaithful
import Libfsm.Lib.Repeats
import Libfsm.Re.Ast
import Libfsm.Re.AstRewrite
import Libfsm.Lib.StateElimination
import Libfsm.Re.AstFromFsm
import Libfsm.Lib.FetchMachine
import Libfsm.Vm.OpIr
import Libfsm.Vm.OpIrSound
import Libfsm.Vm.Linked
import Libfsm.Lib.Layout
import Libfsm.Vm.Bytecode
import Libfsm.Vm.BranchLayout
import Libfsm.Vm.V1
import Libfsm.Adt.StateSetOps
import Libfsm.Ops.CompactCaptures
import Libfsm.Adt.RawEdgeSet
import Libfsm.Adt.EdgeSetOps
import Libfsm.Ops.RemoveState
import Libfsm.Endids.Table
import Libfsm.Endids.Runs
import Libfsm.Lib.ChainTable
import Libfsm.Lib.Numerals
import Libfsm.Text.Parse
import Libfsm.Text.RoundTrip
import Libfsm.Adt.PermutationVector
import Libfsm.Lib.MooreClasses
import Libfsm.Ops.Consolidate
import Libfsm.Ops.Minimise
import Libfsm.Lib.ClassLists
import Libfsm.Ops.MinimiseClasses
import Libfsm.Ops.MinimiseMetadata
import Libfsm.Ops.MinimiseLoop
import Libfsm.Ops.MinimiseExact
import Libfsm.Adt.EdgeSetReaders
import Libfsm.Adt.InternedPool
import Libfsm.Ops.MergeStates
import Libfsm.Lib.Reversal
import Libfsm.Ops.Reverse
import Libfsm.Lib.Congruential
import Libfsm.Ops.Shuffle
import Libfsm.Adt.Priq
import Libfsm.Ops.Shortest
import Libfsm.Vm.SaveLoad
import Libfsm.Vm.V2
import Libfsm.Re.AstOrder
