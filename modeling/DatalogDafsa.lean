import DatalogDafsa.Dafsa
import DatalogDafsa.TupleSet
import DatalogDafsa.Lib.SetLog
import DatalogDafsa.Lib.Backtrack
import DatalogDafsa.Lib.Operators
import DatalogDafsa.Lib.Dfs
import DatalogDafsa.Vm.Instr
import DatalogDafsa.Vm.Exec
import DatalogDafsa.Vm.Plan
import DatalogDafsa.Vm.Step
import DatalogDafsa.Vm.Sound
import DatalogDafsa.Vm.Aggregate
import DatalogDafsa.Eval.Batch
import DatalogDafsa.Eval.Nonrec
import DatalogDafsa.Eval.Recursive
import DatalogDafsa.Eval.Execute
import DatalogDafsa.Compile.Syntax
import DatalogDafsa.Compile.Strata
import DatalogDafsa.Compile.StrataExact
import DatalogDafsa.Eval.Perfect
import DatalogDafsa.Relation
import DatalogDafsa.Durable
import DatalogDafsa.DurableReplay
import DatalogDafsa.DurableRun
import DatalogDafsa.BaseSet
import DatalogDafsa.TxnWal
import DatalogDafsa.TxnLog
import DatalogDafsa.Atomic
import DatalogDafsa.Lib.EditDistance
import DatalogDafsa.Lib.Probe
import DatalogDafsa.Lib.Explore
import DatalogDafsa.Lib.Thompson
import DatalogDafsa.Regex.Grammar
import DatalogDafsa.Regex.Parse
import DatalogDafsa.Regex.Nfa
import DatalogDafsa.Regex.Lexer
import DatalogDafsa.Regex.Class
import DatalogDafsa.Regex.Sound
import DatalogDafsa.Regex.Dfa
import DatalogDafsa.Regex.Lev
import DatalogDafsa.AtomicRun
import DatalogDafsa.Directory
import DatalogDafsa.DirectoryUpdate
import DatalogDafsa.DirectorySound
import DatalogDafsa.DirectoryRun
import DatalogDafsa.Regex.Fuel
import DatalogDafsa.Regex.Subset
import DatalogDafsa.Regex.Compile
import DatalogDafsa.Intern.Format
import DatalogDafsa.Intern.Interner
import DatalogDafsa.Intern.Refine
import DatalogDafsa.Lib.StreamHash
import DatalogDafsa.Intern.Stamp
import DatalogDafsa.Intern.Table
import DatalogDafsa.Lib.ConsCells
import DatalogDafsa.Term.Store
import DatalogDafsa.Term.Canonical
import DatalogDafsa.Term.Text
import DatalogDafsa.Regex.Walk
import DatalogDafsa.Regex.PathSet
import DatalogDafsa.Regex.KeyAuto
import DatalogDafsa.Regex.WalkSound
import DatalogDafsa.Lib.RecordLock
import DatalogDafsa.LockProtocol
import DatalogDafsa.Csv
import DatalogDafsa.CsvExact
import DatalogDafsa.Lib.OrderStat
import DatalogDafsa.LazyRelation
import DatalogDafsa.ViewAgree
import DatalogDafsa.Typecheck.Check
import DatalogDafsa.Typecheck.Typed
import DatalogDafsa.Typecheck.Sound
import DatalogDafsa.Search.Sets
import DatalogDafsa.Search.Ranked
import DatalogDafsa.Search.RankedSound
import DatalogDafsa.Search.IndexSound
import DatalogDafsa.Lib.OrderedWalk
import DatalogDafsa.Lib.MergeJoin
import DatalogDafsa.Iter.Cursor
import DatalogDafsa.Iter.Sound
import DatalogDafsa.Iter.JoinSound
import DatalogDafsa.Wfs.ComplementSound
import DatalogDafsa.Kinds.Order
import DatalogDafsa.Kinds.Tagged
import DatalogDafsa.Kinds.TaggedSound
import DatalogDafsa.Lib.Heapsort
import DatalogDafsa.TupleTable
import DatalogDafsa.TupleTableSound
import DatalogDafsa.ViewCache
import DatalogDafsa.Lib.Text
import DatalogDafsa.Catalog.Declare
import DatalogDafsa.Catalog.Paths
import DatalogDafsa.Lib.BreadthFirst
import DatalogDafsa.Traverse
import DatalogDafsa.TraverseSound
import DatalogDafsa.Catalog.RelsTxt
import DatalogDafsa.Catalog.Reopen
import DatalogDafsa.Catalog.ReopenSound
import DatalogDafsa.Lib.Worklist
import DatalogDafsa.Eval.Commit
import DatalogDafsa.Eval.Joins
import DatalogDafsa.Eval.Propagate
import DatalogDafsa.Eval.SemiNaive
import DatalogDafsa.Eval.Stratum
import DatalogDafsa.Eval.Layers
import DatalogDafsa.Eval.Ivm
import DatalogDafsa.Lib.Rederive
import DatalogDafsa.Eval.Dred
import DatalogDafsa.Eval.DredSound
import DatalogDafsa.Eval.DredModel
