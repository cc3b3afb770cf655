import Loxis.Aarc.Collection
import Loxis.Aarc.FoldSweep
import Loxis.Aarc.Channel
import Loxis.Aarc.AsyncSafe
import Loxis.Aarc.Quiesce
import Loxis.Aarc.PoolSafe
import Loxis.Aarc.LinkedSafe
import Loxis.Vm.HeapRun
import Loxis.Vm.Starvation
import Loxis.Backend.Limits
import Loxis.Backend.Arithmetic
import Loxis.Lowering.Resolved
import Loxis.Driver.Linked
import Loxis.Mono.Distinct
import Loxis.Classes.Sound
import Loxis.TypeTest.Exact
import Loxis.Vm.Refusal
import Loxis.Lowering.SafeNav
import Loxis.Frontend.Meaning
import Loxis.Bytecode.Roundtrip
import Loxis.Globals.InOrder
import Loxis.Literals.InOrder
import Loxis.DataClasses.Exact
import Loxis.Whens.Exact
import Loxis.Ranges.Once
import Loxis.Subtyping.Exact
import Loxis.Subtyping.Substitution
import Loxis.Lexing.Lossless
import Loxis.Aarc.DetectorSound
import Loxis.Aarc.RootBagSound
import Loxis.Stdlib.ParseInt
import Loxis.Stdlib.HashMapThrow
import Loxis.Stdlib.IteratorRun
import Loxis.Stdlib.ListsRun
import Loxis.Stdlib.JsonWrite
import Loxis.Stdlib.PowInt
import Loxis.Aarc.LocalCells
import Loxis.Aarc.Suspects
import Loxis.Aarc.ForwardAgree
import Loxis.Stdlib.Random
import Loxis.Stdlib.Lines
import Loxis.Lowering.Preserves
import Loxis.Lib.Cascade
import Loxis.Vm.Arc
import Loxis.Vm.Control
import Loxis.Vm.Counted
import Loxis.Calls.Arguments
