import Solang.Codegen.Encoding.SorobanStruct
import Solang.Emit.SorobanCorrect
import Solang.Codegen.ArrayLengthsSound
import Solang.Codegen.Yul.Exact
import Solang.Codegen.Encoding.DecodeSafe
import Solang.Codegen.Encoding.ConstEncodeSound
import Solang.Codegen.StrengthReduce.BitwiseSound
import Solang.Codegen.StrengthReduce.ArithmeticSound
import Solang.Codegen.StrengthReduce.CompareSound
import Solang.Codegen.StrengthReduce.ReachingValues
import Solang.Codegen.StrengthReduce.ReduceCorrect
import Solang.Codegen.Subexpressions.Anticipated
import Solang.Codegen.Subexpressions.NumberingSound
import Solang.Parser.DocCommentsLexed
import Solang.Resolver.FileResolverRuns
import Solang.Sema.ArrayLiterals
import Solang.Codegen.Accounts.CollectionFix
import Solang.Codegen.Dispatch.PolkadotCorrect
import Solang.Codegen.VectorToSlice
import Solang.Codegen.BaseConstructorsSound
import Solang.Codegen.Evaluation.Destructure
import Solang.Codegen.Evaluation.SideEffectsSound
import Solang.Codegen.Evaluation.StorageArraySound
import Solang.Codegen.Evaluation.YulBuiltinSound
import Solang.Codegen.Subscript
import Solang.Sema.EvalAgree
import Solang.Codegen.Dispatch.SolanaProtocol
import Solang.Sema.ManglingSound
import Solang.Codegen.StorageLayout
import Solang.Emit.PolkadotDelete
import Solang.Sema.FormatSound
import Solang.Sema.LiteralTypes
import Solang.Sema.MemorySize
import Solang.Sema.StructRecursionSound
import Solang.Emit.SolanaMappingHeap
import Solang.Stdlib.AccountHeapReuse
import Solang.Emit.PowerCorrect
import Solang.Emit.Expression
import Solang.Emit.Strings
import Solang.Emit.VectorList
