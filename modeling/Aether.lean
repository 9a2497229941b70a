import Aether.Ast
import Aether.Parser.Decl
import Aether.Parser.Termination
import Aether.Parser.Associativity
import Aether.Parser.PrecedenceTheorems
import Aether.Std.HashMapTheorems
import Aether.Semantic.ResolutionTheorems
import Aether.Aelib.Reader
import Aether.Aelib.SafetyTheorems
import Aether.Aelib.RoundTripTheorems
import Aether.Aelib.Interface
import Aether.Aelib.InterfaceTheorems
import Aether.CTranspiler.Expr
import Aether.CTranspiler.Range
import Aether.CTranspiler.RangeTheorems
import Aether.CTranspiler.Exec
import Aether.CTranspiler.DeferTheorems
import Aether.CTranspiler.Scopes
import Aether.CTranspiler.ScopeCheck
import Aether.CTranspiler.ScopeTheorems
import Aether.CTranspiler.ReleaseTheorems
import Aether.Lexing.Steps
import Aether.Lexing.Lookahead
import Aether.Lexing.Walk
import Aether.Lexing.SpellingTheorems
import Aether.Lexing.CommentTheorems
import Aether.Command.Fmt
import Aether.Command.FmtTheorems
import Aether.Lib.Fuel
import Aether.Semantic.MonomorphizeTheorems
import Aether.Optimizer.Dce
import Aether.Optimizer.EffectTheorems
import Aether.Optimizer.Fold
import Aether.Optimizer.BranchTheorems
import Aether.Command.Import
import Aether.Command.ImportTheorems
import Aether.CTranspiler.StringLiteral
import Aether.CTranspiler.Interpolation
import Aether.CTranspiler.Pieces
import Aether.CTranspiler.InterpolationTheorems
import Aether.Lib.RingBuffer
import Aether.Std.Sequences
import Aether.Std.SequenceTheorems
import Aether.Lib.Occurrences
import Aether.Std.Str
import Aether.Std.StrTheorems
import Aether.Std.Set
import Aether.Std.SetTheorems
import Aether.Std.ProbingTheorems
import Aether.Std.MathTheorems
import Aether.Lib.ReferenceGraph
import Aether.Semantic.ConstEvalTheorems
import Aether.Semantic.ArithmeticTheorems
import Aether.CTranspiler.FloatTheorems
import Aether.Asm.Parser
import Aether.Asm.X86Backend
import Aether.Asm.DataTheorems
import Aether.Semantic.ConstantTheorems
import Aether.Lib.Numerals
import Aether.Lib.TreeWalk
import Aether.CTranspiler.Lambda
import Aether.CTranspiler.LambdaTheorems
import Aether.CTranspiler.Overload
import Aether.CTranspiler.OverloadTheorems
import Aether.CTranspiler.OverloadSoundness
import Aether.CTranspiler.MethodTheorems
import Aether.Codegen.Contracts
import Aether.Semantic.EmitTheorems
import Aether.Arena
import Aether.ArenaTheorems
import Aether.Parser.MatchArms
import Aether.CTranspiler.MatchTheorems
import Aether.Lib.LoopTraces
import Aether.CTranspiler.Loops
import Aether.CTranspiler.LoopTheorems
import Aether.Asm.Backends
import Aether.Lib.Listing
import Aether.Asm.Machine
import Aether.Asm.X86
import Aether.Asm.Arm64
import Aether.Asm.Riscv64
import Aether.Asm.Translation
import Aether.Asm.Arm64Theorems
import Aether.Asm.Riscv64Theorems
import Aether.Asm.CrossTarget
import Aether.Codegen.Defers
import Aether.Codegen.Layout
import Aether.Codegen.LayoutTheorems
import Aether.CTranspiler.Enums
import Aether.Codegen.Enums
import Aether.EnumTheorems
import Aether.Lib.BoundedWriter
import Aether.Codegen.Output
import Aether.Codegen.OutputTheorems
import Aether.Codegen.Alloc
import Aether.Codegen.AllocTheorems
import Aether.Codegen.StringRuntime
import Aether.Codegen.Branches
import Aether.Codegen.BranchTheorems
import Aether.Codegen.RangeLoops
import Aether.Codegen.RangeLoopTheorems
import Aether.CTranspiler.LiteralTheorems
import Aether.Lib.DbLine
import Aether.Codegen.StringTable
import Aether.EscapeTheorems
import Aether.CTranspiler.TypeNames
import Aether.CTranspiler.Drops
import Aether.CTranspiler.Optionals
import Aether.CTranspiler.CallArgs
import Aether.CTranspiler.SymbolTheorems
import Aether.CTranspiler.ReturnTheorems
import Aether.CTranspiler.TryCatch
import Aether.CTranspiler.RefCount
import Aether.Lexing.BlockCommentTheorems
import Aether.Lexing.PointerTheorems
import Aether.Lexing.StringTheorems
import Aether.Lexing.NumberTheorems
import Aether.Parser.SegmentTheorems
import Aether.Parser.SliceTheorems
import Aether.Parser.AsmTheorems
import Aether.Parser.TernaryTheorems
import Aether.Parser.TypeSyntax
import Aether.Parser.TypeTheorems
import Aether.Codegen.StringRuntimeTheorems
import Aether.Std.SearchTheorems
import Aether.Std.ReadTheorems
import Aether.Semantic.TypeReplacement
import Aether.Semantic.ScopeArena
import Aether.Lexing.LexerSlots
import Aether.Lexing.LocationTheorems
import Aether.Asm.ParserTheorems
import Aether.Codegen.Functions
import Aether.Codegen.FunctionTheorems
import Aether.Codegen.CallTheorems
import Aether.Codegen.LabelTheorems
import Aether.Codegen.ProgramTheorems
import Aether.Codegen.FoldTheorems
import Aether.Codegen.TargetTheorems
import Aether.VectorTheorems
import Aether.Codegen.DropTheorems
import Aether.Codegen.OptimizeTheorems
