import ByteJump.Compile
import ByteJump.FileTree
import ByteJump.Image.Trace
import ByteJump.Machine
import ByteJump.Syntax.Build
import ByteJump.Proofs.Resolve.SameFile
import ByteJump.Proofs.ImportCycle
import ByteJump.Proofs.KeptImports
import ByteJump.Proofs.Sessions
import ByteJump.Proofs.Resolve.Sound
import ByteJump.Proofs.ResolvedProgram
import ByteJump.Proofs.Emit.Placed
import ByteJump.Proofs.Emit.Statements
import ByteJump.Proofs.Emit.Patches
import ByteJump.Proofs.GeneratedProgram
import ByteJump.Proofs.Emit.Pieces
import ByteJump.Proofs.Run.Contents
import ByteJump.Proofs.Run.Steps
import ByteJump.Proofs.Source
import ByteJump.Proofs.Run.Linked
import ByteJump.Proofs.Run.Patched
import ByteJump.Proofs.Run.Exec
import ByteJump.Proofs.Run.Primitives
import ByteJump.Proofs.Run.Lookups
import ByteJump.Proofs.Run.Expr
import ByteJump.Proofs.Run.Branch
import ByteJump.Proofs.Run.Outcomes
import ByteJump.Proofs.Scope
import ByteJump.Proofs.Visible
import ByteJump.Proofs.Resolve.Visits
import ByteJump.Proofs.Resolve.Names
import ByteJump.Proofs.Resolve.Made
import ByteJump.Proofs.Resolve.NamedFiles
import ByteJump.Proofs.Emit.Calm
import ByteJump.Proofs.Emit.Trace
import ByteJump.Proofs.Emit.Stretch
import ByteJump.Proofs.Run.Points
import ByteJump.Proofs.Run.Simple
import ByteJump.Proofs.Run.Statements
import ByteJump.Proofs.Emit.Inside
import ByteJump.Proofs.Emit.Files
import ByteJump.Proofs.Emit.Registers
import ByteJump.Proofs.Emit.Emission
import ByteJump.Proofs.Emit.Lasting
import ByteJump.Proofs.Emit.Backpatch
import ByteJump.Proofs.Emit.Labels
import ByteJump.Proofs.Emit.Copies
import ByteJump.Proofs.LabelLayout
import ByteJump.Proofs.Run.Image
import ByteJump.Proofs.SourceRuns
import ByteJump.Proofs.FileCopies
import ByteJump.Proofs.LiveVariables
import ByteJump.Proofs.ImportedVariables
import ByteJump.Proofs.FlattenedImports
import ByteJump.Proofs.Emit.Carried
import ByteJump.Proofs.Generations
import ByteJump.Proofs.Json.Lexing
import ByteJump.Proofs.Json.Reading
import ByteJump.Proofs.Syntax.Decoding
import ByteJump.Proofs.TreeRoundTrip
import ByteJump.Proofs.Emit.Segments
import ByteJump.Proofs.Emit.Tidy
import ByteJump.Proofs.Emit.Tame
import ByteJump.Proofs.Run.Legs
import ByteJump.Proofs.Undamaged
import ByteJump.Proofs.LexicalScoping
import ByteJump.Proofs.NamesAndPlaces
import ByteJump.Proofs.Json.Spelling
import ByteJump.Proofs.Json.Trailing
import ByteJump.Proofs.Syntax.Records
import ByteJump.Proofs.Syntax.Spelling
import ByteJump.Proofs.Syntax.Flaws
import ByteJump.Proofs.TreeFormat
import ByteJump.Proofs.Resolve.Carries
import ByteJump.Proofs.SamePaths
import ByteJump.Proofs.TypeIdentity
import ByteJump.Proofs.SharedImports
import ByteJump.Proofs.Run.Values
import ByteJump.Proofs.Run.Evaluation
import ByteJump.Proofs.Emit.Blind
import ByteJump.Proofs.Run.Frozen
import ByteJump.Proofs.Run.Growth
import ByteJump.Proofs.Run.Extends
import ByteJump.Proofs.Run.Forks
import ByteJump.Proofs.Run.Occurrences
import ByteJump.Proofs.Run.Narrow
import ByteJump.Proofs.Lexical.Expressions
import ByteJump.Proofs.Emit.Sites
import ByteJump.Proofs.ExpressionCode
import ByteJump.Proofs.ConstantCode
import ByteJump.Proofs.NarrowValues
import ByteJump.Proofs.ConstantArithmetic
import ByteJump.Proofs.LabelledWords
import ByteJump.Proofs.BranchCode
import ByteJump.Proofs.ResumedRuns
import ByteJump.Proofs.Emit.Laying
import ByteJump.Proofs.Emit.Moves
import ByteJump.Proofs.Emit.Courses
import ByteJump.Proofs.RegisterNeed
import ByteJump.Proofs.Resolve.Alignments
import ByteJump.Proofs.AlignedImports
import ByteJump.Proofs.Emit.Pools
import ByteJump.Proofs.Emit.Draws
import ByteJump.Proofs.ConstantPools
import ByteJump.Proofs.LineOrigins
import ByteJump.Proofs.Digits
import ByteJump.Proofs.ImageText
import ByteJump.Proofs.InstructionLines
import ByteJump.Proofs.ImageTrace
import ByteJump.Proofs.Sited.Tree
import ByteJump.Proofs.Sited.Resolve
import ByteJump.Proofs.Sited.Emission
import ByteJump.Proofs.Diagnostics
import ByteJump.Proofs.Patterns
import ByteJump.Proofs.MarkerPattern
import ByteJump.Proofs.Decimals
import ByteJump.Proofs.Json.Numerals
import ByteJump.Proofs.Literals
import ByteJump.Proofs.Emit.Flows
import ByteJump.Proofs.TraceAddresses
