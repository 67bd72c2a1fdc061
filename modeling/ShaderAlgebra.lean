import ShaderAlgebra.Main
import ShaderAlgebra.Proofs.Names
import ShaderAlgebra.Proofs.KeyedLog
import ShaderAlgebra.Proofs.Catalog
import ShaderAlgebra.Proofs.Emission
import ShaderAlgebra.Proofs.Outcome
import ShaderAlgebra.Proofs.Calls
import ShaderAlgebra.Proofs.Translation
import ShaderAlgebra.Proofs.Compilation
import ShaderAlgebra.Proofs.History
import ShaderAlgebra.Proofs.Layout
import ShaderAlgebra.Proofs.TypedTerms
import ShaderAlgebra.Proofs.TypedHeader
import ShaderAlgebra.Proofs.WellTyped
import ShaderAlgebra.Proofs.Lexer
import ShaderAlgebra.Proofs.Grammar
import ShaderAlgebra.Proofs.Spelling
import ShaderAlgebra.Proofs.Parser
import ShaderAlgebra.Proofs.Evaluator
import ShaderAlgebra.Proofs.Meaning
import ShaderAlgebra.Proofs.Packing
import ShaderAlgebra.Proofs.EvaluatedTerms
import ShaderAlgebra.Proofs.EvaluatedElements
import ShaderAlgebra.Proofs.EvaluatedHeader
import ShaderAlgebra.Proofs.Readability
import ShaderAlgebra.Proofs.Correctness
import ShaderAlgebra.Proofs.Operations
import ShaderAlgebra.Proofs.Elements
import ShaderAlgebra.Proofs.Constants
import ShaderAlgebra.Proofs.Shaping
import ShaderAlgebra.Proofs.Effects
import ShaderAlgebra.Proofs.Independence
import ShaderAlgebra.Proofs.NameClashes
import ShaderAlgebra.Proofs.SignPairs
import ShaderAlgebra.Proofs.AdjacentSigns
import ShaderAlgebra.Proofs.ProgramFiles
import ShaderAlgebra.Proofs.Rounding
import ShaderAlgebra.Proofs.WrittenNumbers
import ShaderAlgebra.Proofs.ShortestDecimals
import ShaderAlgebra.Proofs.SavedFiles
import ShaderAlgebra.Proofs.Strict
import ShaderAlgebra.Proofs.AllOrNothing
import ShaderAlgebra.Proofs.OperationTables
import ShaderAlgebra.Proofs.ReaderRuns
import ShaderAlgebra.Proofs.StoredBodies
import ShaderAlgebra.Proofs.CollectedInputs
import ShaderAlgebra.Proofs.ReaderText
import ShaderAlgebra.Proofs.ImageFrame
import ShaderAlgebra.Proofs.NearestDoubles
import ShaderAlgebra.Proofs.FloatLiterals
