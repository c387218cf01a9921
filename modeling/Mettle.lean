import Mettle.Linker.SymbolOrder
import Mettle.Codegen.CoffRoundTrip
import Mettle.Codegen.CallMoves
import Mettle.Codegen.ScaledFusion
import Mettle.Semantic.Initialization
import Mettle.Semantic.Stores
import Mettle.Linker.PeLayout
import Mettle.Codegen.Encoders
import Mettle.Codegen.StackProbe
import Mettle.Codegen.NarrowLocals
import Mettle.Codegen.Fixups
import Mettle.Codegen.SymbolIndex
import Mettle.Linker.ImportLibrary
import Mettle.IR.PointerSound
import Mettle.Semantic.Layout
import Mettle.IR.Driver
import Mettle.Parser.Guesses
import Mettle.Parser.TypeText
import Mettle.Semantic.ConstantValues
import Mettle.Codegen.StringLiterals
import Mettle.Semantic.InstanceClosure
import Mettle.Semantic.TraitCalls
import Mettle.Codegen.GlobalConstants
import Mettle.IR.BoundsCheck
import Mettle.Codegen.SimdSum
import Mettle.Codegen.SimdMinMax
import Mettle.Codegen.SimdSort
import Mettle.Codegen.SimdWords
import Mettle.Parser.CloneNode
import Mettle.Parser.NumberLiterals
import Mettle.Error.Suggestions
import Mettle.Semantic.Scopes
import Mettle.Semantic.ImportResolver
