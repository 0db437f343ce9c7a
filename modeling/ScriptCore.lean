import ScriptCore.Double.Lemmas
import ScriptCore.Double.Exact
import ScriptCore.OperandStack
import ScriptCore.Loader
import ScriptCore.Settings
import ScriptCore.Word
import ScriptCore.Proofs.Slots
import ScriptCore.Proofs.Settles
import ScriptCore.Proofs.Computations
import ScriptCore.Proofs.Conversions
import ScriptCore.Proofs.Calls
import ScriptCore.Proofs.Addition
import ScriptCore.Proofs.Results
import ScriptCore.Proofs.StackDiscipline
import ScriptCore.Proofs.StaleStrings
import ScriptCore.Proofs.Counts
import ScriptCore.Proofs.Holders
import ScriptCore.Proofs.WellFormed
import ScriptCore.Proofs.Growth
import ScriptCore.Proofs.Safety
import ScriptCore.Proofs.Equalities
import ScriptCore.Double.Integers
import ScriptCore.Proofs.Encoding
import ScriptCore.Proofs.Representations
import ScriptCore.Proofs.Symmetry
import ScriptCore.Proofs.ConversionOrder
import ScriptCore.Proofs.EitherOrder
import ScriptCore.Proofs.Edits
import ScriptCore.Proofs.Allocator
import ScriptCore.Numeral.Grammar
import ScriptCore.Proofs.Numerals
import ScriptCore.Double.Monotone
import ScriptCore.Proofs.Readings
import ScriptCore.Decimal.Lemmas
import ScriptCore.Proofs.Writing
import ScriptCore.Proofs.RoundTrip
import ScriptCore.Proofs.FiniteTexts
import ScriptCore.Proofs.Inheritance
import ScriptCore.Proofs.NumberEquality
import ScriptCore.Proofs.PrimitiveEquality
import ScriptCore.Proofs.NestedComparisons
import ScriptCore.Proofs.WrappedIntegers
import ScriptCore.Proofs.ClampedIntegers
import ScriptCore.Proofs.Indiscernible
import ScriptCore.Proofs.ExactEquality
import ScriptCore.Proofs.OperandDispatch
import ScriptCore.Proofs.RelationalOrder
import ScriptCore.Proofs.Instances
import ScriptCore.Proofs.Indices
import ScriptCore.Proofs.Methods
import ScriptCore.Proofs.ArrayTexts
import ScriptCore.Proofs.Atomicity
import ScriptCore.Double.Spacing
import ScriptCore.Proofs.Seconds
import ScriptCore.Proofs.DateTexts
import ScriptCore.Proofs.LoadedSettings
import ScriptCore.Double.Halfway
import ScriptCore.Numeral.Exact
import ScriptCore.Proofs.PrefixedLiterals
import ScriptCore.Decimal.Rational
import ScriptCore.Double.Nearest
import ScriptCore.Proofs.SixteenDigits
import ScriptCore.Proofs.TextOrder
import ScriptCore.Proofs.IntegerArithmetic
import ScriptCore.Proofs.Scopes
import ScriptCore.Proofs.Slices
import ScriptCore.Proofs.Narrowing
import ScriptCore.Proofs.CanonicalTexts
