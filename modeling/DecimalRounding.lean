import DecimalRounding.Registry.Snapshots
import DecimalRounding.Proofs.RelativeError
import DecimalRounding.Proofs.Value
import DecimalRounding.Proofs.Operations
import DecimalRounding.Proofs.Nudge
import DecimalRounding.Proofs.TenPowers
import DecimalRounding.Proofs.Shortest
import DecimalRounding.Proofs.HalfAway
import DecimalRounding.Proofs.WholePlaces
import DecimalRounding.Proofs.FractionPlaces
import DecimalRounding.Proofs.ShortDecimals
import DecimalRounding.Proofs.Multiples
import DecimalRounding.Proofs.Agreement
import DecimalRounding.Proofs.HalfStep
import DecimalRounding.Proofs.SourceTokens
import DecimalRounding.Proofs.SourceGrammar
import DecimalRounding.Proofs.ComposedText
import DecimalRounding.Proofs.SourceValue
import DecimalRounding.Proofs.EmittedIntegers
import DecimalRounding.Proofs.CallRefusals
import DecimalRounding.Proofs.RepeatedRounding
import DecimalRounding.Proofs.ByteOrder
import DecimalRounding.Proofs.RegistryHistory
import DecimalRounding.Proofs.PythonSource
import DecimalRounding.Proofs.EmittedNudge
import DecimalRounding.Proofs.IntegerWidth
import DecimalRounding.Proofs.NumberLine
import DecimalRounding.Proofs.OrderAndSign
import DecimalRounding.Proofs.PlacesOrder
import DecimalRounding.Proofs.FormattedPlaces
import DecimalRounding.Proofs.DigitCounts
import DecimalRounding.Proofs.ConstantFolding
import DecimalRounding.Proofs.UnknownTypes
import DecimalRounding.Proofs.CallOutcomes
import DecimalRounding.Proofs.OmittedDigits
import DecimalRounding.Proofs.Decomposition
import DecimalRounding.Proofs.OutwardNudge
import DecimalRounding.Proofs.ExactScaling
import DecimalRounding.Proofs.FewestDigits
