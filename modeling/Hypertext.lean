import Hypertext.Workspace
import Hypertext.Proofs.Markup
import Hypertext.Proofs.Token
import Hypertext.Proofs.Decoding
import Hypertext.Proofs.Grammar
import Hypertext.Proofs.Faults
import Hypertext.Proofs.Reentrance
import Hypertext.Proofs.Context
import Hypertext.Proofs.Quotation
import Hypertext.Proofs.Loss
import Hypertext.Proofs.Outcome
import Hypertext.Proofs.Counting
import Hypertext.Proofs.Telling
import Hypertext.Proofs.BareSymbols
import Hypertext.Proofs.Registry
import Hypertext.Proofs.Hereditary
import Hypertext.Proofs.Settled
import Hypertext.Proofs.Describing
import Hypertext.Proofs.Simplification
import Hypertext.Proofs.Places
import Hypertext.Proofs.Spelling
import Hypertext.Proofs.SpelledForms
import Hypertext.Proofs.Marks
import Hypertext.Proofs.Unmarked
import Hypertext.Proofs.Effects
import Hypertext.Proofs.Holdings
import Hypertext.Proofs.Origins
import Hypertext.Proofs.Identity
import Hypertext.Proofs.Scripts
import Hypertext.Proofs.Encoding
import Hypertext.Proofs.Segments
import Hypertext.Proofs.Layouts
import Hypertext.Proofs.LineBreaks
import Hypertext.Proofs.DumpReadability
import Hypertext.Proofs.AttributeLookup
import Hypertext.Proofs.ValuePlaces
import Hypertext.Proofs.TruthValues
import Hypertext.Proofs.VoidNames
import Hypertext.Proofs.Digits
import Hypertext.Proofs.Nearest
import Hypertext.Proofs.Literal
import Hypertext.Proofs.GeneralForm
import Hypertext.Proofs.FloatingPoint
import Hypertext.Proofs.Numbers
import Hypertext.Proofs.TagPath
