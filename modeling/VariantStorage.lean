import VariantStorage.Field.Buffers
import VariantStorage.Json.Fragment.Tokens
import VariantStorage.Json.Grammar
import VariantStorage.Proofs.BitPartition
import VariantStorage.Proofs.BitPartition.Exact
import VariantStorage.Proofs.Cover
import VariantStorage.Proofs.Footprint
import VariantStorage.Proofs.Footprint.Alignment
import VariantStorage.Proofs.Footprint.Flattening
import VariantStorage.Proofs.Gather
import VariantStorage.Proofs.Json.Continuation
import VariantStorage.Proofs.Json.Document
import VariantStorage.Proofs.Json.Limits
import VariantStorage.Proofs.Json.Nesting
import VariantStorage.Proofs.Json.Numeral
import VariantStorage.Proofs.Json.Token
import VariantStorage.Proofs.Record.Continuation
import VariantStorage.Proofs.Record.Conversion
import VariantStorage.Proofs.Record.Depth
import VariantStorage.Proofs.Record.Element
import VariantStorage.Proofs.Record.Fields
import VariantStorage.Proofs.Record.Grammar
import VariantStorage.Proofs.Record.Room
import VariantStorage.Proofs.Record.RoundTrip
import VariantStorage.Proofs.Record.Shape
import VariantStorage.Proofs.Record.Wrapping
import VariantStorage.Proofs.Record.Writing
import VariantStorage.Proofs.Union.Collision
import VariantStorage.Proofs.Union.Dependence
import VariantStorage.Proofs.Union.Emptiness
import VariantStorage.Proofs.Union.Failure
import VariantStorage.Proofs.Union.Grouping
import VariantStorage.Proofs.Union.Json
import VariantStorage.Proofs.Union.Masks
import VariantStorage.Proofs.Union.Ranges
import VariantStorage.Proofs.Union.Rearrangement
import VariantStorage.Proofs.Union.Reset
import VariantStorage.Proofs.Union.Sweep
import VariantStorage.Record.Writer
import VariantStorage.Schema
import VariantStorage.Union.Json
import VariantStorage.Union.Layout
