import Slotform.Derive.Code
import Slotform.Proofs.Introspection.Aliases
import Slotform.Proofs.Introspection.Cycles
import Slotform.Proofs.Introspection.Definitions
import Slotform.Proofs.Introspection.Elements
import Slotform.Proofs.Introspection.Naming
import Slotform.Proofs.Introspection.Skipping
import Slotform.Proofs.Payload.Alike
import Slotform.Proofs.Payload.Callers
import Slotform.Proofs.Payload.Cuts
import Slotform.Proofs.Payload.Depth
import Slotform.Proofs.Payload.Exactness
import Slotform.Proofs.Payload.Filtering
import Slotform.Proofs.Payload.Foreign
import Slotform.Proofs.Payload.Formats
import Slotform.Proofs.Payload.ListItems
import Slotform.Proofs.Payload.Padding
import Slotform.Proofs.Payload.Reordering
import Slotform.Proofs.Payload.Rewriting
import Slotform.Proofs.Payload.RootReadings
import Slotform.Proofs.Payload.Stability
import Slotform.Proofs.Registry.Indexed
import Slotform.Proofs.Schema.Json
import Slotform.Proofs.Schema.Nesting
import Slotform.Proofs.Session.Lists
import Slotform.Proofs.Session.Reencoding
import Slotform.Proofs.Session.Variants
import Slotform.Proofs.Typed.Coverage
import Slotform.Proofs.Typed.Inverse
import Slotform.Session
import Slotform.Typed.Samples
