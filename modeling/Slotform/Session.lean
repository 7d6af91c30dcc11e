import Slotform.Introspection.Reader
import Slotform.Payload.Encode
import Slotform.Payload.Factory
import Slotform.Payload.Header
import Slotform.Typed.Convert
import Slotform.Typed.Model

namespace Slotform

open Typed

/-- Why a session cannot answer. -/
inductive SessionError where
  | read (e : ReadError)
  | mapping (e : MappingError)
  | payload (e : PayloadError)
  | conversion (e : ConversionError)

def SessionError.message : SessionError → String
  | read e => e.message
  | mapping e => e.message
  | payload e => e.message
  | conversion e => "Value conversion failed: " ++ e.message

structure Session where
  catalog : Catalog
  reader : Reader := .ofRegistry .empty
  factory : Factory := .ofCodecs []
  limits : Limits := .standard
  registered : Memo Model Ty := .empty

/-- A step of a session. What it leaves in the session stays there if it fails. -/
abbrev Action (α : Type) := ExceptT SessionError (StateM Session) α

namespace Session

/-- A session whose reader has the session's limits and a skip rule, with the given codecs. -/
def start (catalog : Catalog) (limits : Limits) (skip : SkipRule) (codecs : CodecTable) : Session :=
  let reader := ((Reader.ofRegistry .empty).withLimits limits).withSkip skip
  ⟨catalog, reader, .ofCodecs codecs, limits, .empty⟩

/-- The session as a debugger shows it. -/
def inspected (s : Session) : String :=
  let l := s.limits
  "Context \x7b limits: Limits \x7b max_depth: " ++ toString l.maxDepth ++
    ", max_payload_len: " ++ toString l.maxPayloadLen ++ ", max_width: " ++ toString l.maxWidth ++
    ", max_occurs: " ++ toString l.maxOccurs ++ " \x7d, registered: " ++
    toString s.registered.size ++ ", .. \x7d"

/-- Takes over an outcome under the constructor of its error. -/
def lift {ε α : Type} (wrap : ε → SessionError) (result : Except ε α) : Action α :=
  ExceptT.mk (pure (result.mapError wrap))

def onReader {ε α : Type} (wrap : ε → SessionError)
    (step : Reader → Except ε α × Reader) : Action α :=
  ExceptT.mk fun s =>
    let (result, reader) := step s.reader
    (result.mapError wrap, { s with reader })

def define (incoming : Registry) : Action Unit :=
  onReader (.read ∘ .introspection) fun reader =>
    match reader.define incoming with
    | .ok reader => (.ok (), reader)
    | .error e => (.error e, reader)

/-- The type reference of a model, whose definitions enter the reader on first use. -/
def describe (model : Model) : Action Ty := do
  let s ← get
  match s.registered.request model with
  | (.known kept, _) => pure kept.value
  | (.missing ticket, registered) =>
    let (ty, incoming) := s.catalog.describe model .empty
    let defined := s.reader.define incoming
    let registered := registered.settle ticket (defined.map fun _ => ty)
    match defined with
    | .ok reader =>
      set { s with reader, registered }
      pure ty
    | .error e =>
      set { s with registered }
      throw (.read (.introspection e))

def schemaOfTy (ty : Ty) (element : Option Ty) : Action Schema := do
  let kept ← onReader .read fun reader => reader.request ty element
  pure kept.value

def schemaOf (model : Model) : Action Schema := do schemaOfTy (← describe model) none

def listSchemaOf (model : Model) : Action Schema := do
  schemaOfTy .rawList (some (← describe model))

def mapper (schema : Schema) : Action Mapper := do
  let kept ← ExceptT.mk fun (s : Session) =>
    let (result, factory) := s.factory.create schema
    (result.mapError .mapping, { s with factory })
  pure kept.value

def encodeValue (schema : Schema) (value : Value) : Action (List Char) := do
  lift .payload ((← mapper schema).encode value)

def decodeValue (schema : Schema) (text : List Char) : Action Value := do
  let m ← mapper schema
  lift .payload (m.decode (← get).limits text)

/-- The schema that a payload's own header describes. -/
def payloadSchema (text : List Char) : Action Schema := do
  lift .payload (Header.readSchema (← get).limits text)

/-- The value of a payload of unknown type. -/
def decodeDynamic (text : List Char) : Action Value := do
  decodeValue (← payloadSchema text) text

def toPayload (model : Model) (datum : Datum) : Action (List Char) := do
  let schema ← schemaOf model
  encodeValue schema ((← get).catalog.toValue model datum)

def fromPayload (model : Model) (text : List Char) : Action Datum := do
  let schema ← schemaOf model
  let value ← decodeValue schema text
  lift .conversion ((← get).catalog.ofValue model value)

def toPayloadList (model : Model) (data : List Datum) : Action (List Char) := do
  let schema ← listSchemaOf model
  encodeValue schema ((← get).catalog.toValue (.list model) (.list data))

def fromPayloadList (model : Model) (text : List Char) : Action Datum := do
  let schema ← listSchemaOf model
  let value ← decodeValue schema text
  lift .conversion ((← get).catalog.ofValue (.list model) value)

end Session

end Slotform
