import Slotform.Memo
import Slotform.Payload.Mapper
import Slotform.Schema.Fingerprint

/-!
A factory of mappers. A schema's mapper is looked up by its fingerprint, and the mappers of its
views and members are made in the same way, so that equal parts share one mapper. What was made
on the way stays, also when the whole cannot be made.
-/

namespace Slotform

/-- Which hint of a member cannot be met. -/
inductive FormatFault where
  | zeroOccurs
  | occursOnSingle
  | zeroSize
  | sizeContradicts (size fixed : Nat) (kind : String)
  | sizeOnRecord
  deriving DecidableEq, Repr

def FormatFault.message : FormatFault → String
  | zeroOccurs => "max_occurs must be at least 1"
  | occursOnSingle => "max_occurs on a single member"
  | zeroSize => "size must be at least 1"
  | sizeContradicts size fixed kind =>
    "size " ++ toString size ++ " contradicts the fixed width " ++ toString fixed ++ " of `" ++
      kind ++ "`"
  | sizeOnRecord => "size on a record"

/-- Why a schema has no mapper. -/
inductive MappingError where
  | unregisteredKind (member kind : String)
  | invalidFormat (member : String) (fault : FormatFault)
  deriving DecidableEq, Repr

def MappingError.message : MappingError → String
  | unregisteredKind member kind =>
    "Member `" ++ member ++ "`: no codec registered for kind `" ++ kind ++ "`"
  | invalidFormat member fault => "Member `" ++ member ++ "`: invalid format: " ++ fault.message

/-- The mappers made so far, by the fingerprints of their schemas. -/
abbrev Mappers := Memo Fingerprint Mapper

/-- A step that makes mappers. What it leaves in the table stays there if it fails. -/
abbrev Making (α : Type) := ExceptT MappingError (StateM Mappers) α

/-- The codecs that were registered for kinds, the latest first. They come before built-in ones. -/
abbrev CodecTable := List (String × Codec)

namespace CodecTable

def codec? (codecs : CodecTable) (kind : Kind) : Option Codec :=
  codecs.lookup kind.name <|> Codec.builtin? kind

/-- Looks a schema up in the table, or makes its mapper and keeps it there. -/
def keep (s : Schema) (make : Making Mapper) : Making (Kept Mapper) :=
  ExceptT.mk fun mappers => mappers.getOrCompute s.fingerprint make.run.run

def makeLeaf (codecs : CodecTable) (node : Node) (kind : Kind) : Except MappingError Mapper :=
  if node.format.maxOccurs.isSome then .error (.invalidFormat node.name .occursOnSingle)
  else
    match codecs.codec? kind with
    | none => .error (.unregisteredKind node.name kind.name)
    | some codec =>
      match node.format.size with
      | none => .ok (.leaf node kind codec)
      | some size =>
        if size = 0 then .error (.invalidFormat node.name .zeroSize)
        else if codec.fixedWidth.getD size.toNat = size.toNat then .ok (.leaf node kind codec)
        else
          .error (.invalidFormat node.name
            (.sizeContradicts size.toNat (codec.fixedWidth.getD 0) kind.name))

/-- Refuses hints that a single, required record cannot have. -/
def checkRecord (node : Node) : Except MappingError Unit :=
  if node.format.maxOccurs.isSome then .error (.invalidFormat node.name .occursOnSingle)
  else if node.format.size.isSome then .error (.invalidFormat node.name .sizeOnRecord)
  else .ok ()

/-- Refuses a hint that a list can have no items. -/
def checkRepeated (s : Schema) : Except MappingError Unit :=
  if s.node.format.maxOccurs = some 0 then .error (.invalidFormat s.name .zeroOccurs) else .ok ()

/-- The mapper of a required schema, given how to make that of a single item. -/
def makeRequired (makeItem : Schema → Making Mapper) (s : Schema) : Making (Kept Mapper) :=
  if s.node.isRepeated then
    keep s do
      checkRepeated s
      let element ← keep s.item (makeItem s.item)
      pure (.repeated s element.value)
  else keep s (makeItem s)

/-- The mapper of any schema, given how to make that of a single item. -/
def makeWrapped (makeItem : Schema → Making Mapper) (s : Schema) : Making (Kept Mapper) :=
  if s.node.optional then
    keep s do
      let inner ← makeRequired makeItem s.required
      pure (.optional s inner.value)
  else makeRequired makeItem s

mutual

def create (codecs : CodecTable) : Schema → Making (Kept Mapper)
  | .leaf node kind =>
    makeWrapped (fun view => codecs.makeLeaf view.node kind) (.leaf node kind)
  | .record node members =>
    makeWrapped
      (fun view => do
        checkRecord view.node
        let mappers ← createAll codecs members
        pure (.record view.node members mappers))
      (.record node members)

def createAll (codecs : CodecTable) : List Schema → Making (List Mapper)
  | [] => pure []
  | member :: rest => do
    let mapper ← create codecs member
    let mappers ← createAll codecs rest
    pure (mapper.value :: mappers)

end

end CodecTable

/-- A factory: its codecs, and the mappers it has made. -/
structure Factory where
  codecs : CodecTable := []
  mappers : Mappers := .empty

namespace Factory

def ofCodecs (codecs : CodecTable) : Factory := ⟨codecs, .empty⟩

def cached (f : Factory) : Nat := f.mappers.size

def create (f : Factory) (s : Schema) : Except MappingError (Kept Mapper) × Factory :=
  let (answer, mappers) := (f.codecs.create s).run.run f.mappers
  (answer, { f with mappers })

end Factory

end Slotform
