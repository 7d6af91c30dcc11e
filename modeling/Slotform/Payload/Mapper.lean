import Slotform.Payload.Codec
import Slotform.Payload.Error
import Slotform.Payload.Layout
import Slotform.Schema.Basic

namespace Slotform

inductive Mapper where
  | leaf (node : Node) (kind : Kind) (codec : Codec)
  | record (node : Node) (declared : List Schema) (members : List Mapper)
  | repeated (view : Schema) (element : Mapper)
  | optional (view : Schema) (inner : Mapper)

namespace Mapper

def schema : Mapper → Schema
  | leaf node kind _ => .leaf node kind
  | record node declared _ => .record node declared
  | repeated view _ => view
  | optional view _ => view

def name (m : Mapper) : String := m.schema.name

/-- The width that every slot of a leaf has, given by its codec or else by a hint. -/
def leafWidth? (node : Node) (codec : Codec) : Option Nat :=
  codec.fixedWidth <|> node.format.size.map UInt32.toNat

/-- The number of slots that every list of a repeated member has, if a hint gives it. -/
def occurs? (view : Schema) : Option Nat := view.node.format.maxOccurs.map UInt32.toNat

/-- The side at which the text of a leaf stands, given by a hint or else by its codec. -/
def leafAlign (node : Node) (codec : Codec) : Align := node.format.align.getD codec.align

def codecError (node : Node) (kind : Kind) : CodecError → PayloadError
  | .unexpected expected got => .typeMismatch node.name expected got
  | .invalid text => .invalidLeaf node.name kind.name text

mutual

/-- The layout in which only what codecs and hints fix has a size. -/
def layout : Mapper → Layout
  | leaf node _ codec => .leaf ((leafWidth? node codec).getD 0)
  | record _ _ members => .record (layouts members)
  | repeated view element => .repeated ((occurs? view).getD 0) element.layout
  | optional _ inner => .optional inner.layout

def layouts : List Mapper → List Layout
  | [] => []
  | member :: rest => member.layout :: layouts rest

end

end Mapper

end Slotform
