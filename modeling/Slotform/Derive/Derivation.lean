import Slotform.Derive.Setting

namespace Slotform.Derive

/-- A field with its settings taken in. -/
structure DerivedMember where
  field : String
  type : List Token
  name : String
  skip : Bool
  fallback : Bool
  format : Format
  kind : Option String

/-- A variant and the text written for it. -/
structure DerivedVariant where
  variant : String
  text : String
  deriving DecidableEq, Repr

inductive Derivation where
  | record (item : String) (typeName : String) (members : List DerivedMember)
  | leaf (item : String) (kind : Option String) (variants : List DerivedVariant)

/-- An identifier without the mark of raw ones. -/
def bareName (name : String) : String :=
  let rec strip : List Char → List Char
    | 'r' :: '#' :: rest => strip rest
    | text => text
  String.ofList (strip name.toList)

namespace DerivedMember

def ofField (field : SourceField) : Except DeriveError DerivedMember := do
  let settings ← Setting.ofAttributes .field field.attributes
  .ok {
    field := field.name
    type := field.type
    name := (Setting.last? settings Setting.rename?).getD (bareName field.name)
    skip := settings.contains .skip
    fallback := settings.contains .default
    format := ⟨Setting.last? settings Setting.size?, Setting.last? settings Setting.maxOccurs?,
      Setting.last? settings Setting.align?⟩
    kind := Setting.last? settings Setting.kind? }

end DerivedMember

namespace DerivedVariant

def textOf (variant : SourceVariant) : Except DeriveError String := do
  let settings ← Setting.ofAttributes .variant variant.attributes
  .ok ((Setting.last? settings Setting.rename?).getD (bareName variant.name))

/-- The variants in order, no two with the same text. -/
def ofVariants (taken : List String) :
    List SourceVariant → Except DeriveError (List DerivedVariant)
  | [] => .ok []
  | variant :: rest => do
    if !variant.isUnit then .error .variantWithFields
    else
      let text ← textOf variant
      if taken.contains text then .error (.repeatedVariant text)
      else
        let more ← ofVariants (text :: taken) rest
        .ok (⟨variant.name, text⟩ :: more)

end DerivedVariant

namespace Derivation

def ofVariants (item : String) (name kind : Option String) (variants : List SourceVariant) :
    Except DeriveError Derivation := do
  if name.isSome then .error .nameOnEnum
  else if variants.isEmpty then .error .noVariants
  else
    let variants ← DerivedVariant.ofVariants [] variants
    .ok (.leaf item kind variants)

def ofItem (item : Item) : Except DeriveError Derivation := do
  if item.hasParameters then .error .genericType
  else
    let settings ← Setting.ofAttributes .container item.attributes
    let name := Setting.last? settings Setting.name?
    let kind := Setting.last? settings Setting.kind?
    match item.body with
    | .named fields =>
      if kind.isSome then .error .kindOnStruct
      else
        let members ← fields.mapM DerivedMember.ofField
        .ok (.record item.name (name.getD item.name) members)
    | .unnamed => .error .unnamedFields
    | .enumeration variants => ofVariants item.name name kind variants
    | .union => .error .unionType

/-- The members that take part in values. -/
def kept (members : List DerivedMember) : List DerivedMember := members.filter fun m => !m.skip

/-- The texts that tell the alternatives of the derived conversion apart. -/
def armNames : Derivation → List String
  | record _ _ members => (kept members).map (·.name)
  | leaf _ _ variants => variants.map (·.text)

end Derivation

end Slotform.Derive
