import Slotform.Registry

namespace Slotform

/-- What is wrong with a name. -/
inductive NameFault where
  | emptyName
  | nameCharacter
  | emptyKind
  | kindStart
  | kindCharacter
  | kindTaken
  deriving DecidableEq, Repr

def NameFault.message : NameFault → String
  | emptyName => "name is empty"
  | nameCharacter => "only ASCII letters, digits, '_' and '-' are allowed"
  | emptyKind => "kind name is empty"
  | kindStart => "kind name must start with a letter"
  | kindCharacter => "only ASCII letters, digits and '_' are allowed in a kind name"
  | kindTaken => "kind name shadows a built-in type"

/-- A fault in a declaration. -/
inductive IntrospectionError where
  | undefinedType (name : String)
  | opaqueMember (member : String)
  | noMembers (name : String)
  | duplicateMember (owner member : String)
  | missingElementType (member : String)
  | nestedCollection (member : String) (ty : Ty)
  | nullableElement (member : String) (ty : Ty)
  | doublyOptional (member : String) (ty : Ty)
  | invalidName (name : String) (fault : NameFault)
  | conflictingDefinition (conflict : NameConflict)
  | conflictingElementType (root element : Ty)
  | tooDeep (max : Nat)
  deriving DecidableEq, Repr

namespace IntrospectionError

private def ofMember (member : String) (fault : String) : String :=
  "Member `" ++ member ++ "` " ++ fault

def message : IntrospectionError → String
  | undefinedType name => "Undefined type `" ++ name ++ "`"
  | opaqueMember member => ofMember member "has the opaque type `value`"
  | noMembers name => "Type `" ++ name ++ "` has no members"
  | duplicateMember owner member => ofMember member ("of type `" ++ owner ++ "` is declared twice")
  | missingElementType member => ofMember member "is a list without an element type"
  | nestedCollection member ty => ofMember member ("is a nested collection: " ++ ty.display)
  | nullableElement member ty => ofMember member ("has optional list elements: " ++ ty.display)
  | doublyOptional member ty => ofMember member ("is optional twice: " ++ ty.display)
  | invalidName name fault => "Invalid name `" ++ name ++ "`: " ++ fault.message
  | conflictingDefinition conflict => "Conflicting definition: " ++ conflict.message
  | conflictingElementType root element =>
    "Element type `" ++ element.display ++ "` conflicts with root type `" ++ root.display ++ "`"
  | tooDeep max => "Type nesting exceeds the maximum depth of " ++ toString max

end IntrospectionError

/-- A chain of names in which each refers to the next and the last is the first. -/
structure Cycle where
  chain : List String
  deriving DecidableEq, Repr

def Cycle.message (c : Cycle) : String := "Cyclic type: " ++ " -> ".intercalate c.chain

/-- The cycle that meeting a visited name again closes. The visited names stand latest first. -/
def Cycle.closing (name : String) (visited : List String) : Cycle :=
  ⟨name :: (visited.takeWhile (· ≠ name)).reverse ++ [name]⟩

/-- Why a type could not be read. -/
inductive ReadError where
  | introspection (e : IntrospectionError)
  | cyclic (c : Cycle)
  deriving DecidableEq, Repr

def ReadError.message : ReadError → String
  | introspection e => e.message
  | cyclic c => c.message

def isAsciiAlphanumeric (c : Char) : Bool := c.isAlphanum

def isNameChar (c : Char) : Bool := isAsciiAlphanumeric c || c = '_' || c = '-'

def isKindChar (c : Char) : Bool := isAsciiAlphanumeric c || c = '_'

/-- The fault of a type or member name, if it has one. -/
def nameFault? (name : String) : Option NameFault :=
  if name.toList.isEmpty then some .emptyName
  else if name.toList.all isNameChar then none
  else some .nameCharacter

def kindFault? (kind : String) : Option NameFault :=
  match kind.toList with
  | [] => some .emptyKind
  | first :: rest =>
    if !first.isAlpha then some .kindStart
    else if !(first :: rest).all isKindChar then some .kindCharacter
    else if Kind.isBuiltinName kind || kind == "value" then some .kindTaken
    else none

def checkName (name : String) : Except IntrospectionError Unit :=
  match nameFault? name with
  | some fault => .error (.invalidName name fault)
  | none => .ok ()

def checkKind (kind : String) : Except IntrospectionError Unit :=
  match kindFault? kind with
  | some fault => .error (.invalidName kind fault)
  | none => .ok ()

end Slotform
