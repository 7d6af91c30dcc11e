import Slotform.Payload.Mapper

namespace Slotform

/-- Whether a value fits, and the layout as far as it was grown. -/
abbrev Measured := Except PayloadError Unit × Layout

namespace Mapper

/-- Checks the entries of a record in order: each must be a member or a skipped field, and none
may occur again. -/
def checkEntries (node : Node) (declared : List Schema) (earlier : List String) :
    List (String × Value) → Except PayloadError Unit
  | [] => .ok ()
  | (name, _) :: rest =>
    if !declared.any (·.name == name) && !node.skipped.contains name then
      .error (.unknownField node.name name)
    else if earlier.contains name then .error (.duplicateField node.name name)
    else checkEntries node declared (name :: earlier) rest

/-- The values of the named members, in their order. -/
def memberValues (node : Node) (entries : List (String × Value)) :
    List String → Except PayloadError (List Value)
  | [] => .ok []
  | name :: rest =>
    match entries.lookup name with
    | none => .error (.missingField node.name name)
    | some value => (memberValues node entries rest).map (value :: ·)

def recordValues (node : Node) (declared : List Schema) (names : List String) :
    Value → Except PayloadError (List Value)
  | .record entries => do
    checkEntries node declared [] entries
    memberValues node entries names
  | other => .error (.typeMismatch node.name "record" other.kindName)

def listItems (view : Schema) : Value → Except PayloadError (List Value)
  | .list items => .ok items
  | other => .error (.typeMismatch view.name "list" other.kindName)

def renderLeaf (node : Node) (kind : Kind) (codec : Codec) (value : Value) :
    Except PayloadError (List Char) :=
  (codec.render value).mapError (codecError node kind)

/-- Measures values one after the other against one layout, up to the first that does not fit. -/
def measureEach (measure : Value → Layout → Measured) : List Value → Layout → Measured
  | [], layout => (.ok (), layout)
  | value :: rest, layout =>
    match measure value layout with
    | (.ok (), grown) => measureEach measure rest grown
    | failed => failed

mutual

/-- Grows a layout so that a value fits. -/
def measure : Mapper → Value → Layout → Measured
  | leaf node kind codec, value, layout =>
    match renderLeaf node kind codec value with
    | .error e => (.error e, layout)
    | .ok text =>
      match layout with
      | .leaf width =>
        match leafWidth? node codec with
        | some fixed =>
          if fixed < text.length then (.error (.overflow node.name text.length fixed), layout)
          else (.ok (), layout)
        | none => (.ok (), .leaf (max width text.length))
      | _ => (.error (.layoutMismatch node.name), layout)
  | record node declared members, value, layout =>
    match recordValues node declared (members.map name) value with
    | .error e => (.error e, layout)
    | .ok values =>
      match layout with
      | .record slots =>
        if slots.length = members.length then
          let (outcome, grown) := measureMembers members values slots
          (outcome, .record grown)
        else (.error (.layoutMismatch node.name), layout)
      | _ => (.error (.layoutMismatch node.name), layout)
  | repeated view element, value, layout =>
    match listItems view value with
    | .error e => (.error e, layout)
    | .ok items =>
      match layout with
      | .repeated occurs slot =>
        let grow (occurs : Nat) : Measured :=
          let (outcome, grown) := measureEach (fun v l => element.measure v l) items slot
          (outcome, .repeated occurs grown)
        match occurs? view with
        | some fixed =>
          if fixed < items.length then
            (.error (.overflow view.name items.length fixed), layout)
          else grow occurs
        | none => grow (max occurs items.length)
      | _ => (.error (.layoutMismatch view.name), layout)
  | optional view inner, value, layout =>
    match layout with
    | .optional slot =>
      match value with
      | .absent => (.ok (), layout)
      | .present value =>
        let (outcome, grown) := inner.measure value slot
        (outcome, .optional grown)
      | other => (.error (.typeMismatch view.name "option" other.kindName), layout)
    | _ => (.error (.layoutMismatch view.name), layout)

/-- Measures members against their slots in order, up to the first that does not fit. -/
def measureMembers : List Mapper → List Value → List Layout →
    Except PayloadError Unit × List Layout
  | member :: members, value :: values, slot :: slots =>
    match member.measure value slot with
    | (.ok (), grown) =>
      let (outcome, rest) := measureMembers members values slots
      (outcome, grown :: rest)
    | (.error e, grown) => (.error e, grown :: slots)
  | _, _, slots => (.ok (), slots)

end

mutual

def writeHeader : Mapper → Layout → Except PayloadError (List Char)
  | leaf node kind _, layout =>
    match layout with
    | .leaf width => .ok (kind.name.toList ++ '(' :: Decimal.digits width ++ [')'])
    | _ => .error (.layoutMismatch node.name)
  | record node _ members, layout =>
    match layout with
    | .record slots =>
      if slots.length = members.length then
        (writeMemberHeaders members slots).map fun text => '\x7b' :: text ++ ['\x7d']
      else .error (.layoutMismatch node.name)
    | _ => .error (.layoutMismatch node.name)
  | repeated view element, layout =>
    match layout with
    | .repeated occurs slot =>
      (element.writeHeader slot).map fun text => text ++ '[' :: Decimal.digits occurs ++ [']']
    | _ => .error (.layoutMismatch view.name)
  | optional view inner, layout =>
    match layout with
    | .optional slot => (inner.writeHeader slot).map fun text => text ++ ['?']
    | _ => .error (.layoutMismatch view.name)

/-- The headers of members after their names, with semicolons between them. -/
def writeMemberHeaders : List Mapper → List Layout → Except PayloadError (List Char)
  | member :: members, slot :: slots => do
    let text ← member.writeHeader slot
    let rest ← writeMemberHeaders members slots
    let named := member.name.toList ++ ':' :: text
    .ok (if members.isEmpty then named else named ++ ';' :: rest)
  | _, _ => .ok []

end

mutual

def write : Mapper → Value → Layout → Except PayloadError (List Char)
  | leaf node kind codec, value, layout =>
    match layout with
    | .leaf width => do
      let text ← renderLeaf node kind codec value
      if width < text.length then .error (.overflow node.name text.length width)
      else .ok (Slot.fill (leafAlign node codec) width text)
    | _ => .error (.layoutMismatch node.name)
  | record node declared members, value, layout => do
    let values ← recordValues node declared (members.map name) value
    match layout with
    | .record slots =>
      if slots.length = members.length then writeMembers members values slots
      else .error (.layoutMismatch node.name)
    | _ => .error (.layoutMismatch node.name)
  | repeated view element, value, layout => do
    let items ← listItems view value
    match layout with
    | .repeated occurs slot =>
      if occurs < items.length then .error (.overflow view.name items.length occurs)
      else
        let texts ← items.mapM fun item => element.write item slot
        let unused ← slot.blankWidth (occurs - items.length)
        .ok (Decimal.padded (Decimal.digitCount occurs) items.length ++ texts.flatten ++
          Slot.blanks unused)
    | _ => .error (.layoutMismatch view.name)
  | optional view inner, value, layout =>
    match layout with
    | .optional slot =>
      match value with
      | .absent => .ok ('0' :: Slot.blanks slot.width)
      | .present value => (inner.write value slot).map ('1' :: ·)
      | other => .error (.typeMismatch view.name "option" other.kindName)
    | _ => .error (.layoutMismatch view.name)

def writeMembers : List Mapper → List Value → List Layout → Except PayloadError (List Char)
  | member :: members, value :: values, slot :: slots => do
    let text ← member.write value slot
    let rest ← writeMembers members values slots
    .ok (text ++ rest)
  | _, _, _ => .ok []

end

def encode (m : Mapper) (value : Value) : Except PayloadError (List Char) := do
  let (outcome, layout) := m.measure value m.layout
  outcome
  let header ← m.writeHeader layout
  let slots ← m.write value layout
  .ok (header ++ slots)

end Mapper

end Slotform
