import Slotform.Typed.Model
import Slotform.Value.Basic

/-!
Conversions between data and values. A record becomes a record value of its members that are not
skipped, and an enumeration the name of its variant. On the way back the entries of a record may
stand in any order; the last of several entries under one name counts.
-/

namespace Slotform.Typed

/-- Why a value is not one of a model. -/
inductive ConversionError where
  | typeMismatch (expected : String) (got : Value)
  | missingField (name : String)
  | unknownField (name : String)
  | unknownVariant (name : String)
  | fieldError (name : String) (inner : ConversionError)
  | indexError (index : Nat) (inner : ConversionError)
  | expectedRecord (got : Value)
  | expectedList (got : Value)
  | expectedOption (got : Value)

def ConversionError.message : ConversionError → String
  | typeMismatch expected got => "type mismatch: expected " ++ expected ++ ", got " ++ got.inspected
  | missingField name => "missing field `" ++ name ++ "`"
  | unknownField name => "unknown field `" ++ name ++ "`"
  | unknownVariant name => "unknown variant `" ++ name ++ "`"
  | fieldError name inner => "field `" ++ name ++ "`: " ++ inner.message
  | indexError index inner => "item " ++ toString index ++ ": " ++ inner.message
  | expectedRecord got => "expected record, got " ++ got.inspected
  | expectedList got => "expected list, got " ++ got.inspected
  | expectedOption got => "expected option, got " ++ got.inspected

def expectedName : Primitive → String
  | .s8 => "i8"
  | .s16 => "i16"
  | .s32 => "i32"
  | .s64 => "i64"
  | .string => "String"
  | p => p.name

namespace Catalog

mutual

def toValue (catalog : Catalog) : Model → Datum → Value
  | .list item, .list items => .list (toValues catalog item items)
  | .option _, .absent => .absent
  | .option inner, .present datum => .present (toValue catalog inner datum)
  | .declared owner, .record fields =>
    match catalog.shape? owner with
    | some (.record _ members) => .record (toEntries catalog members fields)
    | _ => .record []
  | .declared owner, .variant index =>
    match catalog.shape? owner with
    | some (.enumeration _ variants) => .atom (.string (variants.getD index ""))
    | _ => .atom (.string "")
  | _, .atom a => .atom a
  | _, _ => .record []

def toValues (catalog : Catalog) (item : Model) : List Datum → List Value
  | [] => []
  | datum :: rest => toValue catalog item datum :: toValues catalog item rest

def toEntries (catalog : Catalog) : List Member → List Datum → List (String × Value)
  | m :: members, datum :: rest =>
    if m.isSkipped then toEntries catalog members rest
    else (m.name, toValue catalog m.model datum) :: toEntries catalog members rest
  | _, _ => []

end

/-- The first name of an entry that no member has. -/
def unknown? (names : List String) (entries : List (String × Value)) : Option String :=
  (entries.map (·.1)).find? fun name => !names.contains name

/-- The members that take part in values. -/
def kept (members : List Member) : List Member := members.filter fun m => !m.isSkipped

/-- The data of the members in order, from what the entries were converted to. Entries belong to
the first member of their name; a later one of the same name finds none. -/
def collect (converted : List (String × Except ConversionError Datum)) (earlier : List String) :
    List Member → Except ConversionError (List Datum)
  | [] => .ok []
  | m :: rest => do
    let found := if earlier.contains m.name then none else converted.reverse.lookup m.name
    let datum ← match m.presence, found with
      | .skipped fallback, _ => .ok fallback
      | _, some (.ok datum) => .ok datum
      | _, some (.error e) => .error (.fieldError m.name e)
      | .defaulted fallback, none => .ok fallback
      | .required, none => .error (.missingField m.name)
    let data ← collect converted (if m.isSkipped then earlier else m.name :: earlier) rest
    .ok (datum :: data)

/-- The model of the member that entries under a name belong to. -/
def memberModel? (members : List Member) (name : String) : Option Model :=
  ((kept members).find? (·.name == name)).map (·.model)

mutual

def ofValue (catalog : Catalog) : Model → Value → Except ConversionError Datum
  | .primitive p, .atom a =>
    if a.primitive = p then .ok (.atom a) else .error (.typeMismatch (expectedName p) (.atom a))
  | .primitive p, other => .error (.typeMismatch (expectedName p) other)
  | .list item, .list items => (ofItems catalog item 0 items).map .list
  | .list _, other => .error (.expectedList other)
  | .option _, .absent => .ok .absent
  | .option inner, .present value => (ofValue catalog inner value).map .present
  | .option _, other => .error (.expectedOption other)
  | .declared owner, value =>
    match catalog.shape? owner, value with
    | some (.record _ members), .record entries =>
      match unknown? ((kept members).map (·.name)) entries with
      | some name => .error (.unknownField name)
      | none => (collect (ofEntries catalog members entries) [] members).map .record
    | some (.record ..), other => .error (.expectedRecord other)
    | some (.enumeration _ variants), .atom (.string name) =>
      match variants.findIdx? (· == name) with
      | some index => .ok (.variant index)
      | none => .error (.unknownVariant name)
    | some (.enumeration ..), other => .error (.typeMismatch "string" other)
    | none, other => .error (.expectedRecord other)

/-- The data of list items, up to the first that is refused. -/
def ofItems (catalog : Catalog) (item : Model) (index : Nat) :
    List Value → Except ConversionError (List Datum)
  | [] => .ok []
  | value :: rest => do
    let datum ← (ofValue catalog item value).mapError (.indexError index)
    let data ← ofItems catalog item (index + 1) rest
    .ok (datum :: data)

/-- What each entry converts to under the member of its name. -/
def ofEntries (catalog : Catalog) (members : List Member) :
    List (String × Value) → List (String × Except ConversionError Datum)
  | [] => []
  | (name, value) :: rest =>
    match memberModel? members name with
    | some model => (name, ofValue catalog model value) :: ofEntries catalog members rest
    | none => ofEntries catalog members rest

end

end Catalog

end Slotform.Typed
