import Slotform.Text.Quoted
import Slotform.Value.Basic

namespace Slotform

inductive HeaderFault where
  | expectedChar (expected : Char) (found : Option Char)
  | expectedNumber
  | numberTooLarge (digits : List Char)
  | expectedItem
  | expectedMember
  | repeatedMember (name : String)
  deriving DecidableEq, Repr

def HeaderFault.message : HeaderFault → String
  | expectedChar expected (some found) =>
    "expected '" ++ expected.toString ++ "', found '" ++ found.toString ++ "'"
  | expectedChar expected none => "expected '" ++ expected.toString ++ "', found end of input"
  | expectedNumber => "expected a number"
  | numberTooLarge digits => "number " ++ String.ofList digits ++ " is too large"
  | expectedItem => "expected a leaf kind or '\x7b'"
  | expectedMember => "expected a member name"
  | repeatedMember name => "member `" ++ name ++ "` appears twice"

/-- Where a header departs from the schema. -/
inductive HeaderMismatch where
  | kind (owner label : String) (found : List Char)
  | width (label : String) (fixed found : Nat)
  | member (name : String) (found : List Char)
  | occurs (owner : String) (fixed found : Nat)
  deriving DecidableEq, Repr

def HeaderMismatch.expected : HeaderMismatch → String
  | kind owner label _ => owner ++ " of kind " ++ label
  | width label fixed _ => label ++ "(" ++ toString fixed ++ ")"
  | member name _ => "member " ++ name
  | occurs owner fixed _ => owner ++ " with [" ++ toString fixed ++ "]"

def HeaderMismatch.found : HeaderMismatch → String
  | kind _ _ found => String.ofList found
  | width label _ found => label ++ "(" ++ toString found ++ ")"
  | member _ found => "member " ++ String.ofList found
  | occurs _ _ found => "[" ++ toString found ++ "]"

inductive SlotFault where
  | invalidCount (text : List Char)
  | countExceeds (count occurs : Nat)
  | invalidFlag (found : Char)
  | expectedPadding
  deriving DecidableEq, Repr

def SlotFault.message : SlotFault → String
  | invalidCount text => "invalid occurrence count " ++ String.ofList (Text.quoted text)
  | countExceeds count occurs =>
    "occurrence count " ++ toString count ++ " exceeds " ++ toString occurs ++ " slots"
  | invalidFlag found => "expected presence flag, found " ++ String.ofList (Text.quotedChar found)
  | expectedPadding => "expected padding"

/-- A quantity that limits bound. -/
inductive Quantity where
  | payloadLength | leafWidth | occurrences | nestingDepth
  deriving DecidableEq, Repr

def Quantity.name : Quantity → String
  | payloadLength => "payload length"
  | leafWidth => "leaf width"
  | occurrences => "occurrences"
  | nestingDepth => "nesting depth"

/-- Every constructor but the last is an error that the caller is handed. At `wordOverflow` no error
is returned: a product of word-sized numbers is no word, and the program stops there. -/
inductive PayloadError where
  | typeMismatch (member expected got : String)
  | missingField (record field : String)
  | unknownField (record field : String)
  | duplicateField (record field : String)
  | overflow (member : String) (needed available : Nat)
  | malformedHeader (position : Nat) (fault : HeaderFault)
  | headerMismatch (mismatch : HeaderMismatch)
  | malformedPayload (position : Nat) (fault : SlotFault)
  | invalidLeaf (member kind : String) (text : List Char)
  | layoutMismatch (member : String)
  | limitExceeded (quantity : Quantity) (value max : Nat)
  | unexpectedEnd (position : Nat)
  | trailingInput (remaining : Nat)
  | wordOverflow (a b : Nat)
  deriving DecidableEq, Repr

def PayloadError.message : PayloadError → String
  | typeMismatch member expected got =>
    "Type mismatch at `" ++ member ++ "`: expected " ++ expected ++ ", got " ++ got
  | missingField record field => "Record `" ++ record ++ "` is missing field `" ++ field ++ "`"
  | unknownField record field => "Record `" ++ record ++ "` has unknown field `" ++ field ++ "`"
  | duplicateField record field =>
    "Record `" ++ record ++ "` has field `" ++ field ++ "` more than once"
  | overflow member needed available =>
    "Member `" ++ member ++ "` needs " ++ toString needed ++ " but only " ++ toString available ++
      " fit"
  | malformedHeader position fault =>
    "Malformed header at " ++ toString position ++ ": " ++ fault.message
  | headerMismatch mismatch =>
    "Header does not match metaclass: expected " ++ mismatch.expected ++ ", found " ++
      mismatch.found
  | malformedPayload position fault =>
    "Malformed payload at " ++ toString position ++ ": " ++ fault.message
  | invalidLeaf member kind text =>
    "Invalid " ++ kind ++ " text " ++ String.ofList (Text.quoted text) ++ " at `" ++ member ++ "`"
  | layoutMismatch member => "Layout does not fit member `" ++ member ++ "`"
  | limitExceeded quantity value max =>
    "Limit exceeded: " ++ quantity.name ++ " is " ++ toString value ++ ", max " ++ toString max
  | unexpectedEnd position => "Payload ends early at " ++ toString position
  | trailingInput remaining => toString remaining ++ " trailing characters after payload"
  | wordOverflow _ _ => "attempt to multiply with overflow"

end Slotform
