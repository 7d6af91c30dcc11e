import Slotform.Typed.Model

namespace Slotform.Typed.Samples

private def bool : Model := .primitive .bool
private def u8 : Model := .primitive .u8
private def u16 : Model := .primitive .u16
private def u32 : Model := .primitive .u32
private def s64 : Model := .primitive .s64
private def char : Model := .primitive .char
private def string : Model := .primitive .string
private def listOf (item : Model) : Model := .list item
private def optionOf (inner : Model) : Model := .option inner
private def type (id : String) : Model := .declared ⟨id⟩

private def plain (name : String) (model : Model) : Member :=
  ⟨name, model, .unset, none, .required⟩

private def emptyString : Datum := .atom (.string "")

private def record (id : String) (members : List Member) : Owner × Shape :=
  (⟨id⟩, .record id members)

def catalog : Catalog := [
  record "Person" [plain "name" string, plain "age" s64],
  record "Phone" [plain "number" string, plain "kind" char],
  (⟨"work::Phone"⟩, .record "Phone" [plain "area" u16, plain "digits" string]),
  record "Contact" [
    plain "name" string,
    plain "phones" (listOf (type "Phone")),
    plain "nickname" (optionOf string),
    plain "active" bool],
  record "Invoice" [
    ⟨"id", string, ⟨some 6, none, none⟩, none, .required⟩,
    ⟨"total", u32, ⟨some 8, none, some .left⟩, none, .required⟩,
    ⟨"lines", listOf u16, ⟨none, some 3, none⟩, none, .required⟩],
  (⟨"Gender"⟩, .enumeration none ["F", "M", "Other"]),
  (⟨"Weekday"⟩, .enumeration (some "weekday") ["Mon", "Tue", "Wed"]),
  record "Patient" [
    plain "name" string,
    plain "gender" (type "Gender"),
    ⟨"previous", optionOf (type "Gender"), ⟨some 1, none, none⟩, none, .required⟩,
    plain "seen" (listOf (type "Weekday"))],
  record "Account" [plain "id" u32, ⟨"secret", string, .unset, none, .defaulted emptyString⟩],
  record "Ledger" [
    plain "owner" string,
    plain "accounts" (listOf (type "Account")),
    ⟨"dirty", bool, .unset, none, .skipped (.atom (.bool false))⟩],
  record "Session" [plain "user" string, plain "token" string],
  (⟨"Client"⟩, .record "Customer" [
    ⟨"name", string, ⟨none, none, some .right⟩, none, .required⟩,
    plain "years" s64,
    ⟨"phones", optionOf (listOf (type "Phone")), ⟨none, some 3, none⟩, none, .required⟩,
    ⟨"born", optionOf (listOf string), .unset, some "date", .defaulted .absent⟩,
    ⟨"cache", listOf u8, .unset, none, .skipped (.list [])⟩,
    plain "type" u8]),
  record "Everything" [
    plain "b" bool,
    plain "u8" u8,
    plain "u16" u16,
    plain "u32" u32,
    plain "u64" (.primitive .u64),
    plain "s8" (.primitive .s8),
    plain "s16" (.primitive .s16),
    plain "s32" (.primitive .s32),
    plain "s64" s64,
    plain "f32" (.primitive .f32),
    plain "f64" (.primitive .f64),
    plain "c" char,
    plain "s" string],
  record "Node" [plain "label" string, plain "children" (listOf (type "Node"))],
  record "Odd" [plain "a b" u8],
  record "Hollow" [⟨"x", u8, .unset, none, .skipped (.atom (.u8 0))⟩],
  record "Grid" [plain "cells" (listOf (listOf u8))],
  record "Both" [plain "home" (type "Phone"), plain "work" (type "work::Phone")],
  record "Twice" [plain "first" (type "Phone"), plain "second" (optionOf (type "Phone"))]]

def after? (beginning text : List Char) : Option (List Char) :=
  if beginning.isPrefixOf text then some (text.drop beginning.length) else none

def bracketed? (word : String) (text : List Char) : Option (List Char) := do
  let rest ← after? (word.toList ++ ['<']) text
  if rest.getLast? = some '>' then some rest.dropLast else none

/-- The model of a written name, nested no deeper than the bound. -/
def modelWithin (catalog : Catalog) : Nat → List Char → Option Model
  | 0, _ => none
  | depth + 1, text =>
    match bracketed? "list" text, bracketed? "option" text with
    | some item, _ => (modelWithin catalog depth item).map .list
    | none, some inner => (modelWithin catalog depth inner).map .option
    | none, none =>
      let name := String.ofList text
      match Primitive.ofName? name with
      | some p => some (.primitive p)
      | none => (catalog.shape? ⟨name⟩).map fun _ => .declared ⟨name⟩

/-- The model of a written name. A box around a model is that model. -/
def model? (name : String) : Option Model :=
  let text := (after? "box:".toList name.toList).getD name.toList
  modelWithin catalog (text.length + 1) text

end Slotform.Typed.Samples
