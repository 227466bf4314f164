import ExtensionAudit.Text.Quoted
import ExtensionAudit.Json.Numeral

/-!
# Values as labels

A manifest may hold any value where a label is wanted. The label of a string is the string; any other
value is shown on one line, with the strings inside it quoted.

* `Json.shown`: a value inside another one;
* `Json.label`: a value by itself.
-/

namespace ExtensionAudit.Json

mutual

/-- A value inside another one. -/
def shown : Json → Text
  | .null => text "None"
  | .bool b => text (if b then "True" else "False")
  | .integer n => Text.ofInt n
  | .real r => realText "inf" "nan" r
  | .string s => Text.quoted s
  | .array items => CodePoint.ofChar '[' :: (text ", ").intercalate (shownItems items) ++ text "]"
  | .object members =>
    CodePoint.ofChar '{' :: (text ", ").intercalate (shownMembers members) ++ [CodePoint.ofChar '}']

/-- The items of an array. -/
def shownItems : List Json → List Text
  | [] => []
  | item :: items => shown item :: shownItems items

/-- The members of an object, each as its quoted name, a colon and its value. -/
def shownMembers : List (Text × Json) → List Text
  | [] => []
  | (name, value) :: members =>
    (Text.quoted name ++ text ": " ++ shown value) :: shownMembers members

end

/-- A value as a label. -/
def label : Json → Text
  | .string s => s
  | value => shown value

end ExtensionAudit.Json
