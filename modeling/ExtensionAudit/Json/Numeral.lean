import ExtensionAudit.Decimal.Shortest
import ExtensionAudit.Json.Value

/-!
# The text of numbers

A number that is not an integer has the text of the binary64 number nearest to it.

* `Json.realLayout`: how numbers are laid out;
* `Json.realText`: the text of a number, with any names for infinity and for what is no number.
-/

namespace ExtensionAudit.Json

/-- Numbers from a ten-thousandth to below ten to the sixteenth are positional, others have an exponent
of two digits at least. -/
def realLayout : Decimal.Layout := ⟨-4, 16, 2⟩

/-- The text of a magnitude: the shortest decimal that reads back to it. -/
def magnitudeText (infinity : String) : Binary64.Magnitude → Text
  | .infinite => text infinity
  | .finite significand exponent =>
    if significand = 0 then text "0.0"
    else Decimal.layout realLayout (Decimal.shortest significand exponent)

/-- The text of a number. -/
def realText (infinity undefined : String) : Real → Text
  | .finite negative digits exponent =>
    text (if negative then "-" else "") ++ magnitudeText infinity (Binary64.ofDecimal digits exponent)
  | .infinite negative => text (if negative then "-" else "") ++ text infinity
  | .undefined => text undefined

end ExtensionAudit.Json
