import ExtensionAudit.Text.Basic

/-!
# URLs

A URL is the part of a maximal run of URL characters from the first scheme in it on. Closing parentheses
at its end that have no partner in it belong to the text around it.

* `Detect.isUrlChar`, `Detect.isUrlStart`, `Detect.urlOfRun?`;
* `Detect.trimClosing`: a URL without the unmatched parentheses at its end;
* `Detect.urls`: the URLs of a content in order, repetitions included.
-/

namespace ExtensionAudit.Detect

/-- The characters other than ASCII letters and digits that may stand in a URL. -/
def urlPunctuation : Text := text "_/:%#$&?()~.=+-"

def isUrlChar (c : CodePoint) : Bool :=
  let n := c.toNat
  (0x30 ≤ n && n ≤ 0x39) || (0x41 ≤ n && n ≤ 0x5A) || (0x61 ≤ n && n ≤ 0x7A)
    || urlPunctuation.contains c

def schemes : List Text := [text "http://", text "https://"]

/-- Does a URL start here: a scheme and one URL character more? -/
def isUrlStart (t : Text) : Bool :=
  schemes.any fun s => t.startsWith s && (t.drop s.length).head?.any isUrlChar

/-- What a run of URL characters holds from its first URL start on. -/
def urlOfRun? : Text → Option Text
  | [] => none
  | c :: rest => if isUrlStart (c :: rest) then some (c :: rest) else urlOfRun? rest

/-- The maximal runs of URL characters, empty ones between two other characters included. -/
def urlRuns (content : Text) : List Text := content.splitOnP fun c => !isUrlChar c

def openParen : CodePoint := CodePoint.ofChar '('

def closeParen : CodePoint := CodePoint.ofChar ')'

/-- A reversed URL without the closing parentheses in front, as long as there are more closing ones than
opening ones. -/
def dropClosing (opening closing : Nat) : Text → Text
  | [] => []
  | c :: rest =>
    if c = closeParen ∧ opening < closing then dropClosing opening (closing - 1) rest else c :: rest

/-- A URL without the closing parentheses at its end that nothing in it opens. -/
def trimClosing (url : Text) : Text :=
  (dropClosing (url.count openParen) (url.count closeParen) url.reverse).reverse

def urls (content : Text) : List Text :=
  ((urlRuns content).filterMap urlOfRun?).map trimClosing

end ExtensionAudit.Detect
