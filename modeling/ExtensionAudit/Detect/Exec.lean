import ExtensionAudit.Denylist
import ExtensionAudit.Finding
import ExtensionAudit.Text.Lines

/-!
# Exec calls

Only the first complete call of a line counts, whatever its argument is.

* `Detect.argument?`: the argument of the first call on a line;
* `Detect.execFindings`: the lines whose argument holds a command of the denylist.
-/

namespace ExtensionAudit.Detect

def callOpening : Text := text "exec("

def callClosing : CodePoint := CodePoint.ofChar ')'

/-- The argument of the first call on a line: what stands between the first opening and the first
closing parenthesis after it. -/
def argument? (line : Text) : Option Text :=
  match Text.after? callOpening line with
  | none => none
  | some rest => if callClosing ∈ rest then some (rest.takeWhile (· != callClosing)) else none

/-- The finding of a line, if its first call is suspicious. The path is filled in by whoever knows it. -/
def lineFinding? (d : Denylist) (line : Text) (number : Nat) : Option Finding :=
  match argument? line with
  | none => none
  | some code => if d.isHitBy code then some ⟨[], number, code, execKind⟩ else none

def execFindings (d : Denylist) (content : Text) : List Finding :=
  ((Text.lines content).zipIdx 1).filterMap fun (line, number) => lineFinding? d line number

end ExtensionAudit.Detect
