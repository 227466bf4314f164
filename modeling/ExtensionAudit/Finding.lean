import ExtensionAudit.Text.Basic

/-!
# Findings

* `Finding`: a suspicious call in a file;
* `Finding.groupKey`: the label under which equal calls are counted.
-/

namespace ExtensionAudit

/-- The kind of every finding of the exec detector. -/
def execKind : Text := text "potentially dangerous exec usage"

/-- A suspicious call: the file, the line (counted from one), the argument and the kind. -/
structure Finding where
  path : Text
  line : Int
  code : Text
  kind : Text
deriving DecidableEq

/-- The label under which findings with the same code and kind are counted. -/
def Finding.groupKey (f : Finding) : Text := f.code ++ text " (" ++ f.kind ++ text ")"

end ExtensionAudit
