import ExtensionAudit.Text.Basic

/-!
# Package metadata

* `Metadata`: what a package says about itself. Only the headings of reports use it.
-/

namespace ExtensionAudit

/-- The labels of a package. -/
structure Metadata where
  name : Text := []
  version : Text := []
  publisher : Text := []
  description : Text := []
deriving DecidableEq

end ExtensionAudit
