import ExtensionAudit.Package.Metadata
import ExtensionAudit.Report.Basic

/-!
# Blocks of the audit log

* `Report.header`: the first lines of a log;
* `Report.block`: the lines of one package.
-/

namespace ExtensionAudit.Report

/-- The line that ends the heading and each block. -/
def separator : Text := text "======================="

/-- The first lines of a log. -/
def header : Text := text "Extension Analysis Log\n" ++ separator ++ text "\n\n"

/-- The line of a group: its label and its count. -/
def groupLine (group : Text × Int) : Text :=
  group.1 ++ text " (x" ++ Text.ofInt group.2 ++ text ")"

/-- The block of a package. A section without entries has one empty line. -/
def block (m : Metadata) (r : Report) : Text :=
  text "\nExtension: " ++ m.name
    ++ text "\nVersion: " ++ m.version
    ++ text "\nPublisher: " ++ m.publisher
    ++ text "\nDescription: " ++ m.description
    ++ text "\nMalicious Code Detected: " ++ text (if r.isMalicious then "Yes" else "No")
    ++ text "\nDetails:\n" ++ Text.joinLines (r.grouped.map groupLine)
    ++ text "\nURLs Found:\n" ++ Text.joinLines r.uniqueUrls
    ++ text "\n" ++ separator ++ text "\n"

end ExtensionAudit.Report
