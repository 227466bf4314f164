import ExtensionAudit.Text.Basic

/-!
# Usage

* `CommandLine.usage`: the two lines that show the options;
* `CommandLine.help`: the answer to a request for help;
* `CommandLine.complaint`: the answer to arguments that are refused.
-/

namespace ExtensionAudit.CommandLine

def programName : Text := text "extension-auditor"

/-- The lines that show the options. -/
def usage : Text :=
  text "usage: " ++ programName ++ text (" [-h] [--extensions-dir EXTENSIONS_DIR] [--path PATH]\n"
    ++ "                         [--log LOG] [--sarif FILE] [--verbose]\n")

/-- What the program is for, and what each option does. -/
def explanation : Text := text ("
Installed extension auditor

options:
  -h, --help            show this help message and exit
  --extensions-dir EXTENSIONS_DIR
                        Directory holding the installed extensions (default:
                        ~/.vscode/extensions)
  --path PATH           Scan only this extension directory or git URL (https)
  --log LOG             Analysis log file, reset on every run (default:
                        ~/Documents/ExtensionAuditor/analysis.log)
  --sarif FILE          Also export findings in SARIF format (compatible with
                        GitHub, JetBrains IDEs, VS Code)
  --verbose             Enable verbose output
")

/-- An example: what it is for, and the arguments. -/
structure Example where
  purpose : String
  arguments : String

def examples : List Example := [
  ⟨"Scan every installed VS Code extension", ""⟩,
  ⟨"Scan a single extension directory",
    " --path ~/.vscode/extensions/publisher.some-extension-1.0.0"⟩,
  ⟨"Scan the source of an extension before installing it",
    " --path https://github.com/user/extension.git --sarif results.sarif"⟩]

def Example.lines (e : Example) : Text :=
  text "            #" ++ text e.purpose ++ text "\n            " ++ programName ++ text e.arguments
    ++ text "\n"

/-- The answer to a request for help. -/
def help : Text :=
  usage ++ explanation ++ text "\n        Examples:\n" ++ examples.flatMap Example.lines
    ++ text "        \n"

/-- The answer to arguments that are refused. -/
def complaint (message : Text) : Text :=
  usage ++ programName ++ text ": error: " ++ message ++ text "\n"

end ExtensionAudit.CommandLine
