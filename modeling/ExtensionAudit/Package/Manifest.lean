import ExtensionAudit.Json.Display
import ExtensionAudit.Json.Reader
import ExtensionAudit.Notice
import ExtensionAudit.Package.Metadata
import ExtensionAudit.Text.Lines

/-!
# Manifests

A package describes itself in a manifest. A package without a usable one is known by its directory.

* `Manifest.read`: the value in the manifest of a package;
* `Metadata.ofMembers`: the labels that an object holds;
* `Manifest.load`: the labels of a package.
-/

namespace ExtensionAudit

/-- The labels that the members of an object hold. A missing label is empty. -/
def Metadata.ofMembers (members : Table Text Json) : Metadata :=
  let label (name : String) : Text := ((members.get? (text name)).map Json.label).getD []
  { name := label "name"
    version := label "version"
    publisher := label "publisher"
    description := label "description" }

namespace Manifest

/-- The name of a manifest. -/
def fileName : Text := text "package.json"

/-- Why a manifest has no value. -/
inductive Fault where
  | unreadable (failure : Failure)
  | notUtf8
  | notJson
deriving DecidableEq

/-- The wording of a fault. It does not go into what exactly is wrong with a text or a document. -/
def Fault.message : Fault → Text
  | .unreadable failure => failure.message
  | .notUtf8 => text "not a UTF-8 text"
  | .notJson => text "not a JSON document"

/-- The value that some bytes spell out. -/
def ofBytes (bytes : Bytes) : Except Fault Json :=
  match Utf8.decodeStrict bytes with
  | none => .error .notUtf8
  | some t =>
    match Json.parse (Text.unifyNewlines t) with
    | none => .error .notJson
    | some value => .ok value

/-- The value in a manifest. -/
def read (fs : FileSystem) (cwd : Location) (p : Path) : Except Fault Json :=
  match fs.read cwd p with
  | .error e => .error (.unreadable e)
  | .ok bytes => ofBytes bytes

/-- The labels of a package, and what is told about its manifest. A package without a manifest, or with an
unusable one, is named after its directory; so is one whose manifest gives it no name. -/
def load (fs : FileSystem) (cwd : Location) (directory : Path) : Metadata × List Notice :=
  let path := Path.join directory fileName
  let name := Path.lastComponent directory
  match read fs cwd path with
  | .error (.unreadable (.system .noEntry _)) => ({ name }, [])
  | .error fault => ({ name }, [.unreadableManifest path fault.message])
  | .ok (.object members) =>
    let m := Metadata.ofMembers members
    (if m.name = [] then { m with name } else m, [])
  | .ok _ => ({ name }, [.shapelessManifest path])

end Manifest

end ExtensionAudit
