import ExtensionAudit.Text.Quoted
import ExtensionAudit.Text.Utf8
import ExtensionAudit.Files.Path

/-!
# Failures

* `SystemError`: why the file system refuses a request, with its number and wording;
* `Failure`: why an operation fails, with its wording; `Failure.isFileError`: is it about a file?
-/

namespace ExtensionAudit

/-- Why the file system refuses a request. -/
inductive SystemError where
  | noEntry
  | denied
  | exists
  | notDirectory
  | isDirectory
  | nameTooLong
  | tooManyLinks
deriving DecidableEq

namespace SystemError

def number : SystemError → Nat
  | .noEntry => 2
  | .denied => 13
  | .exists => 17
  | .notDirectory => 20
  | .isDirectory => 21
  | .nameTooLong => 36
  | .tooManyLinks => 40

def wording : SystemError → Text
  | .noEntry => text "No such file or directory"
  | .denied => text "Permission denied"
  | .exists => text "File exists"
  | .notDirectory => text "Not a directory"
  | .isDirectory => text "Is a directory"
  | .nameTooLong => text "File name too long"
  | .tooManyLinks => text "Too many levels of symbolic links"

end SystemError

/-- Why an operation fails. -/
inductive Failure where
  /-- The file system refused a request about a path. -/
  | system (error : SystemError) (path : Path)
  /-- The path leads to something that is no regular file. -/
  | notRegular (path : Path)
  /-- The file has more bytes than the limit allows. -/
  | tooLarge (limit : Int) (size : Nat)
  /-- The path holds the code point that ends paths. -/
  | nulInPath
  /-- The text to be written holds surrogates. -/
  | unencodable (run : Utf8.SurrogateRun)
  /-- The remote repository could not be fetched. -/
  | checkout (reason : Text)
  /-- Directories lie in each other deeper than calls can. -/
  | tooDeep
  /-- The time limit cannot be added to a reading of the clock. -/
  | limitTooGreat
  /-- An integer has more digits than may be written. -/
  | tooManyDigits (limit : Nat)
deriving DecidableEq

namespace Failure

/-- Is the failure about a file? Such a failure stops the work on that file or package alone. -/
def isFileError : Failure → Bool
  | .system _ _ => true
  | .notRegular _ => true
  | .tooLarge _ _ => true
  | _ => false

/-- The wording of a run of surrogates: one is shown, more are given by their positions. -/
def surrogatesMessage (s : Utf8.SurrogateRun) : Text :=
  let codec := text "'utf-8' codec can't encode character"
  let reason := text ": surrogates not allowed"
  match s.run with
  | [c] => codec ++ text " '\\u" ++ Text.hex 4 c.toNat ++ text "' in position " ++ Text.ofNat s.start ++ reason
  | run => codec ++ text "s in position " ++ Text.ofNat s.start ++ text "-"
      ++ Text.ofNat (s.start + run.length - 1) ++ reason

def message : Failure → Text
  | .system error path =>
    text "[Errno " ++ Text.ofNat error.number ++ text "] " ++ error.wording ++ text ": " ++ Text.quoted path
  | .notRegular path => text "Not a regular file: " ++ path
  | .tooLarge limit size =>
    text "File exceeds " ++ Text.ofInt limit ++ text " bytes (" ++ Text.ofNat size ++ text ")"
  | .nulInPath => text "embedded null byte"
  | .unencodable s => surrogatesMessage s
  | .checkout reason => text "Failed to clone repository: " ++ reason
  | .tooDeep => text "maximum recursion depth exceeded"
  | .limitTooGreat => text "int too large to convert to float"
  | .tooManyDigits limit =>
    text "Exceeds the limit (" ++ Text.ofNat limit ++ text " digits) for integer string conversion; "
      ++ text "use sys.set_int_max_str_digits() to increase the limit"

end Failure

end ExtensionAudit
