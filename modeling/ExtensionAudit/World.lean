import ExtensionAudit.Clock
import ExtensionAudit.Settings

/-!
# The world

* `World`: all that a run reads and changes;
* `Checkout`: what fetching a remote repository brings;
* `World.note`: tell something.
-/

namespace ExtensionAudit

/-- What fetching a remote repository brings: entries, and the wording of the error that ends it, of whatever
kind that error is. -/
structure Checkout where
  plantings : List Planting
  failure : Option Text

/-- All that a run reads and changes. -/
structure World where
  files : FileSystem
  /-- The current directory. -/
  cwd : Location
  environment : Settings.Environment
  /-- How many levels of directories below its root a walk can go down. -/
  levels : Nat
  clock : Clock
  /-- The first time limit that is too great to be added to a reading of the clock, if there is one. -/
  horizon : Option Int
  /-- What the next fetches bring, by their number from zero on. -/
  remote : Nat → Checkout
  /-- The addresses that were fetched, with the depth asked for. -/
  fetched : List (Text × Int)
  /-- What was told so far. -/
  journal : List Notice

namespace World

def note (w : World) (n : Notice) : World := { w with journal := w.journal ++ [n] }

def noteAll (w : World) (ns : List Notice) : World := { w with journal := w.journal ++ ns }

@[simp]
theorem note_files (w : World) (n : Notice) : (w.note n).files = w.files := rfl

@[simp]
theorem noteAll_files (w : World) (ns : List Notice) : (w.noteAll ns).files = w.files := rfl

end World

end ExtensionAudit
