import ExtensionAudit.Files.Lookup

/-!
# Real paths

The real path of a path is what is left when each link on its way is replaced by its target. It is made by asking
the file system for one name after the other, so it is no better than the answers: what cannot be examined is taken
for no link.

* `FileSystem.readLink?`: the target of a link;
* `FileSystem.realPath`: the real path of an absolute path.
-/

namespace ExtensionAudit.FileSystem

/-- The target of the link at the end of a path. What cannot be examined, a path that is too long say, is no link. -/
def readLink? (fs : FileSystem) (p : Path) : Option Path :=
  match fs.resolve .name [] p with
  | .ok (.entry loc) =>
    match fs.node? loc with
    | some (.link target) => some target
    | _ => none
  | _ => none

/-- Follow steps from the directory with the given names, of which the last one stands first. `jump` goes on from a
directory with the steps of a link's target and those that were left. -/
def resolveNames (fs : FileSystem) (jump : List Text → List Step → List Text) : List Text → List Step → List Text
  | names, [] => names
  | names, .stay :: rest => resolveNames fs jump names rest
  | names, .up :: rest => resolveNames fs jump names.tail rest
  | names, .down t :: rest =>
    match fs.readLink? (Path.ofNames (t :: names).reverse) with
    | none => resolveNames fs jump (t :: names) rest
    | some target =>
      let route := Route.ofPath target
      jump (if route.absolute then [] else names) (route.steps ++ rest)

/-- Follow steps through at most `links` links. -/
def resolveLinks (fs : FileSystem) : Nat → List Text → List Step → List Text
  | 0 => resolveNames fs fun names _ => names
  | links + 1 => resolveNames fs (resolveLinks fs links)

/-- The real path of an absolute path that goes through no more links than a lookup follows. -/
def realPath (fs : FileSystem) (p : Path) : Path :=
  Path.ofNames (fs.resolveLinks maxLinks [] (Route.ofPath p).steps).reverse

end ExtensionAudit.FileSystem
