/-!
# Paths

Paths are segments with slashes between them.  Empty segments and single dots do
not name anything.
-/

namespace Cinder.Path

def segments (path : String) : List String :=
  path.splitOn "/"

def isIdle (segment : String) : Bool :=
  segment == "" || segment == "."

/-- The segments in front of the last name of a path, and the name.  A path that
ends in two dots has none. -/
def fileName? (path : String) : Option (List String × String) :=
  match (segments path).reverse.dropWhile isIdle with
  | [] => none
  | name :: before => if name == ".." then none else some (before.reverse, name)

/-- A file name up to its last dot, and what follows the dot.  A dot in front of
everything else is part of the name. -/
def splitName (name : String) : String × String :=
  let reversed := name.toList.reverse
  match reversed.dropWhile (· ≠ '.') with
  | [] => (name, "")
  | [_] => (name, "")
  | _ :: before =>
    (String.ofList before.reverse, String.ofList (reversed.takeWhile (· ≠ '.')).reverse)

/-- What follows the last dot of the file name of a path, or nothing. -/
def extensionOf (path : String) : String :=
  (fileName? path).elim "" fun (_, name) => (splitName name).2

/-- Replaces what follows the last dot of the file name; an empty extension drops
the dot as well.  The path is cut behind that dot first: a name of two dots and an
extension then turns into the parent directory, which gets no extension. -/
def withExtension (path extension : String) : String :=
  let cut := String.ofList (path.toList.take (path.length - (extensionOf path).length))
  match fileName? cut with
  | none => cut
  | some (before, name) =>
    let stem := (splitName name).1
    let name := if extension = "" then stem else stem ++ "." ++ extension
    "/".intercalate (before ++ [name])

end Cinder.Path
