import Cinder.CommandLine.Path

/-!
# Files

A working directory with files in it, and how paths are looked up there.
Directories are known by the files they hold; of what lies outside of the working
directory nothing is known.
-/

namespace Cinder

inductive FileError where
  | notFound
  | notADirectory
  | isADirectory
  | notText
  | nulInPath
  | nameTooLong
deriving DecidableEq, Repr

namespace FileError

def message : FileError → String
  | notFound => "No such file or directory (os error 2)"
  | notADirectory => "Not a directory (os error 20)"
  | isADirectory => "Is a directory (os error 21)"
  | notText => "stream did not contain valid UTF-8"
  | nulInPath => "file name contained an unexpected NUL byte"
  | nameTooLong => "File name too long (os error 36)"

end FileError

/-- Files by the segments of their paths.  Of two files with one path the first one
counts. -/
structure Directory where
  files : List (List String × ByteArray) := []

inductive Spot where
  /-- A directory inside of the working directory. -/
  | inside (segments : List String)
  | outside
  | file (contents : ByteArray)

namespace Directory

def file? (dir : Directory) (segments : List String) : Option ByteArray :=
  dir.files.lookup segments

/-- Puts a file into a directory.  It hides a file with the same path. -/
def put (dir : Directory) (segments : List String) (contents : ByteArray) : Directory :=
  ⟨(segments, contents) :: dir.files⟩

/-- The directory with some files, which are put there in order.  A path can be
spelled in several ways: of two files with one path the later one stays. -/
def ofFiles (files : List (String × ByteArray)) : Directory :=
  files.foldl (fun dir (path, contents) =>
    dir.put ((Path.segments path).filter (!Path.isIdle ·)) contents) {}

/-- Follows a segment of a path.  A name has at most 255 bytes. -/
def step (dir : Directory) (spot : Spot) (segment : String) : Except FileError Spot :=
  match spot with
  | .file _ => .error .notADirectory
  | .outside =>
    if Path.isIdle segment || segment == ".." then .ok .outside
    else if segment.utf8ByteSize > 255 then .error .nameTooLong
    else .error .notFound
  | .inside segments =>
    if Path.isIdle segment then .ok spot
    else if segment.utf8ByteSize > 255 then .error .nameTooLong
    else if segment == ".." then
      .ok (if segments.isEmpty then .outside else .inside segments.dropLast)
    else
      let segments := segments ++ [segment]
      match dir.file? segments with
      | some contents => .ok (.file contents)
      | none =>
        if dir.files.any fun (path, _) => segments.isPrefixOf path then .ok (.inside segments)
        else .error .notFound

def start (path : String) : Spot :=
  if path.startsWith "/" then .outside else .inside []

/-- Requires that a path can be looked up at all.  It has at most 4095 bytes. -/
def requirePath (path : String) : Except FileError Unit := do
  if path.contains '\x00' then throw .nulInPath
  if path.utf8ByteSize > 4095 then throw .nameTooLong

def read (dir : Directory) (path : String) : Except FileError ByteArray := do
  requirePath path
  match ← (Path.segments path).foldlM dir.step (start path) with
  | .file contents => return contents
  | _ => throw .isADirectory

def readText (dir : Directory) (path : String) : Except FileError String := do
  match String.fromUTF8? (← dir.read path) with
  | some text => return text
  | none => throw .notText

/-- Requires that a file can be written.  The directory it is in has to exist, and
neither a directory nor a path that ends in a slash or in dots is a file. -/
def requireWritable (dir : Directory) (path : String) : Except FileError Unit := do
  requirePath path
  let reversed := (Path.segments path).reverse
  match reversed.dropWhile (· == "") with
  | [] => throw .isADirectory
  | last :: before =>
    let parent ← before.reverse.foldlM dir.step (start path)
    if let .file _ := parent then throw .notADirectory
    if last == "." || last == ".." || reversed.head? == some "" then throw .isADirectory
    match dir.step parent last with
    | .ok (.inside _) | .ok .outside => throw .isADirectory
    | .error .nameTooLong => throw .nameTooLong
    | _ => return

end Directory

end Cinder
