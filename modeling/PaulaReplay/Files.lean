/-
  Files - looking up and creating files by their path.

  A path is cut at its slashes.  An empty segment and a single full stop stay
  where they are, two full stops leave a directory upwards.

  * `segments` cuts a path;
  * `Node` is what may be found, a `Lookup` finds it, `Lookup.read` and
    `Lookup.map` get the bytes of a file;
  * `Directory` is a flat directory, `Spot` a place seen from it,
    `Directory.look` its look-up and `Directory.create` the making of a file.
-/
import PaulaReplay.Error

namespace PaulaReplay

/-! ## Paths -/

/-- The segments of a path, between its slashes. -/
def segments : List Char → List (List Char)
  | [] => [[]]
  | c :: rest =>
    if c = '/' then [] :: segments rest
    else match segments rest with
      | [] => [[c]]
      | s :: more => (c :: s) :: more

/-- Whether a segment stays where it is. -/
def isStill (s : List Char) : Bool := s.isEmpty || s == ['.']

/-- The segment that leaves a directory upwards. -/
def upwards : List Char := ['.', '.']

/-! ## Looking up -/

/-- What a path may lead to. -/
inductive Node where
  | file (bytes : ByteArray)
  | directory

/-- A way to find what a path leads to. -/
abbrev Lookup := String → Except FileError Node

namespace Lookup

/-- The bytes of a file. -/
def read (look : Lookup) (path : String) : Except FileError ByteArray :=
  match look path with
  | .ok (.file bytes) => .ok bytes
  | .ok .directory => .error .isDirectory
  | .error e => .error e

/-- The bytes of a file that is mapped into memory, which an empty one cannot
    be. -/
def map (look : Lookup) (path : String) : Except FileError ByteArray :=
  match look path with
  | .ok (.file bytes) => if bytes.size = 0 then .error .emptyMap else .ok bytes
  | .ok .directory => .error .noDevice
  | .error e => .error e

end Lookup

/-! ## A flat directory -/

/-- A directory of files. -/
structure Directory where
  files : List (String × ByteArray)

/-- Where a path has come to, seen from a directory. -/
inductive Spot where
  /-- The directory itself. -/
  | here
  /-- A directory outside of it, of which nothing is known. -/
  | outside
  /-- The root. -/
  | root
  /-- The directory of the devices. -/
  | devices
  /-- A name, with the bytes that are found there or why there are none, and
      the file of the directory that a file made there is, if it is one of
      it; `closed` where a slash follows the name. -/
  | entry (found : Except FileError ByteArray) (made? : Option String) (closed : Bool)
  /-- No place at all. -/
  | nowhere (e : FileError)

/-- The directories at every root, but for the one of the devices. -/
def rootDirectories : List String :=
  ["bin", "boot", "etc", "home", "lib", "media", "mnt", "opt", "root", "run", "sbin", "srv", "tmp",
    "usr", "var"]

/-- The most bytes that a name may have. -/
def maxNameSize : Nat := 255

/-- The most bytes that a path may have. -/
def maxPathSize : Nat := 4095

namespace Directory

/-- The place of a name with nothing behind it. -/
def absent (name : String) (made? : Option String) : Spot :=
  .entry (.error (if maxNameSize < name.utf8ByteSize then .nameTooLong else .notFound)) made? false

/-- The place of a name in the directory. -/
def entryOf (d : Directory) (name : String) : Spot :=
  match d.files.lookup name with
  | some bytes => .entry (.ok bytes) (some name) false
  | none => absent name (some name)

/-- The place one segment further. -/
def walk (d : Directory) (place : Spot) (s : List Char) : Spot :=
  let name := String.ofList s
  match place with
  | .here => if isStill s then .here else if s = upwards then .outside else d.entryOf name
  | .outside => if isStill s || s == upwards then .outside else absent name none
  | .root =>
    if isStill s || s == upwards then .root
    else if name = "dev" then .devices
    else if name ∈ rootDirectories then .outside
    else absent name none
  | .devices =>
    if isStill s then .devices
    else if s = upwards then .root
    else if name = "null" then .entry (.ok ByteArray.empty) none false
    else absent name none
  | .entry found made? _ =>
    if s.isEmpty then .entry found made? true
    else match found with
      | .ok _ => .nowhere .notDirectory
      | .error e => .nowhere e
  | .nowhere e => .nowhere e

/-- The place a path leads to; an empty path leads nowhere, and one that
    begins with a slash begins at the root. -/
def spot (d : Directory) (path : String) : Spot :=
  if '\x00' ∈ path.toList then .nowhere .innerZero
  else if maxPathSize < path.utf8ByteSize then .nowhere .nameTooLong
  else match path.toList with
    | [] => .nowhere .notFound
    | '/' :: rest => (segments rest).foldl d.walk .root
    | cs => (segments cs).foldl d.walk .here

/-- What a path leads to. -/
def look (d : Directory) : Lookup := fun path =>
  match d.spot path with
  | .here | .outside | .root | .devices => .ok .directory
  | .entry (.ok bytes) _ closed => if closed then .error .notDirectory else .ok (.file bytes)
  | .entry (.error e) _ _ => .error e
  | .nowhere e => .error e

/-- The name of the file that is made, or made anew, at a path: `none` for one
    outside of the directory. -/
def create (d : Directory) (path : String) : Except FileError (Option String) :=
  match d.spot path with
  | .here | .outside | .root | .devices => .error .isDirectory
  | .entry _ _ true => .error .isDirectory
  | .entry (.error .nameTooLong) _ false => .error .nameTooLong
  | .entry _ made? false => .ok made?
  | .nowhere e => .error e

end Directory

end PaulaReplay
