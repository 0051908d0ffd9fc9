/-
  Companion - the sample file that belongs to a music file.

  Its name is made from the name of the music file: either what stands before
  the first full stop is replaced, or what stands after the last one.  The
  full stops are looked for in the name in lower case, and their byte offsets
  there are taken as offsets into the name itself.

  * `fileName?` cuts a path into the directory and the name;
  * `cutAt` cuts a name at a byte offset;
  * `companionNames` are the two names, `none` where the offsets fit no cut;
  * `openTune` reads a tune from a music file and the sample file beside it.
-/
import PaulaReplay.Files
import PaulaReplay.Text.LowerCase
import PaulaReplay.Tune.Loader

namespace PaulaReplay

/-! ## Paths -/

/-- The segments without those at their end that stay where they are. -/
def dropStill (segs : List (List Char)) : List (List Char) :=
  (segs.reverse.dropWhile isStill).reverse

/-- Segments joined by slashes. -/
def joined (segs : List (List Char)) : List Char := ['/'].intercalate segs

/-- The directory of a path and the name of its file: `none` where the path
    ends in no name.  The first segment tells whether the path begins at the
    root. -/
def fileName? (path : List Char) : Option (List Char × List Char) :=
  match segments path with
  | [] => none
  | head :: rest =>
    match (dropStill rest).reverse with
    | [] => if isStill head || head == upwards then none else some ([], head)
    | name :: before =>
      if name == upwards then none
      else
        let parent := head :: dropStill before.reverse
        some (if parent = [[]] then ['/'] else joined parent, name)

/-- A name in a directory; a name that begins at the root stands by itself. -/
def inDirectory (parent name : List Char) : List Char :=
  if name.head? = some '/' || parent.isEmpty then name
  else if parent.getLast? = some '/' then parent ++ name
  else parent ++ '/' :: name

/-! ## Names -/

/-- A name cut at a byte offset: `none` where the offset lies inside a
    character or past the end. -/
def cutAt : Nat → List Char → Option (List Char × List Char)
  | 0, cs => some ([], cs)
  | _ + 1, [] => none
  | n + 1, c :: rest =>
    if c.utf8Size ≤ n + 1 then
      (cutAt (n + 1 - c.utf8Size) rest).map fun (a, b) => (c :: a, b)
    else none

/-- What stands before the first full stop. -/
def beforeFirst (name : List Char) : List Char := name.takeWhile (· != '.')

/-- What stands before the last full stop. -/
def beforeLast (name : List Char) : List Char :=
  ((name.reverse.dropWhile (· != '.')).drop 1).reverse

/-- The names that the sample file of a music file may have, with an
    extension; none where the name of the music file has no full stop. -/
def companionNames (path ext : String) : Option (List String) :=
  match fileName? path.toList with
  | none => some []
  | some (parent, name) =>
    if '.' ∈ name then do
      let (_, tail) ← cutAt (LowerCase.offsetOf (beforeFirst name)) name
      let (head, _) ← cutAt (LowerCase.offsetOf (beforeLast name)) name
      return [String.ofList (inDirectory parent (ext.toList ++ tail)),
              String.ofList (inDirectory parent (head ++ '.' :: ext.toList))]
    else some []

/-! ## Opening -/

/-- The extensions of sample files. -/
def sampleExtensions : List String := ["smpl", "sam"]

/-- The names that the sample file of a music file may have, in the order in
    which they are tried. -/
def candidates (path : String) : Option (List String) :=
  (sampleExtensions.mapM (companionNames path)).map List.flatten

/-- The first of some files that can be read. -/
def firstFile (look : Lookup) : List String → Option ByteArray
  | [] => none
  | path :: rest => match look.read path with
    | .ok bytes => some bytes
    | .error _ => firstFile look rest

/-- The tune of the music file at a path, with the sample file beside it. -/
def openTune (look : Lookup) (path : String) : Except Error Tune :=
  match look.read path with
  | .error e => .error (.file e)
  | .ok bytes =>
    if isContainer bytes then load bytes none
    else match candidates path with
      | none => .error .nameCut
      | some names => load bytes (firstFile look names)

end PaulaReplay
