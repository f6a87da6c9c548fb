/-
  A disk: files and directories in one tree, and the working directory from which paths are followed.
  A path is followed name by name and every name needs a directory to stand in; an empty name and `.`
  stay where they are, `..` leads back. Names and whole paths are of bounded length. The working directory
  may be gone: then nothing stands in it any more, but `..` still leads out of it. What fails is reported
  by its cause.
-/
import Tariff.Text.Blank

namespace Tariff

/-- A place in the tree: the names that lead to it from the root. -/
abbrev Location := List String

/-- The absolute path of a place. -/
def Location.text : Location → String
  | [] => "/"
  | names => String.join (names.map ("/" ++ ·))

/-- What may stand at a place. -/
inductive Entry
  | file (text : String)
  | directory
deriving DecidableEq

structure Disk where
  entries : List (Location × Entry)
  here : Location

/-- Why the disk refuses an operation. -/
inductive DiskError
  | notFound
  | alreadyExists
  | notDirectory
  | isDirectory
  | nameTooLong
  | nulInName
deriving DecidableEq

def DiskError.message : DiskError → String
  | .notFound => "No such file or directory (os error 2)"
  | .alreadyExists => "File exists (os error 17)"
  | .notDirectory => "Not a directory (os error 20)"
  | .isDirectory => "Is a directory (os error 21)"
  | .nameTooLong => "File name too long (os error 36)"
  | .nulInName => "file name contained an unexpected NUL byte"

/-- A path as the names between its slashes. An absolute path starts with an empty name; the empty path
    has no names. -/
abbrev Route := List String

namespace Route

def ofText (path : String) : Route :=
  if path.isEmpty then []
  else (Text.parts (· == '/') path.toList).map String.ofList

/-- Whether a name stays where it is or leads back. -/
def isDots (name : String) : Bool := name = "" || name = "." || name = ".."

/-- A route from the root. -/
def isAbsolute (r : Route) : Bool := r.head? = some ""

/-- A route from the root that goes on from a place as another one does. -/
def below (r : Route) (l : Location) : Route := "" :: (l ++ r)

/-- The number of bytes that a name may have. -/
def nameLimit : Nat := 255

/-- The number of bytes that a path may have. -/
def pathLimit : Nat := 4095

/-- Whether a name has more bytes than it may have. -/
def isLong (name : String) : Bool := nameLimit < name.utf8ByteSize

/-- What is wrong with a route whatever is on the disk. -/
def fault? (r : Route) : Option DiskError :=
  if r.any (·.toList.contains '\x00') then some .nulInName
  else if pathLimit < ("/".intercalate r).utf8ByteSize then some .nameTooLong
  else none

/-- The route without the names behind its first that stay where they are. -/
def tidy : Route → Route
  | [] => []
  | first :: names => first :: names.filter fun n => n ≠ "" && n ≠ "."

/-- The route without the empty names at its end, which only slashes leave there. -/
def withoutSlash : Route → Route
  | [] => []
  | first :: names => first :: (names.reverse.dropWhile (· = "")).reverse

/-- The route to the directory that holds what a route leads to; the root and the empty route have
    none. -/
def parent? (r : Route) : Option Route :=
  match r.tidy with
  | [] => none
  | [""] => none
  | names => some names.dropLast

end Route

namespace Disk

/-- What stands at a place. The root is always a directory. -/
def get? (d : Disk) (l : Location) : Option Entry :=
  if l.isEmpty then some .directory else d.entries.lookup l

/-- Whether the working directory is there. -/
def hasHere (d : Disk) : Bool := d.get? d.here = some .directory

/-- Puts an entry at a place, over the one that stands there. -/
def put (d : Disk) (l : Location) (e : Entry) : Disk :=
  { d with entries := (l, e) :: d.entries.filter (·.1 ≠ l) }

/-- The place that a name leads to from another. -/
def step (d : Disk) (l : Location) (name : String) : Except DiskError Location :=
  match d.get? l with
  | none => .error .notFound
  | some (.file _) => .error .notDirectory
  | some .directory =>
    if name = "" ∨ name = "." then .ok l
    else if name = ".." then .ok l.dropLast
    else if Route.isLong name then .error .nameTooLong
    else .ok (l ++ [name])

/-- The place that names lead to from another. There need not be anything at it. -/
def walk (d : Disk) (l : Location) : List String → Except DiskError Location
  | [] => .ok l
  | name :: names =>
    match d.step l name with
    | .ok l => d.walk l names
    | .error e => .error e

/-- The place that names lead to from the working directory or from one above it. One that is gone is left
    by `..` alone. -/
def walkOut (d : Disk) (l : Location) : List String → Except DiskError Location
  | [] => .ok l
  | name :: names =>
    if d.get? l = none ∧ Route.isDots name then
      d.walkOut (if name = ".." then l.dropLast else l) names
    else d.walk l (name :: names)

/-- The place that a route leads to. -/
def locate (d : Disk) (r : Route) : Except DiskError Location :=
  match r.fault?, r with
  | some e, _ => .error e
  | none, [] => .error .notFound
  | none, "" :: names => d.walk [] names
  | none, names => d.walkOut d.here names

/-- The place that a route leads to, with what stands there. -/
def find (d : Disk) (r : Route) : Except DiskError (Location × Entry) :=
  match d.locate r with
  | .error e => .error e
  | .ok l =>
    match d.get? l with
    | some e => .ok (l, e)
    | none => .error .notFound

def isFile (d : Disk) (r : Route) : Bool :=
  match d.find r with
  | .ok (_, .file _) => true
  | _ => false

def isDirectory (d : Disk) (r : Route) : Bool :=
  match d.find r with
  | .ok (_, .directory) => true
  | _ => false

/-- Whether a route leads to anything. -/
def has (d : Disk) (r : Route) : Bool :=
  match d.find r with
  | .ok _ => true
  | .error _ => false

def readText (d : Disk) (r : Route) : Except DiskError String :=
  match d.find r with
  | .ok (_, .file text) => .ok text
  | .ok (_, .directory) => .error .isDirectory
  | .error e => .error e

/-- The directory in which the last name of a route stands. The empty route stands nowhere. -/
def holder (d : Disk) (r : Route) : Except DiskError Location :=
  match r.fault?, r with
  | some e, _ => .error e
  | none, [] => .error .notFound
  | none, [_] => if d.hasHere then .ok d.here else .error .notFound
  | none, names =>
    match d.find names.dropLast with
    | .ok (l, .directory) => .ok l
    | .ok (_, .file _) => .error .notDirectory
    | .error e => .error e

/-- Makes one directory. -/
def makeDirectory (d : Disk) (r : Route) : Except DiskError Disk :=
  match d.holder r with
  | .error e => .error e
  | .ok l =>
    let name := r.getLast?.getD ""
    if Route.isDots name ∨ (d.get? (l ++ [name])).isSome then .error .alreadyExists
    else if Route.isLong name then .error .nameTooLong
    else .ok (d.put (l ++ [name]) .directory)

/-- Makes one directory unless it is there. -/
def ensureDirectory (d : Disk) (r : Route) : Except DiskError Disk :=
  match d.makeDirectory r with
  | .ok made => .ok made
  | .error e => if d.isDirectory r then .ok d else .error e

/-- The outcome of an operation, and the disk behind it, which is the one before it if it fails. -/
def settle (d : Disk) : Except DiskError Disk → Except DiskError Unit × Disk
  | .ok changed => (.ok (), changed)
  | .error e => (.error e, d)

/-- Makes the directory at the end of names that are given last first and, if need be, those on the way
    there. What was made stays, even if the last one cannot be made. -/
def makeFromLast (d : Disk) : List String → Except DiskError Unit × Disk
  | [] => (.ok (), d)
  | last :: names =>
    match d.ensureDirectory (last :: names).reverse with
    | .error .notFound =>
      match d.makeFromLast names with
      | (.ok (), d) => d.settle (d.ensureDirectory (last :: names).reverse)
      | failed => failed
    | made => d.settle made

/-- Makes a directory and, if need be, those that lead to it. -/
def makeDirectories (d : Disk) (r : Route) : Except DiskError Unit × Disk := d.makeFromLast r.reverse

/-- Writes a file, in the place of one that is there. Its directory must be there, and a slash behind
    its name makes it a directory. -/
def writeText (d : Disk) (r : Route) (text : String) : Except DiskError Disk :=
  match d.holder r.withoutSlash with
  | .error e => .error e
  | .ok l =>
    let name := r.getLast?.getD ""
    if Route.isDots name ∨ d.get? (l ++ [name]) = some .directory then .error .isDirectory
    else if Route.isLong name then .error .nameTooLong
    else .ok (d.put (l ++ [name]) (.file text))

end Disk

end Tariff
