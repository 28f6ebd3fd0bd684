import UntypedLambda.Text.Blank

/-! # Files to work on

The files that a command can see: their names relative to a working directory, and what is in
them; besides, a few places that every system has.  A place is a list of names, from the top
of the file system downwards. -/
set_option autoImplicit false

namespace UntypedLambda.CommandLine

abbrev Place := List String

/-- Why a path leads nowhere.  `blocked` means that a file stands where the way needs a
directory. -/
inductive Obstacle where
  | missing
  | blocked
  | tooLong
  | invalid
deriving DecidableEq, Repr, Inhabited

def Obstacle.message : Obstacle → String
  | missing => "no such file or directory"
  | blocked => "not a directory"
  | tooLong => "file name too long"
  | invalid => "invalid argument"

/-- What stands at a place. -/
inductive Found where
  | file (text : String)
  | directory
deriving DecidableEq, Repr, Inhabited

/-- `root` is the full path of the working directory. -/
structure Workspace where
  root : String
  files : List (String × String)
deriving DecidableEq, Repr, Inhabited

/-! ## Paths -/

namespace Place

/-- Follows one part of a path, without a look at what is there. -/
def step (place : Place) (part : String) : Place :=
  if part = "" ∨ part = "." then place
  else if part = ".." then place.dropLast
  else place ++ [part]

def parts (path : String) : List String := (Text.splitAt '/' path.toList).map String.ofList

def isAbsolute (path : String) : Bool := path.toList.head? == some '/'

/-- The place that a path leads to from here, in its shortest form. -/
def follow (place : Place) (path : String) : Place :=
  (parts path).foldl step (if isAbsolute path then [] else place)

end Place

namespace Workspace

/-- The place of the working directory. -/
def place (w : Workspace) : Place := Place.follow [] w.root

/-- The full path of a place. -/
def pathOf (w : Workspace) (place : Place) : String :=
  if w.place.isPrefixOf place then "/".intercalate (w.root :: place.drop w.place.length)
  else "/" ++ "/".intercalate place

/-! ## Looking -/

/-- What every system has. -/
def system : List (Place × Found) :=
  [(["bin"], .directory), (["dev"], .directory), (["dev", "null"], .file ""),
   (["etc"], .directory), (["tmp"], .directory), (["usr"], .directory)]

/-- The file or directory at a place, if there is one. -/
def at? (w : Workspace) (place : Place) : Option Found :=
  match w.files.find? fun file => w.place.follow file.1 == place with
  | some file => some (.file file.2)
  | none =>
    if place.isPrefixOf w.place || w.files.any fun file => place.isPrefixOf (w.place.follow file.1)
    then some .directory
    else system.lookup place

/-- The number of bytes that a name may have, and the number that a path must not reach. -/
def nameLimit : Nat := 255

def pathLimit : Nat := 4096

/-- Goes along the parts of a path.  Every part but the last has to lead to a directory. -/
def walk (w : Workspace) (place : Place) : List String → Except Obstacle Found
  | [] =>
    match w.at? place with
    | some found => .ok found
    | none => .error .missing
  | part :: rest =>
    match w.at? place with
    | some .directory =>
      if nameLimit < part.utf8ByteSize then .error .tooLong else walk w (place.step part) rest
    | some _ => .error .blocked
    | none => .error .missing

/-- A path may be any text that is not too long and has no zero in it. -/
def checkPath (path : String) : Except Obstacle Unit :=
  if path.toList.contains (Char.ofNat 0) then .error .invalid
  else if pathLimit ≤ path.utf8ByteSize then .error .tooLong
  else .ok ()

/-- What a path leads to.  The empty path leads nowhere. -/
def look (w : Workspace) (path : String) : Except Obstacle Found := do
  if path = "" then throw .missing
  checkPath path
  w.walk (if Place.isAbsolute path then [] else w.place) (Place.parts path)

/-- What stands at a place, which is given by its full path. -/
def lookAt (w : Workspace) (place : Place) : Except Obstacle Found := do
  checkPath (w.pathOf place)
  w.walk [] place

/-- The text that was found, or why there is none; `shown` is how the message names it. -/
def textOf (found : Except Obstacle Found) (shown : String) : Except String String :=
  match found with
  | .ok (.file text) => .ok text
  | .ok .directory => .error ("read " ++ shown ++ ": is a directory")
  | .error obstacle => .error ("open " ++ shown ++ ": " ++ obstacle.message)

/-- The text of the file that a path leads to. -/
def read (w : Workspace) (path : String) : Except String String := textOf (w.look path) path

end Workspace

end UntypedLambda.CommandLine
