import CSubset.Command.Path

/-!
# Files

What a command asks of a file system (`Files`), and a file system that is a value (`FileTree`): the
files, directories and links under a working directory, and what may not be done with them.

A file may be at several locations at once, as after a hard link. So a file has a number, and what
it holds is told by the number and not by the location. A symbolic link holds a path, which is
followed from where the link is.
-/

namespace CSubset.Command

inductive PathCause where
  | notFound
  | notDirectory
  | isDirectory
  | alreadyExists
  | tooManyLinks
  | denied
  | other (text : String)
  deriving DecidableEq, Repr

def PathCause.text : PathCause → String
  | .notFound => "no such file or directory"
  | .notDirectory => "not a directory"
  | .isDirectory => "is a directory"
  | .alreadyExists => "file exists"
  | .tooManyLinks => "too many levels of symbolic links"
  | .denied => "permission denied"
  | .other text => text

/-- A request that was refused: what was asked, for which path, and why. -/
structure PathError where
  request : String
  path : String
  cause : PathCause
  deriving DecidableEq, Repr

def PathError.message (e : PathError) : String := s!"{e.request} {e.path}: {e.cause.text}"

/-- The requests of a command. -/
structure Files (m : Type → Type) where
  read : String → m (Except PathError (List UInt8))
  /-- Make a directory and those that it is in. -/
  makeDirs : String → m (Except PathError Unit)
  write : String → String → m (Except PathError Unit)

/-! ## File systems as values -/

inductive Entry where
  /-- The file of this number. -/
  | file (number : Nat)
  | directory
  | link (target : String)
  deriving DecidableEq, Repr

/-- What can be done at a location. To write a directory is to put something new into it. -/
inductive Access where
  | search
  | read
  | write
  deriving DecidableEq, Repr

/-- A directory from which paths start: the root, or the directory so many levels above the working
directory. -/
inductive Origin where
  | root
  | above (levels : Nat)
  deriving DecidableEq, Repr

/-- A file or directory, by the pieces that lead to it from an origin. -/
structure Location where
  origin : Origin
  pieces : List String
  deriving DecidableEq, Repr

namespace Location

def workingDirectory : Location := ⟨.above 0, []⟩

/-- Where a path starts. -/
def start (path : String) : Location := if Path.isRooted path then ⟨.root, []⟩ else workingDirectory

/-- The directory that a location is in. The root is in itself. -/
def parent (l : Location) : Location :=
  match l.origin, l.pieces with
  | .root, [] => l
  | .above levels, [] => ⟨.above (levels + 1), []⟩
  | origin, pieces => ⟨origin, pieces.dropLast⟩

/-- Where one piece of a path leads from a directory. -/
def step (dir : Location) (piece : String) : Location :=
  if piece = "" ∨ piece = "." then dir
  else if piece = ".." then dir.parent
  else { dir with pieces := dir.pieces ++ [piece] }

/-- Where a path leads if all its pieces are there and none is a link. -/
def ofPath (path : String) : Location := (Path.pieces path).foldl step (start path)

end Location

structure FileTree where
  entries : List (Location × Entry)
  /-- What each file holds. -/
  bytes : Nat → List UInt8
  denied : List (Location × Access)

namespace FileTree

def empty : FileTree := ⟨[], fun _ => [], []⟩

/-- What is at a location. The origins are always there. -/
def held? (t : FileTree) (location : Location) : Option Entry :=
  if location.pieces.isEmpty then some .directory else t.entries.lookup location

/-- Put something at a location where nothing is. -/
def put (t : FileTree) (location : Location) (entry : Entry) : FileTree :=
  { t with entries := (location, entry) :: t.entries }

/-- Let the file of this number hold other bytes. -/
def fill (t : FileTree) (number : Nat) (bytes : List UInt8) : FileTree :=
  { t with bytes := fun other => if other = number then bytes else t.bytes other }

/-- A number that no file has. -/
def freshNumber (t : FileTree) : Nat :=
  t.entries.foldr (fun (_, entry) least =>
    match entry with
    | .file number => max (number + 1) least
    | _ => least) 0

/-! ### Following paths -/

/-- Whether something can be looked up in a directory. -/
def enter (t : FileTree) (here : Location) : Except PathCause Unit :=
  match t.held? here with
  | none => .error .notFound
  | some .directory => if (here, .search) ∈ t.denied then .error .denied else .ok ()
  | some _ => .error .notDirectory

/-- Follow the pieces of a path; each but the last has to be there. A link is followed by `jump`,
from where its target starts, unless it is the last piece and stays as it is. -/
def walk (t : FileTree) (follow : Bool) (jump : Location → List String → Except PathCause Location)
    (here : Location) : List String → Except PathCause Location
  | [] => .ok here
  | piece :: rest =>
    match t.enter here with
    | .error cause => .error cause
    | .ok _ =>
      let next := here.step piece
      match t.held? next with
      | none => if rest.isEmpty then .ok next else .error .notFound
      | some (.link target) =>
        if rest.isEmpty && !follow then .ok next
        else jump (if Path.isRooted target then .start target else here)
          (Path.pieces target ++ rest)
      | some _ => walk t follow jump next rest

/-- Follow the pieces of a path, and so many links at most. -/
def locate (t : FileTree) (follow : Bool) : Nat → Location → List String → Except PathCause Location
  | 0 => t.walk follow fun _ _ => .error .tooManyLinks
  | links + 1 => t.walk follow (t.locate follow links)

/-- The location that these pieces of a path lead to. It may be free: only its directory has to be
there. -/
def find (t : FileTree) (follow : Bool) (path : String) (pieces : List String) :
    Except PathCause Location :=
  if path.isEmpty then .error .notFound else t.locate follow 40 (.start path) pieces

/-- What a path leads to. -/
def look (t : FileTree) (path : String) (follow : Bool) : Except PathCause Entry :=
  match t.find follow path (Path.pieces path) with
  | .error cause => .error cause
  | .ok location =>
    match t.held? location with
    | some entry => .ok entry
    | none => .error .notFound

/-! ## Requests -/

def read (path : String) : StateM FileTree (Except PathError (List UInt8)) := do
  let t ← get
  match t.find true path (Path.pieces path) with
  | .error cause => return .error ⟨"open", path, cause⟩
  | .ok location =>
    if (location, .read) ∈ t.denied then return .error ⟨"open", path, .denied⟩
    else match t.held? location with
      | some (.file number) => return .ok (t.bytes number)
      | some _ => return .error ⟨"read", path, .isDirectory⟩
      | none => return .error ⟨"open", path, .notFound⟩

def write (path text : String) : StateM FileTree (Except PathError Unit) := do
  let t ← get
  match t.find true path (Path.pieces path) with
  | .error cause => return .error ⟨"open", path, cause⟩
  | .ok location =>
    match t.held? location with
    | some (.file number) =>
      if (location, .write) ∈ t.denied then return .error ⟨"open", path, .denied⟩
      else
        set (t.fill number text.toUTF8.toList)
        return .ok ()
    | some _ => return .error ⟨"open", path, .isDirectory⟩
    | none =>
      if (location.parent, .write) ∈ t.denied then return .error ⟨"open", path, .denied⟩
      else
        set ((t.put location (.file t.freshNumber)).fill t.freshNumber text.toUTF8.toList)
        return .ok ()

/-- Make a directory in one that is there. It may be there already. Slashes at the end of the path
do not count. -/
def makeDir (path : String) : StateM FileTree (Except PathError Unit) := do
  let t ← get
  match t.find false path ((Path.pieces path).reverse.dropWhile (· = "")).reverse with
  | .error cause => return .error ⟨"mkdir", path, cause⟩
  | .ok location =>
    match t.held? location, t.look path false with
    | none, _ =>
      if (location.parent, .write) ∈ t.denied then return .error ⟨"mkdir", path, .denied⟩
      else
        set (t.put location .directory)
        return .ok ()
    | some _, .ok .directory => return .ok ()
    | some _, _ => return .error ⟨"mkdir", path, .alreadyExists⟩

-- `h` is used by `decreasing_by` only.
set_option linter.unusedVariables false in
/-- Make the directory of a path, which is given by its pieces with the last first. If it cannot be
found, the one that it is in is made before it. -/
def makeDirsTo (reversed : List String) : StateM FileTree (Except PathError Unit) := do
  let path := Path.join reversed.reverse
  match (← get).look path true with
  | .ok .directory => return .ok ()
  | .ok _ => return .error ⟨"mkdir", path, .notDirectory⟩
  | .error _ =>
    match h : reversed.dropWhile (· = "") with
    | [] => makeDir path
    | _ :: before =>
      if before.all (·.isEmpty) then makeDir path
      else match ← makeDirsTo before with
        | .error e => return .error e
        | .ok _ => makeDir path
termination_by reversed.length
decreasing_by
  have hle := (List.dropWhile_sublist (l := reversed) (· = "")).length_le
  rw [h] at hle
  exact hle

def makeDirs (path : String) : StateM FileTree (Except PathError Unit) :=
  makeDirsTo (Path.pieces path).reverse

/-- The requests of a command on a file tree. -/
def files : Files (StateM FileTree) := ⟨read, makeDirs, write⟩

/-! ## Building and comparing -/

/-- Put a directory at a location if nothing is there, and at those that it is in. -/
def addDirectories (t : FileTree) (location : Location) : FileTree :=
  let add := fun (t, dir) piece =>
    let next := Location.step dir piece
    (if (t.held? next).isSome then t else t.put next .directory, next)
  (location.pieces.foldl add (t, ⟨location.origin, []⟩)).1

/-- Add a directory, with those that it is in. -/
def addDirectory (t : FileTree) (path : String) : FileTree := t.addDirectories (.ofPath path)

/-- Add a file, with the directories that it is in. -/
def addFile (t : FileTree) (path : String) (bytes : List UInt8) : FileTree :=
  let location := Location.ofPath path
  let t := t.addDirectories location.parent
  match t.held? location with
  | some (.file number) => t.fill number bytes
  | _ => (t.put location (.file t.freshNumber)).fill t.freshNumber bytes

/-- The files under the working directory of `after` that `t` does not have, or has with other
contents. -/
def changes (t after : FileTree) : List (String × List UInt8) :=
  after.entries.filterMap fun (location, entry) =>
    match entry with
    | .file number =>
      let same := t.held? location = some entry ∧ t.bytes number = after.bytes number
      if location.origin ≠ .above 0 ∨ same then none
      else some (Path.join location.pieces, after.bytes number)
    | _ => none

end FileTree

end CSubset.Command
