import Categorial.Error
import Categorial.Text.Blank
set_option autoImplicit false

namespace Categorial

/-- What is at a path. -/
inductive Found where
  | nothing
  /-- Something that has no contents, such as a directory. -/
  | unreadable
  | contents (bytes : ByteArray)

def Found.bytes? : Found → Option ByteArray
  | contents bytes => some bytes
  | _ => none

class Files (m : Type → Type) where
  read : String → m Found
  /-- Creates a file or replaces its contents. The answer is whether that is possible. -/
  write : String → ByteArray → m Bool
  /-- Writes behind the end of a file that is there. The answer is whether that is possible. -/
  append : String → ByteArray → m Bool
  /-- Moves a file to another path, where it replaces one that is there. The answer is whether that is
  possible. -/
  move : String → String → m Bool
  /-- Creates a directory with those above it. The answer is whether it is there now. -/
  makeDirectory : String → m Bool
  print : String → m Unit
  /-- A message beside the output. -/
  note : String → m Unit

def Files.within (directory name : String) : String :=
  match directory.toList.getLast? with
  | none | some '/' => directory ++ name
  | _ => directory ++ "/" ++ name

abbrev Filing (m : Type → Type) (β : Type) := ExceptT Error m β

namespace Filing

variable {m : Type → Type} [Monad m] [Files m]

def check {β : Type} (x : Except Error β) : Filing m β := ExceptT.mk (pure x)

/-- The bytes of a file that has to be there. -/
def read (path : String) : Filing m ByteArray := do
  match ← ExceptT.lift (Files.read path) with
  | .contents bytes => pure bytes
  | _ => throw .unreadable

def require (path : String) (done : m Bool) : Filing m Unit := do
  if ← ExceptT.lift done then pure () else throw (.unwritable path)

def write (path : String) (contents : ByteArray) : Filing m Unit := require path (Files.write path contents)

def append (path : String) (contents : ByteArray) : Filing m Unit := require path (Files.append path contents)

def move (source target : String) : Filing m Unit := require target (Files.move source target)

def makeDirectory (path : String) : Filing m Unit := require path (Files.makeDirectory path)

end Filing

abbrev Path := List String

structure Disk where
  files : List (Path × ByteArray)
  directories : List Path
  /-- What has been printed. -/
  output : String

namespace Disk

def home : Path := ["home"]

def sink : Path := ["dev", "null"]

def empty : Disk := ⟨[(sink, .empty)], [[], home, ["dev"]], ""⟩

def isDirectory (d : Disk) (p : Path) : Bool := d.directories.contains p

def isFile (d : Disk) (p : Path) : Bool := (d.files.lookup p).isSome

def remove (d : Disk) (p : Path) : Disk := { d with files := d.files.filter fun (q, _) => q ≠ p }

def put (d : Disk) (p : Path) (contents : ByteArray) : Disk :=
  if p = sink then d else { d with files := (p, contents) :: (d.remove p).files }

def start (path : String) : Path := if path.toList.head? = some '/' then [] else home

def parts (path : String) : List String := (Text.splitOn '/' path.toList).map String.ofList

/-- One step of a path from a directory. Nothing is above the top. -/
def step (p : Path) (part : String) : Path :=
  if part = "" ∨ part = "." then p else if part = ".." then p.dropLast else p ++ [part]

def isName (part : String) : Bool := part.utf8ByteSize ≤ 255

def isPath (path : String) : Bool := path.utf8ByteSize ≤ 4095

/-- Every step begins in a directory, also an empty one behind the last slash. -/
def follow (d : Disk) (p : Path) : List String → Option Path
  | [] => some p
  | part :: rest =>
    if d.isDirectory p && isName part then d.follow (step p part) rest else none

/-- The place that a path leads to, which need not be taken. -/
def resolve (d : Disk) (path : String) : Option Path :=
  if isPath path then d.follow (start path) (parts path) else none

def readAt (d : Disk) (p : Path) : Found :=
  match d.files.lookup p with
  | some bytes => .contents bytes
  | none => if d.isDirectory p then .unreadable else .nothing

def read (d : Disk) (path : String) : Found := (d.resolve path).elim .nothing d.readAt

def write (d : Disk) (path : String) (contents : ByteArray) : Bool × Disk :=
  match d.resolve path with
  | some p => if d.isDirectory p then (false, d) else (true, d.put p contents)
  | none => (false, d)

def append (d : Disk) (path : String) (contents : ByteArray) : Bool × Disk :=
  match d.resolve path with
  | some p =>
    match d.readAt p with
    | .contents bytes => (true, d.put p (bytes ++ contents))
    | _ => (false, d)
  | none => (false, d)

def move (d : Disk) (source target : String) : Bool × Disk :=
  match d.resolve source, d.resolve target with
  | some p, some q =>
    match d.readAt p with
    | .contents bytes => if d.isDirectory q then (false, d) else (true, (d.remove p).put q bytes)
    | _ => (false, d)
  | _, _ => (false, d)

/-- Follows a path and creates the directories that are missing on the way. -/
def create (d : Disk) (p : Path) : List String → Bool × Disk
  | [] => (true, d)
  | part :: rest =>
    let q := step p part
    if d.isFile q || !isName part then (false, d)
    else if d.isDirectory q then d.create q rest
    else { d with directories := q :: d.directories }.create q rest

/-- A directory is not created under the name of a dot: if the path ends in one, only those above it
are. -/
def makeDirectory (d : Disk) (path : String) : Bool × Disk :=
  let parts := (parts path).filter fun part => part ≠ ""
  if !isPath path then (false, d)
  else if parts.getLast? = some "." then
    let d := (d.create (start path) (parts.filter fun part => part ≠ ".").dropLast).2
    ((d.resolve path).any d.isDirectory, d)
  else d.create (start path) parts

def ofFiles (files : List (String × ByteArray)) : Disk :=
  files.foldl (fun d (path, contents) =>
    let d := (d.create (start path) (parts path).dropLast).2
    (d.write path contents).2) empty

end Disk

abbrev OnDisk := StateM Disk

instance : Files OnDisk where
  read path := do pure ((← get).read path)
  write path contents d := d.write path contents
  append path contents d := d.append path contents
  move source target d := d.move source target
  makeDirectory path d := d.makeDirectory path
  print s := modify fun d => { d with output := d.output ++ s }
  note _ := pure ()

end Categorial
