import Collectives.Command.Run

/-!
# A directory in memory

A host without a machine: a directory with files, three devices, and what was printed. A path is
walked name by name; all other directories are empty, and what is made there is not kept.
-/

namespace Collectives.Command

structure Directory where
  path : String
  files : List (String × ByteArray) := []
  printed : String := ""

/-- What a path leads to. -/
inductive Place where
  | directory
  /-- A name in the directory, with or without a file. -/
  | here (name : String)
  | elsewhere (name : String)
  /-- The device that drops what is written. -/
  | drain
  /-- The device that prints what is written. -/
  | screen
  /-- The device that has no room. -/
  | full
  deriving DecidableEq, Repr

def isLongName (name : String) : Bool := 255 < name.utf8ByteSize

def isLongPath (path : String) : Bool := 4095 < path.utf8ByteSize

def endsInSlash (path : String) : Bool := path.toList.getLast? = some '/'

namespace Directory

def bytes? (d : Directory) (name : String) : Option ByteArray := d.files.lookup name

/-- Walks along names, from the directory itself if `isHere`. The last name is not looked up. -/
def walk (d : Directory) (isHere : Bool) : List String → Except FileProblem Place
  | [] => .ok .directory
  | "" :: names | "." :: names => d.walk isHere names
  | ".." :: names => d.walk false names
  | name :: names =>
    if names.all (·.isEmpty) then .ok (if isHere then .here name else .elsewhere name)
    else if isLongName name then .error .nameTooLong
    else if isHere ∧ (d.bytes? name).isSome then .error .notDirectory
    else .error .notFound

def locate (d : Directory) (path : String) : Except FileProblem Place :=
  if isLongPath path then .error .nameTooLong
  else match path with
  | "/dev/null" => .ok .drain
  | "/dev/stdout" => .ok .screen
  | "/dev/full" => .ok .full
  | path =>
    let names := path.splitOn "/"
    let own := d.path.splitOn "/"
    if own.isPrefixOf names then d.walk true (names.drop own.length) else d.walk false names

/-- The text of a file. Devices have nothing to read. -/
def read (d : Directory) (path : String) : Except FileProblem String := do
  match ← d.locate path with
  | .directory => throw .isDirectory
  | .drain | .screen | .full => return ""
  | .elsewhere name => throw (if isLongName name then .nameTooLong else .notFound)
  | .here name =>
    if isLongName name then throw .nameTooLong
    match d.bytes? name with
    | none => throw .notFound
    | some bytes => if endsInSlash path then throw .notDirectory else decoded bytes

def put (d : Directory) (name text : String) : Directory :=
  { d with files := (name, text.toUTF8) :: d.files.filter (·.1 ≠ name) }

def write (d : Directory) (path text : String) : Except FileProblem Directory := do
  match ← d.locate path with
  | .directory => throw .isDirectory
  | .drain => return d
  | .screen => return { d with printed := d.printed ++ text }
  | .full => throw .full
  | .here name =>
    if endsInSlash path then throw .isDirectory
    if isLongName name then throw .nameTooLong
    return d.put name text
  | .elsewhere name =>
    if endsInSlash path then throw .isDirectory
    if isLongName name then throw .nameTooLong
    return d

/-- The directory as a host, without words of its own. -/
def host : Host (StateM Directory) where
  read path := return (← get).read path
  write path text := do
    match (← get).write path text with
    | .error problem => return .error problem
    | .ok d =>
      set d
      return .ok ()
  print text := do
    modify fun d => { d with printed := d.printed ++ text }
    return .ok ()
  entropy := return .cycle []

end Directory
end Collectives.Command
