import Std.Data.ExtTreeMap
import Cpu32.Tool.Host

/-!
# A host in memory

A tree of files, an environment and everything that was written.  The clock moves on by a second
whenever it is read, and the entropy is a counter.  Paths that begin with a slash lead from the root
of the tree, and all others from a working directory.  Directories exist on the way to a file, on
the way to the working directory, and where every system has them.
-/

namespace Cpu32.Tool

structure Sandbox where
  /-- The contents of each file, by the names on the way to it from the root. -/
  files : List (List String × List UInt8) := []
  environment : List (String × String) := []
  /-- What was written, latest first. -/
  output : List Output := []
  clock : Duration := 0
  drawn : UInt64 := 0

namespace Sandbox

/-- What a path leads to. -/
inductive Node
  | directory
  | file (bytes : List UInt8)
deriving DecidableEq, Repr

def notFound : Reason := "No such file or directory (os error 2)"

def notDirectory : Reason := "Not a directory (os error 20)"

def isDirectory : Reason := "Is a directory (os error 21)"

def busy : Reason := "Device or resource busy (os error 16)"

def nameTooLong : Reason := "File name too long (os error 36)"

/-- The number of bytes that a path has to stay below. -/
def pathLimit : Nat := 4096

/-- The number of bytes that a name may have. -/
def nameLimit : Nat := 255

/-- The way from the root to the working directory. -/
def workingDirectory : List String := ["tmp", "sandbox"]

/-- The directories at the root of every system. -/
def topDirectories : List String :=
  ["bin", "boot", "dev", "etc", "home", "lib", "media", "mnt", "opt", "proc", "root", "run", "sbin",
    "srv", "sys", "tmp", "usr", "var"]

/-- The file that is always empty. -/
def emptyFile : List String := ["dev", "null"]

/-- A sandbox with files in its working directory, by the names on the way from there. -/
def ofFiles (files : List (List String × List UInt8)) (environment : List (String × String)) :
    Sandbox where
  files := (emptyFile, []) :: files.map fun (way, bytes) => (workingDirectory ++ way, bytes)
  environment

variable (sandbox : Sandbox)

/-- The files in the working directory and below, by the names on the way from there. -/
def localFiles : List (List String × List UInt8) :=
  sandbox.files.filterMap fun (way, bytes) =>
    (workingDirectory.isPrefixOf? way).map fun rest => (rest, bytes)

/-- A directory lies at the end of a way from the root. -/
def isDirectoryAt (way : List String) : Bool :=
  way.isPrefixOf workingDirectory || topDirectories.any (fun name => way == [name]) ||
    sandbox.files.any fun (other, _) => way.isPrefixOf other

/-- What lies at the end of a way from the root. -/
def node? (way : List String) : Option Node :=
  match sandbox.files.lookup way with
  | some bytes => some (.file bytes)
  | none => if sandbox.isDirectoryAt way then some .directory else none

/-- Follows the components of a path from a place. -/
def follow (way : List String) : List String → Except Reason (List String × Node)
  | [] =>
      match sandbox.node? way with
      | some node => .ok (way, node)
      | none => .error notFound
  | name :: rest =>
      match sandbox.node? way with
      | none => .error notFound
      | some (.file _) => .error notDirectory
      | some .directory =>
          if name = "" ∨ name = "." then follow way rest
          else if name = ".." then follow way.dropLast rest
          else if nameLimit < name.utf8ByteSize then .error nameTooLong
          else follow (way ++ [name]) rest

/-- Where a path begins, if it may be followed at all. -/
def start (path : String) : Except Reason (List String) :=
  if path = "" then .error notFound
  else if pathLimit ≤ path.utf8ByteSize then .error nameTooLong
  else if path.startsWith "/" then .ok []
  else .ok workingDirectory

/-- What a path leads to, and the names on the way to it. -/
def find (path : String) : Except Reason (List String × Node) := do
  sandbox.follow (← start path) (path.splitOn "/")

def read (path : String) : Except Reason (List UInt8) := do
  match ← sandbox.find path with
  | (_, .file bytes) => return bytes
  | (_, .directory) => .error isDirectory

/-- The way to a file that may be replaced or created at a path.  A slash at the end asks for a
directory, which a file cannot replace. -/
def target (path : String) : Except Reason (List String) := do
  let origin ← start path
  let reversed := (path.splitOn "/").reverse
  match reversed.dropWhile (· = "") with
  | [] => .error busy
  | name :: parent => do
      let (way, node) ← sandbox.follow origin parent.reverse
      match node with
      | .file _ => .error notDirectory
      | .directory =>
          if name = "." ∨ name = ".." then .error busy
          else if nameLimit < name.utf8ByteSize then .error nameTooLong
          else if reversed.head? = some "" then .error notDirectory
          else if sandbox.node? (way ++ [name]) = some .directory then .error isDirectory
          else return way ++ [name]

/-- The sandbox with a file of these contents. -/
def insert (way : List String) (bytes : List UInt8) : Sandbox :=
  { sandbox with files := (way, bytes) :: sandbox.files.filter fun (other, _) => other ≠ way }

def replace (path : String) (bytes : List UInt8) : Except Reason Unit × Sandbox :=
  match sandbox.target path with
  | .ok way => (.ok (), sandbox.insert way bytes)
  | .error reason => (.error reason, sandbox)

end Sandbox

/-- A computation in a sandbox. -/
abbrev SandboxM := StateM Sandbox

instance : Host SandboxM where
  isPresent path := return (← get).find path matches .ok _
  readFile path := return (← get).read path
  replaceFile path bytes := modifyGet fun s => s.replace path bytes
  environment? name := return (← get).environment.lookup name
  write output := modify fun s => { s with output := output :: s.output }
  now := modifyGet fun s => (s.clock, { s with clock := s.clock + 1000000000 })
  entropy := modifyGet fun s => (s.drawn, { s with drawn := s.drawn + 1 })

end Cpu32.Tool
