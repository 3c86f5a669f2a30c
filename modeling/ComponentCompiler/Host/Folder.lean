import ComponentCompiler.Host.Basic
import ComponentCompiler.Path

/-!
This module contains a host whose files are kept in memory and whose console is text.
-/

namespace ComponentCompiler

/-- The files that a host works on. Places are the lists of names that lead there from the root; the
directories above the host's own are known to be there, and nothing else outside of it is. -/
structure Folder where
  location : List String
  files : List (List String × String) := []
  directories : List (List String) := []
  deriving DecidableEq, Repr

namespace Folder

def pathOf (place : List String) : String :=
  "/" ++ String.intercalate "/" place

def isFile (f : Folder) (place : List String) : Bool :=
  f.files.any (·.1 == place)

def isDirectory (f : Folder) (place : List String) : Bool :=
  place.isPrefixOf f.location || f.directories.contains place

/-- A name has at most 255 bytes. -/
def isTooLong (name : String) : Bool :=
  255 < name.utf8ByteSize

/-- The place that a path leads to. All but its last name have to be directories. -/
def walk (f : Folder) (place : List String) : List String → Except FileError.Kind (List String)
  | [] => .ok place
  | part :: rest =>
    if part = "" || part = "." then
      f.walk place rest
    else if part = ".." then
      f.walk place.dropLast rest
    else
      let next := place ++ [part]
      if isTooLong part then .error .nameTooLong
      else if rest.isEmpty then .ok next
      else if f.isDirectory next then f.walk next rest
      else if f.isFile next then .error .notDirectory
      else .error .notFound

/-- The place that a path leads to; a path has less than 4096 bytes. -/
def locate (f : Folder) (path : String) : Except FileError (List String) :=
  if Path.hasNull path then
    .error .nullInPath
  else if 4096 ≤ path.utf8ByteSize then
    .error (.system .nameTooLong path)
  else
    let start := if Path.isAbsolute path then [] else f.location
    (f.walk start (Path.parts path)).mapError (.system · path)

def read (f : Folder) (path : String) : Except FileError String := do
  let place ← f.locate path
  if f.isDirectory place then
    throw (.system .isDirectory path)
  match f.files.lookup place with
  | some text => return text
  | none => throw (.system .notFound path)

def put (place : List String) (text : String) : List (List String × String) →
    List (List String × String)
  | [] => [(place, text)]
  | (other, old) :: files =>
    if other = place then (place, text) :: files else (other, old) :: put place text files

def write (f : Folder) (path text : String) : Except FileError Folder := do
  let place ← f.locate path
  if f.isDirectory place then
    throw (.system .isDirectory path)
  return { f with files := put place text f.files }

def append (f : Folder) (path text : String) : Except FileError Folder := do
  let place ← f.locate path
  f.write path ((f.files.lookup place).getD "" ++ text)

def makeBelow (f : Folder) (place : List String) : List String → Except FileError Folder
  | [] => .ok f
  | part :: rest =>
    let next := place ++ [part]
    if f.isFile place then
      .error (.system .notDirectory (pathOf next))
    else if isTooLong part then
      .error (.system .nameTooLong (pathOf next))
    else if f.isFile next && rest.isEmpty then
      .error (.system .fileExists (pathOf next))
    else if f.isDirectory next || f.isFile next then
      f.makeBelow next rest
    else
      { f with directories := f.directories ++ [next] }.makeBelow next rest

/-- Makes a directory that is given by an absolute path. -/
def makeDirectory (f : Folder) (path : String) : Except FileError Folder :=
  if Path.hasNull path then .error .nullInPath else f.makeBelow [] (Path.normalParts path)

def addFile (f : Folder) (path text : String) : Folder :=
  let names := Path.normalParts path
  let above := (List.range names.length).map fun n => f.location ++ names.take n
  { f with
    files := put (f.location ++ names) text f.files
    directories := f.directories ++ above.filter (!f.isDirectory ·) }

/-- The files of the host's own directory that are not the same in an older state of it. -/
def changedSince (f old : Folder) : List (String × String) :=
  (f.files.filter fun (place, text) =>
    f.location.isPrefixOf place && old.files.lookup place != some text).map
      fun (place, text) => (String.intercalate "/" (place.drop f.location.length), text)

end Folder

structure Session where
  folder : Folder
  out : String := ""
  err : String := ""
  deriving DecidableEq, Repr

namespace Session

def change (f : Folder → Except FileError Folder) : StateM Session (Except FileError Unit) := do
  let s ← get
  match f s.folder with
  | .ok folder =>
    set { s with folder }
    return .ok ()
  | .error e => return .error e

/-- A host with the given text as its input, or a terminal if there is none. -/
def host (location : List String) (input : Option String) (now elapsed : String) :
    Host (StateM Session) where
  directory := Folder.pathOf location
  isTerminal := input.isNone
  input := pure (input.getD "")
  read path := do return (← get).folder.read path
  write path text := change (·.write path text)
  append path text := change (·.append path text)
  makeDirectory path := change (·.makeDirectory path)
  out text := modify fun s => { s with out := s.out ++ text }
  err text := modify fun s => { s with err := s.err ++ text }
  now := pure now
  elapsed := pure elapsed

end Session
end ComponentCompiler
