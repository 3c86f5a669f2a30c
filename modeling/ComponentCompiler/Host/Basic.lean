import ComponentCompiler.Path
import ComponentCompiler.Text.Quoted

/-!
This module contains what the command line needs from the outside: files, the console and a clock.
-/

namespace ComponentCompiler

inductive FileError.Kind where
  | notFound
  | fileExists
  | notDirectory
  | isDirectory
  | nameTooLong
  | other (number : Nat) (text : String)
  deriving DecidableEq, Repr

def FileError.Kind.number : FileError.Kind → Nat
  | notFound => 2
  | fileExists => 17
  | notDirectory => 20
  | isDirectory => 21
  | nameTooLong => 36
  | other number _ => number

def FileError.Kind.text : FileError.Kind → String
  | notFound => "No such file or directory"
  | fileExists => "File exists"
  | notDirectory => "Not a directory"
  | isDirectory => "Is a directory"
  | nameTooLong => "File name too long"
  | other _ text => text

inductive FileError where
  | system (kind : FileError.Kind) (path : String)
  | nullInPath
  | noPath
  deriving DecidableEq, Repr

def FileError.message : FileError → String
  | system kind path => s!"[Errno {kind.number}] {kind.text}: {Text.quoted path}"
  | nullInPath => Path.nullMessage
  | noPath => "expected str, bytes or os.PathLike object, not list"

structure Host (m : Type → Type) where
  directory : String
  /-- Whether somebody would have to type the input. -/
  isTerminal : Bool
  input : m String
  read : String → m (Except FileError String)
  write : String → String → m (Except FileError Unit)
  append : String → String → m (Except FileError Unit)
  /-- Makes a directory and those above it, unless they are there. -/
  makeDirectory : String → m (Except FileError Unit)
  out : String → m Unit
  err : String → m Unit
  now : m String
  elapsed : m String

end ComponentCompiler
