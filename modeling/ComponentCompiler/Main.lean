import ComponentCompiler.CommandLine.Run
import Std.Time.Format

/-!
This module contains the command line as a program.
-/

namespace ComponentCompiler
namespace CommandLine

def faultKind : IO.Error → FileError.Kind
  | .noFileOrDirectory _ _ _ => .notFound
  | .alreadyExists _ _ _ => .fileExists
  | .inappropriateType _ number details =>
    if number = 20 then .notDirectory
    else if number = 21 then .isDirectory
    else .other number.toNat details
  | .permissionDenied _ number details | .resourceExhausted _ number details =>
    .other number.toNat details
  | e => .other 5 (toString e)

def guarded (path : String) (action : IO α) : IO (Except FileError α) := do
  if Path.hasNull path then
    return .error .nullInPath
  try
    return .ok (← action)
  catch e =>
    return .error (.system (faultKind e) path)

/-- Seconds with four places, of milliseconds. -/
def seconds (ms : Nat) : String :=
  let rest := toString (10000 + ms % 1000 * 10)
  s!"{ms / 1000}.{Text.slice rest 1 5}"

def systemHost : IO (Host IO) := do
  let stdin ← IO.getStdin
  let stdout ← IO.getStdout
  let stderr ← IO.getStderr
  let begin ← IO.monoMsNow
  return {
    directory := (← IO.currentDir).toString
    isTerminal := ← stdin.isTty
    input := stdin.readToEnd
    read := fun path => guarded path (IO.FS.readFile path)
    write := fun path text => guarded path (IO.FS.writeFile path text)
    append := fun path text => guarded path do
      (← IO.FS.Handle.mk path .append).putStr text
    makeDirectory := fun path => guarded path (IO.FS.createDirAll path)
    out := stdout.putStr
    err := stderr.putStr
    now := do return (← Std.Time.PlainDateTime.now).format "uuuu-MM-dd HH:mm:ss,SSS"
    elapsed := do return seconds ((← IO.monoMsNow) - begin) }

end CommandLine
end ComponentCompiler

open ComponentCompiler in
def main (arguments : List String) : IO UInt32 := do
  match ← CommandLine.run (← CommandLine.systemHost) arguments with
  | .status code => return code.toUInt32
  | .fault e => throw (.userError e.message)
