import ComponentCompiler.Compilation

/-!
This module contains the arguments of the command line. Options may stand before or after the files;
files stand together, and whatever can not be placed is refused.
-/

namespace ComponentCompiler
namespace CommandLine

/-- Where the log goes besides the console. -/
inductive LogFile where
  | none
  | at (path : String)
  /-- A log file is asked for, but not named. -/
  | nameless
  deriving DecidableEq, Repr

structure Settings where
  files : List String := []
  output : Option String := none
  stop : Option Stage := none
  verbose : Bool := false
  logFile : LogFile := .none
  deriving DecidableEq, Repr

inductive Flag where
  | help
  | output
  | compile
  | verbose
  | logFile
  deriving DecidableEq, Repr

namespace Flag

def all : List Flag :=
  [help, output, compile, verbose, logFile]

def takesValue : Flag → Bool
  | output | compile | logFile => true
  | help | verbose => false

def letter? : Flag → Option Char
  | help => some 'h'
  | output => some 'o'
  | compile => some 'c'
  | verbose => some 'v'
  | logFile => none

def long : Flag → String
  | help => "--help"
  | output => "--output"
  | compile => "--compile"
  | verbose => "--verbose"
  | logFile => "--log-file"

def label (f : Flag) : String :=
  match f.letter? with
  | some c => s!"-{c}/{f.long}"
  | none => f.long

def ofLetter? (c : Char) : Option Flag :=
  all.find? (·.letter? == some c)

def ofLong? (name : String) : Option Flag :=
  all.find? (·.long == name)

end Flag

inductive ArgumentError where
  | invalidChoice (value : String)
  | missingValue (flag : Flag)
  | unusedValue (flag : Flag) (value : String)
  | ambiguous (word : String) (candidates : List Flag)
  | unrecognized (words : List String)
  | noInput
  | severalInputs
  deriving DecidableEq, Repr

def ArgumentError.message : ArgumentError → String
  | invalidChoice value =>
    s!"argument {Flag.compile.label}: invalid choice: {Text.quoted value} " ++
      "(choose from '1', '2', '3')"
  | missingValue flag => s!"argument {flag.label}: expected one argument"
  | unusedValue flag value =>
    s!"argument {flag.label}: ignored explicit argument {Text.quoted value}"
  | ambiguous word candidates =>
    s!"ambiguous option: {word} could match {Builder.commas (candidates.map Flag.long)}"
  | unrecognized words => "unrecognized arguments: " ++ String.intercalate " " words
  | noInput => "input_files are required when not reading from a pipe."
  | severalInputs => "-o/--output can only be used with a single input file."

inductive Refusal where
  | help
  | error (e : ArgumentError)
  deriving DecidableEq, Repr

inductive Word where
  | plain (text : String)
  /-- The mark `--`, after which there are no options. -/
  | divider
  /-- A flag, maybe with a value in the same word. -/
  | option (flag : Flag) (isShort : Bool) (value : Option String)
  | unknown (text : String)
  deriving DecidableEq, Repr

def flag? (word : List Char) : Option (Flag × Bool) :=
  match word with
  | ['-', c] => (Flag.ofLetter? c).map (·, true)
  | _ => (Flag.ofLong? (String.ofList word)).map (·, false)

/-- Digits, perhaps with a point before the last of them, and perhaps a line break. -/
def isNumeral (cs : List Char) : Bool :=
  let cs := if cs.getLast? = some '\n' then cs.dropLast else cs
  match Text.splitOnP (· == '.') cs with
  | [digits] => !digits.isEmpty && digits.all Text.isDigit
  | [before, digits] => before.all Text.isDigit && !digits.isEmpty && digits.all Text.isDigit
  | _ => false

/-- A word that starts with a dash and is no option: a negative number or a text with blanks is not
meant as one. -/
def Word.ofStranger (word : List Char) : Word :=
  if isNumeral (word.drop 1) || word.contains ' ' then .plain (String.ofList word)
  else .unknown (String.ofList word)

def afterEquals? (word : List Char) : Option String :=
  match word.dropWhile (· ≠ '=') with
  | [] => none
  | _ :: value => some (String.ofList value)

/-- A word with two dashes names a flag by any start of its name that no other flag has. -/
def Word.ofLong (word : List Char) : Except ArgumentError Word :=
  let name := word.takeWhile (· ≠ '=')
  match Flag.all.filter fun f => name.isPrefixOf f.long.toList with
  | [] => .ok (.ofStranger word)
  | [flag] => .ok (.option flag false (afterEquals? word))
  | candidates => .error (.ambiguous (String.ofList word) candidates)

def Word.of (word : List Char) : Except ArgumentError Word :=
  match word with
  | '-' :: second :: rest =>
    match flag? word, flag? (word.takeWhile (· ≠ '=')), afterEquals? word with
    | some (flag, isShort), _, _ => .ok (.option flag isShort none)
    | none, some (flag, isShort), some value => .ok (.option flag isShort (some value))
    | none, _, _ =>
      if second = '-' then
        Word.ofLong word
      else
        match Flag.ofLetter? second with
        | some flag => .ok (.option flag true (some (String.ofList rest)))
        | none => .ok (.ofStranger word)
  | _ => .ok (.plain (String.ofList word))

def Word.ofAll : List String → Except ArgumentError (List Word)
  | [] => .ok []
  | word :: words =>
    if word = "--" then
      .ok (.divider :: words.map .plain)
    else do
      let first ← Word.of word.toList
      return first :: (← Word.ofAll words)

/-- The flags in one word: those with their values, and one that still needs the next word. -/
structure Expansion where
  flags : List (Flag × String) := []
  pending : Option Flag := none
  deriving DecidableEq, Repr

def Expansion.cons (flag : Flag) (e : Expansion) : Expansion :=
  { e with flags := (flag, "") :: e.flags }

def Expansion.single (flag : Flag) : Expansion :=
  if flag.takesValue then { pending := some flag } else { flags := [(flag, "")] }

/-- The flags of a word with one dash, of which the first is known. What follows a flag is its value
if it takes one, and another flag otherwise. -/
def Expansion.ofLetters (flag : Flag) : List Char → Except ArgumentError Expansion
  | [] => if flag.takesValue then .ok { flags := [(flag, "")] } else .error (.unusedValue flag "")
  | c :: rest =>
    if flag.takesValue then
      .ok { flags := [(flag, String.ofList (c :: rest))] }
    else
      match Flag.ofLetter? c with
      | none => .error (.unusedValue flag (String.ofList (c :: rest)))
      | some next =>
        if rest.isEmpty then .ok (.cons flag (.single next))
        else return .cons flag (← ofLetters next rest)

def Expansion.of (flag : Flag) (isShort : Bool) (value : Option String) :
    Except ArgumentError Expansion :=
  match value with
  | none => .ok (.single flag)
  | some value =>
    if isShort then Expansion.ofLetters flag value.toList
    else if flag.takesValue then .ok { flags := [(flag, value)] }
    else .error (.unusedValue flag value)

def stageOf? (number : String) : Option Stage :=
  match number with
  | "1" => some .document
  | "2" => some .scopes
  | "3" => some .markup
  | _ => none

/-- Sets what a flag stands for. The mark `--` as a value takes back what was set before. -/
def Settings.set (s : Settings) (flag : Flag) (value : String) : Except Refusal Settings :=
  match flag with
  | .help => .error .help
  | .verbose => .ok { s with verbose := true }
  | .output => .ok { s with output := if value = "--" then none else some value }
  | .logFile => .ok { s with logFile := if value = "--" then .nameless else .at value }
  | .compile =>
    match stageOf? value with
    | some stage => .ok { s with stop := some stage }
    | none =>
      if value = "--" then .ok { s with stop := none } else .error (.error (.invalidChoice value))

def Settings.setAll (s : Settings) (flags : List (Flag × String)) : Except Refusal Settings :=
  flags.foldlM (fun s (flag, value) => s.set flag value) s

/-- Where the reading of the arguments is with respect to the files. -/
inductive Position where
  | beforeFiles
  | inFiles
  | afterFiles
  deriving DecidableEq, Repr

structure Reading where
  settings : Settings := {}
  position : Position := .beforeFiles
  extras : List String := []
  deriving DecidableEq, Repr

namespace Reading

def addFile (r : Reading) (text : String) : Reading :=
  { r with
    settings := { r.settings with files := r.settings.files ++ [text] }, position := .inFiles }

def addExtras (r : Reading) (words : List String) : Reading :=
  { r with extras := r.extras ++ words }

def leave (r : Reading) : Reading :=
  if r.position = .inFiles then { r with position := .afterFiles } else r

def setAll (r : Reading) (flags : List (Flag × String)) : Except Refusal Reading := do
  return { r with settings := ← r.settings.setAll flags }

def read : List Word → Reading → Except Refusal Reading
  | [], r => .ok r
  | .plain text :: words, r =>
    if r.position = .afterFiles then read words (r.addExtras [text])
    else read words (r.addFile text)
  | .divider :: words, r =>
    if r.position = .afterFiles then read words (r.addExtras ["--"])
    else read words { r with position := .inFiles }
  | .unknown text :: words, r => read words (r.leave.addExtras [text])
  | .option flag isShort value :: words, r => do
    let e ← (Expansion.of flag isShort value).mapError .error
    match e.pending with
    | none => read words (← r.leave.setAll e.flags)
    | some pending =>
      match words with
      | .plain text :: words => read words (← r.leave.setAll (e.flags ++ [(pending, text)]))
      | _ => throw (.error (.missingValue pending))

end Reading

/-- Reads the arguments; with a terminal as input, a file has to be named. -/
def Settings.ofArguments (arguments : List String) (isTerminal : Bool) :
    Except Refusal Settings := do
  let words ← (Word.ofAll arguments).mapError .error
  let r ← Reading.read words {}
  let s := r.settings
  if !r.extras.isEmpty then
    throw (.error (.unrecognized r.extras))
  if s.files.isEmpty && isTerminal then
    throw (.error .noInput)
  if (s.output.getD "") ≠ "" && 1 < s.files.length then
    throw (.error .severalInputs)
  return s

end CommandLine
end ComponentCompiler
