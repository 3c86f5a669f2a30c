import ComponentCompiler.Token.Nested

/-!
This module contains the reading of whole texts and of windows of them into tokens, and of single
constructs at an offset.
-/

namespace ComponentCompiler
namespace Token

/-- The tokens that start before offset `stop`, reading on from offset `pos`. A token, or a comment
between tokens, may reach past `stop`. -/
def scanFrom (stop : Nat) : Nat → Nat → Bool → List Char → Except ScanError (List Token)
  | 0, _, _, _ => .ok []
  | n + 1, pos, operand, cs =>
    match afterGap false cs with
    | .error fault =>
      if stop ≤ pos + (cs.length - fault.left) then .ok []
      else .error (fault.toError pos cs.length)
    | .ok (newline, rest) =>
      let start := pos + (cs.length - rest.length)
      if stop ≤ start then
        .ok []
      else
        match rest with
        | [] => .error .pastEnd
        | c :: more =>
          match lexeme (templateRest rest.length) (markupRest rest.length) operand c more with
          | .error fault => .error (fault.toError start rest.length)
          | .ok (kind, after) => do
            let value := taken rest after
            let token := ⟨kind, value, start, start + (rest.length - after.length), newline⟩
            let tokens ← scanFrom stop n token.stop (operandAfter kind value) after
            return token :: tokens

/-- The tokens of `text` that start from offset `start` on and before `stop`. -/
def scanWindow (text : String) (start stop : Nat) : Except ScanError (List Token) :=
  let cs := text.toList.drop start
  scanFrom stop (cs.length + 1) start true cs

def scan (text : String) : Except ScanError (List Token) :=
  scanWindow text 0 text.length

/-! ### Single constructs

Each function returns the offset past the construct at `pos`. -/

/-- Splits off the character at `pos`, with the number of characters from there on. -/
def charAt (text : String) (pos : Nat) : Except ScanError (Char × List Char × Nat) :=
  match text.toList.drop pos with
  | [] => .error .pastEnd
  | c :: cs => .ok (c, cs, cs.length + 1)

def offsetOf (text : String) (rest : List Char) : Nat :=
  text.length - rest.length

def skipString (text : String) (pos : Nat) : Except ScanError Nat := do
  let (quote, cs, _) ← charAt text pos
  match stringRest? quote cs with
  | some rest => return offsetOf text rest
  | none => throw (.problem .unclosedString pos)

def skipAttributeString (text : String) (pos : Nat) : Except ScanError Nat := do
  let (quote, cs, _) ← charAt text pos
  match attributeStringRest? quote cs with
  | some rest => return offsetOf text rest
  | none => throw (.problem .unclosedString pos)

def skipTemplate (text : String) (pos : Nat) : Except ScanError Nat :=
  let cs := text.toList.drop (pos + 1)
  match templateRest (cs.length + 1) (cs.length + 1) cs with
  | .ok rest => .ok (offsetOf text rest)
  | .error fault => .error (fault.toError pos (cs.length + 1))

def skipLineComment (text : String) (pos : Nat) : Nat :=
  offsetOf text (lineCommentRest (text.toList.drop pos))

def skipBlockComment (text : String) (pos : Nat) : Except ScanError Nat :=
  match blockCommentRest? (text.toList.drop (pos + 2)) with
  | some rest => .ok (offsetOf text rest)
  | none => .error (.problem .unclosedComment pos)

def skipRegex (text : String) (pos : Nat) : Except ScanError Nat :=
  match regexRest? false (text.toList.drop (pos + 1)) with
  | some rest => .ok (offsetOf text rest)
  | none => .error (.problem .unclosedRegex pos)

def skipGroup (text : String) (pos : Nat) : Except ScanError Nat := do
  let (c, cs, left) ← charAt text pos
  match Bracket.ofOpening? c with
  | none => throw (.notBracket c)
  | some bracket =>
    match groupRest (cs.length + 1) bracket left [] true cs with
    | .ok rest => return offsetOf text rest
    | .error fault => throw (fault.toError pos left)

/-- White space ends where it starts if there is none. -/
def skipBlank (text : String) (pos : Nat) : Nat :=
  pos + ((text.toList.drop pos).takeWhile Text.isBlank).length

/-- Reads markup at `pos`: the ranges of the slots that belong to it, and the offset past it. -/
def readMarkup (text : String) (pos : Nat) : Except ScanError (List (Nat × Nat) × Nat) :=
  let cs := text.toList.drop (pos + 1)
  match markupRest (cs.length + 1) (cs.length + 1) cs with
  | .ok (slots, rest) =>
    let length := text.length
    .ok (slots.map fun s => (length - s.startLeft, length - s.stopLeft), offsetOf text rest)
  | .error fault => .error (fault.toError pos (cs.length + 1))

def skipMarkup (text : String) (pos : Nat) : Except ScanError Nat :=
  (·.2) <$> readMarkup text pos

/-- The ranges between the brackets of the slots that belong to the markup at `pos`: attribute
values, spreads and children, but not those of markup inside a slot. -/
def markupSlots (text : String) (pos : Nat) : Except ScanError (List (Nat × Nat)) :=
  (·.1) <$> readMarkup text pos

end Token
end ComponentCompiler
