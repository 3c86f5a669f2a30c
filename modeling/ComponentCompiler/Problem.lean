import ComponentCompiler.Span

/-!
This module contains everything that can be wrong with a component file, each problem with its code,
its severity and its wording.
-/

namespace ComponentCompiler

inductive Area where
  | parse
  | scope
  | markup
  | codegen
  | internal
  deriving DecidableEq, Repr

def Area.name : Area → String
  | .parse => "ParseError"
  | .scope => "ScopeViolation"
  | .markup => "MarkupError"
  | .codegen => "CodegenFallback"
  | .internal => "InternalError"

inductive Severity where
  | error
  | warning
  deriving DecidableEq, Repr

def Severity.name : Severity → String
  | .error => "error"
  | .warning => "warning"

inductive Problem where
  | unmatchedBracket (bracket : String)
  | unclosedBracket (bracket : String)
  | unclosedString
  | unclosedTemplate
  | unclosedComment
  | unclosedRegex
  | malformedMarkup (details : String)
  | mismatchedTag (found expected : String)
  | unexpectedToken (details : String)
  | invalidCharacter (char : String)
  | generalParse (details : String)
  | noComponent
  | multipleDefaultExports (first second : String)
  | pageNotDefault (names : String)
  | returnOutsideFunction
  | uiReference (symbol component owner : String)
  | dependencyCycle (cycle : String)
  | exportRelocated (symbol : String)
  | unreachablePageSymbol (symbol page component : String)
  | orphanConditional (helper : String)
  | malformedHelper (helper details : String)
  | missingKey (source : String)
  | nonReactiveEach (source : String)
  | unsupportedExpression (expression : String)
  | markupOutsideReturn (component : String)
  | componentChildren (component : String)
  | internal (details : String)
  deriving DecidableEq, Repr

namespace Problem

def code : Problem → String
  | unmatchedBracket _ => "PARSE_UNMATCHED_BRACKET"
  | unclosedBracket _ => "PARSE_UNCLOSED_BRACKET"
  | unclosedString => "PARSE_UNCLOSED_STRING"
  | unclosedTemplate => "PARSE_UNCLOSED_TEMPLATE"
  | unclosedComment => "PARSE_UNCLOSED_COMMENT"
  | unclosedRegex => "PARSE_UNCLOSED_REGEX"
  | malformedMarkup _ => "PARSE_MALFORMED_MARKUP"
  | mismatchedTag _ _ => "PARSE_MISMATCHED_TAG"
  | unexpectedToken _ => "PARSE_UNEXPECTED_TOKEN"
  | invalidCharacter _ => "PARSE_INVALID_CHARACTER"
  | generalParse _ => "PARSE_GENERAL_ERROR"
  | noComponent => "PARSE_NO_COMPONENT"
  | multipleDefaultExports _ _ => "PARSE_MULTIPLE_DEFAULT_EXPORTS"
  | pageNotDefault _ => "PARSE_PAGE_NOT_DEFAULT"
  | returnOutsideFunction => "PARSE_RETURN_OUTSIDE_FUNCTION"
  | uiReference _ _ _ => "SCOPE_UI_REFERENCE"
  | dependencyCycle _ => "SCOPE_DEPENDENCY_CYCLE"
  | exportRelocated _ => "SCOPE_EXPORT_RELOCATED"
  | unreachablePageSymbol _ _ _ => "SCOPE_UNREACHABLE_PAGE_SYMBOL"
  | orphanConditional _ => "MARKUP_ORPHAN_CONDITIONAL"
  | malformedHelper _ _ => "MARKUP_MALFORMED_HELPER"
  | missingKey _ => "MARKUP_MISSING_KEY"
  | nonReactiveEach _ => "MARKUP_NON_REACTIVE_EACH"
  | unsupportedExpression _ => "CODEGEN_UNSUPPORTED_EXPRESSION"
  | markupOutsideReturn _ => "CODEGEN_MARKUP_OUTSIDE_RETURN"
  | componentChildren _ => "CODEGEN_COMPONENT_CHILDREN"
  | internal _ => "INTERNAL_ERROR"

def area : Problem → Area
  | uiReference _ _ _ | dependencyCycle _ | exportRelocated _ | unreachablePageSymbol _ _ _ =>
    .scope
  | orphanConditional _ | malformedHelper _ _ | missingKey _ | nonReactiveEach _ => .markup
  | unsupportedExpression _ | markupOutsideReturn _ | componentChildren _ => .codegen
  | internal _ => .internal
  | _ => .parse

def severity : Problem → Severity
  | dependencyCycle _ | exportRelocated _ | missingKey _ | nonReactiveEach _
  | unsupportedExpression _ | markupOutsideReturn _ | componentChildren _ => .warning
  | _ => .error

def message : Problem → String
  | unmatchedBracket bracket => s!"Syntax Error: Unmatched closing bracket '{bracket}'."
  | unclosedBracket bracket => s!"Syntax Error: Bracket '{bracket}' was never closed."
  | unclosedString => "Syntax Error: Unclosed string literal."
  | unclosedTemplate => "Syntax Error: Unclosed template literal."
  | unclosedComment => "Syntax Error: Unclosed block comment."
  | unclosedRegex => "Syntax Error: Unclosed regular expression literal."
  | malformedMarkup details => s!"Syntax Error: Malformed markup. {details}"
  | mismatchedTag found expected =>
    s!"Syntax Error: Closing tag '</{found}>' does not match the open tag '<{expected}>'."
  | unexpectedToken details => s!"Syntax Error: Invalid syntax. {details}"
  | invalidCharacter char => s!"Syntax Error: Invalid character '{char}' found."
  | generalParse details =>
    s!"Syntax Error: A general parsing error occurred. Details: {details}"
  | noComponent =>
    "No component found. A component file must declare a function that returns markup."
  | multipleDefaultExports first second =>
    s!"Multiple default exports found ('{first}' and '{second}'). " ++
      "Only one component can be the default export."
  | pageNotDefault names =>
    "The @page directive needs a default-exported component, but no default export was found " ++
      s!"(components: {names})."
  | returnOutsideFunction => "'return' is only allowed inside a function."
  | uiReference symbol component owner =>
    s!"'{symbol}' is declared inside component '{component}' and is not visible to " ++
      s!"the top-level declaration '{owner}'."
  | dependencyCycle cycle =>
    s!"Declarations {cycle} reference each other and are emitted in their original order."
  | exportRelocated symbol =>
    s!"The 'export' of '{symbol}' was dropped because " ++
      "page declarations are moved into the page function."
  | unreachablePageSymbol symbol page component =>
    s!"'{symbol}' is declared in the page function of '{page}', " ++
      s!"which component '{component}' cannot reach from module level."
  | orphanConditional helper =>
    s!"'{helper}' must directly follow a $if or $elseif call; the conditional chain is broken."
  | malformedHelper helper details => s!"Malformed call to '{helper}': {details}"
  | missingKey source =>
    s!"The list rendered from '{source}' has no key. " ++
      "Items fall back to their index and keep no stable identity across reorders."
  | nonReactiveEach source =>
    s!"'$each' expects a reactive container but '{source}' is not one; a static loop is generated."
  | unsupportedExpression expression =>
    s!"The markup expression '{expression}' cannot be compiled and is emitted as inert text."
  | markupOutsideReturn component =>
    s!"Markup outside the returned tree of '{component}' is emitted as written and is not compiled."
  | componentChildren component =>
    s!"The children of component '{component}' are not passed to it and were dropped."
  | internal details => s!"Internal compiler error: {details}"

/-- Why a problem cannot be made from its code and named details. -/
inductive LookupError where
  | unknownCode (code : String)
  | missingDetail (name : String)
  deriving DecidableEq, Repr

/-- The problem with a given code. Its details are looked up by name in the order in which the
wording shows them; other details are ignored. -/
def ofDetails? (code : String) (details : List (String × String)) : Except LookupError Problem :=
  match code with
  | "PARSE_UNMATCHED_BRACKET" => return unmatchedBracket (← detail "char")
  | "PARSE_UNCLOSED_BRACKET" => return unclosedBracket (← detail "char")
  | "PARSE_UNCLOSED_STRING" => return unclosedString
  | "PARSE_UNCLOSED_TEMPLATE" => return unclosedTemplate
  | "PARSE_UNCLOSED_COMMENT" => return unclosedComment
  | "PARSE_UNCLOSED_REGEX" => return unclosedRegex
  | "PARSE_MALFORMED_MARKUP" => return malformedMarkup (← detail "details")
  | "PARSE_MISMATCHED_TAG" => return mismatchedTag (← detail "found") (← detail "expected")
  | "PARSE_UNEXPECTED_TOKEN" => return unexpectedToken (← detail "details")
  | "PARSE_INVALID_CHARACTER" => return invalidCharacter (← detail "char")
  | "PARSE_GENERAL_ERROR" => return generalParse (← detail "details")
  | "PARSE_NO_COMPONENT" => return noComponent
  | "PARSE_MULTIPLE_DEFAULT_EXPORTS" =>
    return multipleDefaultExports (← detail "first") (← detail "second")
  | "PARSE_PAGE_NOT_DEFAULT" => return pageNotDefault (← detail "names")
  | "PARSE_RETURN_OUTSIDE_FUNCTION" => return returnOutsideFunction
  | "SCOPE_UI_REFERENCE" =>
    return uiReference (← detail "symbol") (← detail "component") (← detail "owner")
  | "SCOPE_DEPENDENCY_CYCLE" => return dependencyCycle (← detail "cycle")
  | "SCOPE_EXPORT_RELOCATED" => return exportRelocated (← detail "symbol")
  | "SCOPE_UNREACHABLE_PAGE_SYMBOL" =>
    return unreachablePageSymbol (← detail "symbol") (← detail "page") (← detail "component")
  | "MARKUP_ORPHAN_CONDITIONAL" => return orphanConditional (← detail "helper")
  | "MARKUP_MALFORMED_HELPER" => return malformedHelper (← detail "helper") (← detail "details")
  | "MARKUP_MISSING_KEY" => return missingKey (← detail "source")
  | "MARKUP_NON_REACTIVE_EACH" => return nonReactiveEach (← detail "source")
  | "CODEGEN_UNSUPPORTED_EXPRESSION" => return unsupportedExpression (← detail "expression")
  | "CODEGEN_MARKUP_OUTSIDE_RETURN" => return markupOutsideReturn (← detail "component")
  | "CODEGEN_COMPONENT_CHILDREN" => return componentChildren (← detail "component")
  | "INTERNAL_ERROR" => return internal (← detail "details")
  | other => .error (.unknownCode other)
where
  detail (name : String) : Except LookupError String :=
    match details.lookup name with
    | some value => .ok value
    | none => .error (.missingDetail name)

end Problem
end ComponentCompiler
