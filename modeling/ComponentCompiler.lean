import ComponentCompiler.Editor
import ComponentCompiler.Host.Folder
import ComponentCompiler.Main
import ComponentCompiler.Proofs.Builder.Conditional
import ComponentCompiler.Proofs.Builder.Indentation
import ComponentCompiler.Proofs.Builder.Literal
import ComponentCompiler.Proofs.Builder.Loop
import ComponentCompiler.Proofs.Consistency
import ComponentCompiler.Proofs.Document.Body
import ComponentCompiler.Proofs.Markup.Listing
import ComponentCompiler.Proofs.Name.Layout
import ComponentCompiler.Proofs.Name.Pattern
import ComponentCompiler.Proofs.Output.Binding
import ComponentCompiler.Proofs.Output.Markup
import ComponentCompiler.Proofs.Page.Leading
import ComponentCompiler.Proofs.Scope.Fixed
import ComponentCompiler.Proofs.Scope.Main
import ComponentCompiler.Proofs.Scope.Unreachable
import ComponentCompiler.Proofs.Snippet.Callback
import ComponentCompiler.Proofs.Token.Advance
import ComponentCompiler.Proofs.View.Chain
import ComponentCompiler.Proofs.View.Descent
import ComponentCompiler.Proofs.View.Idiom
import ComponentCompiler.Proofs.View.Ternary
