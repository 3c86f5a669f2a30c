import ComponentCompiler.Output.Module
import ComponentCompiler.Proofs.Success

/-!
This module contains what the text of a generated module consists of: its layout is that of the
scopes of the document, and up to empty lines it is the lines of the imports, the blocks, the
functions and the statements that are passed on.
-/

namespace ComponentCompiler
namespace Writer

variable {w w' : Writer} {level : Nat} {lines : List String}

def dense (lines : List String) : List String :=
  lines.filter (· ≠ "")

theorem dense_append (first second : List String) :
    dense (first ++ second) = dense first ++ dense second :=
  List.filter_append ..

theorem indentAll_zero (lines : List String) : indentAll 0 lines = lines := by
  have hindent : indent 0 = id := by
    funext line
    simp [indent, eq_comm]
  rw [indentAll, hindent, List.map_id]

structure Writes (w w' : Writer) (lines : List String) : Prop where
  dense_eq : dense w'.lines = dense w.lines ++ dense lines
  level_eq : w'.level = w.level

namespace Writes

theorem refl (w : Writer) : Writes w w [] :=
  ⟨(List.append_nil _).symm, rfl⟩

theorem trans (h : Writes w w' first) (h' : Writes w' w'' second) :
    Writes w w'' (first ++ second) := by
  refine ⟨?_, h'.level_eq.trans h.level_eq⟩
  rw [h'.dense_eq, h.dense_eq, dense_append, List.append_assoc]

theorem writeAll (hlevel : w.level = level) (lines : List String) :
    Writes w (w.writeAll lines) (indentAll level lines) := by
  refine ⟨?_, rfl⟩
  rw [Writer.writeAll, hlevel, Int.toNat_natCast, dense_append]

theorem line (hlevel : w.level = level) (text : String) :
    Writes w (w.line text) (indentAll level [text]) :=
  writeAll hlevel [text]

theorem blank (w : Writer) : Writes w w.blank [] := by
  unfold Writer.blank
  split
  . exact refl w
  . exact refl w
  . exact ⟨by simp [dense], rfl⟩

theorem blank_unless (w : Writer) (b : Bool) : Writes w (if b then w else w.blank) [] := by
  cases b with
  | true => exact refl w
  | false => exact blank w

theorem indented {body : Writer → Writer} (hlevel : w.level = level)
    (h : ∀ w' : Writer, w'.level = (level + 1 : Nat) → Writes w' (body w') lines) :
    Writes w (w.indented body) lines := by
  refine ⟨(h { w with level := w.level + 1 } ?_).dense_eq, rfl⟩
  rw [hlevel]
  rfl

theorem foldl {step : Writer → α → Writer} {linesOf : α → List String}
    (h : ∀ (w : Writer) a, w.level = level → Writes w (step w a) (linesOf a))
    (hlevel : w.level = level)
    (items : List α) : Writes w (items.foldl step w) (items.flatMap linesOf) := by
  induction items generalizing w with
  | nil => exact refl w
  | cons a items ih =>
    have hstep := h w a hlevel
    exact hstep.trans (ih (hstep.level_eq.trans hlevel))

end Writes
end Writer

namespace Output

open Writer (Writes)

variable {doc : Scope.Scoped} {views : Views} {layout : Layout} {w : Writer}

def blockLines (level : Nat) (text : String) (b : Block) : List String :=
  Writer.indentAll level (Writer.outdent text b.span.startColumn)

theorem writes_sources {level : Nat} (hlevel : w.level = level) (text : Block → String)
    (blocks : List Block) :
    Writes w (blocks.foldl (fun w b => w.source (text b) b.span.startColumn) w)
      (blocks.flatMap fun b => blockLines level (text b) b) :=
  .foldl (fun _ b hw => .writeAll hw (Writer.outdent (text b) b.span.startColumn)) hlevel blocks

namespace Function

def contentLines (f : Function) : List String :=
  f.innerBlocks.flatMap (fun b => blockLines 2 b.source b) ++ Writer.indentAll 2
    (Builder.Code.linesAll f.code)

def bodyLines (f : Function) : List String :=
  f.outerBlocks.flatMap (fun b => blockLines 1 b.source b) ++
    Writer.indentAll 1 [s!"return Component({Builder.Code.callback} \x7b"] ++ f.contentLines ++
      Writer.indentAll 1 ["\x7d)"]

def lines (f : Function) : List String :=
  let parameters := Builder.commas (f.component.parameters.map (·.source))
  [s!"{f.header} {f.component.name}({parameters}) \x7b"] ++ f.bodyLines ++ ["\x7d"]

theorem writes_content (f : Function) (hlevel : w.level = (2 : Nat)) :
    Writes w (f.writeContent w) f.contentLines := by
  have hblocks := writes_sources hlevel (·.source) f.innerBlocks
  have hblank := hblocks.trans (.blank_unless _ (f.innerBlocks.isEmpty || f.view.isEmpty))
  have hcode := hblank.trans
    (.writeAll (hblank.level_eq.trans hlevel) (Builder.Code.linesAll f.code))
  rwa [List.append_nil] at hcode

theorem writes_body (f : Function) (hlevel : w.level = (1 : Nat)) :
    Writes w (f.writeBody w) f.bodyLines := by
  have hblocks := writes_sources hlevel (·.source) f.outerBlocks
  have hblank := hblocks.trans (.blank_unless _ f.outerBlocks.isEmpty)
  rw [List.append_nil] at hblank
  have hreturn := hblank.trans
    (.line (hblank.level_eq.trans hlevel) s!"return Component({Builder.Code.callback} \x7b")
  have hcontent := hreturn.trans
    (.indented (hreturn.level_eq.trans hlevel) fun w' hw' => f.writes_content hw')
  exact hcontent.trans (.line (hcontent.level_eq.trans hlevel) "\x7d)")

theorem writes (f : Function) (hlevel : w.level = (0 : Nat)) : Writes w (f.write w) f.lines := by
  let parameters := Builder.commas (f.component.parameters.map (·.source))
  have hheader := Writes.line hlevel s!"{f.header} {f.component.name}({parameters}) \x7b"
  have hbody := hheader.trans
    (.indented (hheader.level_eq.trans hlevel) fun w' hw' => f.writes_body hw')
  have hend := hbody.trans (.line (hbody.level_eq.trans hlevel) "\x7d")
  rwa [Writer.indentAll_zero, Writer.indentAll_zero] at hend

end Function

namespace Layout

def lines (l : Layout) : List String :=
  l.blocks.flatMap (fun b => blockLines 0 (exportedText b) b) ++
    l.functions.flatMap Function.lines ++
    l.statements.flatMap fun b => blockLines 0 b.source b

theorem writes_blocks (hlevel : w.level = (0 : Nat)) (blocks : List Block) :
    Writes w (writeBlocks blocks w) (blocks.flatMap fun b => blockLines 0 (exportedText b) b) := by
  unfold writeBlocks
  split
  next h =>
    rw [List.isEmpty_iff.mp h]
    exact .refl w
  next =>
    have hblank := (writes_sources hlevel exportedText blocks).trans (.blank _)
    rwa [List.append_nil] at hblank

theorem writes_functions (hlevel : w.level = (0 : Nat)) (functions : List Function) :
    Writes w (writeFunctions functions w) (functions.flatMap Function.lines) := by
  fun_induction writeFunctions functions w with
  | case1 w => exact .refl w
  | case2 f w =>
    rw [List.flatMap_singleton]
    exact f.writes hlevel
  | case3 f g functions w ih =>
    have hfirst := (f.writes hlevel).trans (.blank _)
    rw [List.append_nil] at hfirst
    exact hfirst.trans (ih (hfirst.level_eq.trans hlevel))

theorem writes_statements (hlevel : w.level = (0 : Nat)) (blocks : List Block) :
    Writes w (writeStatements blocks w) (blocks.flatMap fun b => blockLines 0 b.source b) := by
  unfold writeStatements
  split
  next h =>
    rw [List.isEmpty_iff.mp h]
    exact .refl w
  next =>
    have hblank := Writes.blank w
    exact hblank.trans (writes_sources (hblank.level_eq.trans hlevel) (·.source) blocks)

theorem writes_body (l : Layout) : Writes {} l.body l.lines := by
  have hblocks := writes_blocks (w := {}) rfl l.blocks
  have hfunctions := hblocks.trans (writes_functions hblocks.level_eq l.functions)
  exact hfunctions.trans (writes_statements hfunctions.level_eq l.statements)

/-- The code has the lines of the imports and of the layout, up to empty ones. -/
def WrittenAs (l : Layout) (declarations : List Import) (code : String) : Prop :=
  ∃ lines, code = Writer.text lines ∧
    Writer.dense lines = Writer.dense ((l.imports declarations).lines ++ l.lines)

theorem writtenAs_text (l : Layout) (declarations : List Import) :
    l.WrittenAs declarations (l.text declarations) := by
  refine ⟨_, rfl, ?_⟩
  have hlevel : ({} : Writer).level = (0 : Nat) := rfl
  have hheader := (Writes.writeAll hlevel (l.imports declarations).lines).trans (.blank _)
  rw [List.append_nil, Writer.indentAll_zero] at hheader
  rw [Writer.dense_append, Writer.dense_append]
  exact congrArg₂ (· ++ ·) hheader.dense_eq l.writes_body.dense_eq

end Layout

theorem viewOf_eq_ok {component : Component} {view : List View.Node} :
    viewOf views component = .ok view ↔ ∃ analysed, views.lookup component.name = some analysed ∧
      analysed.root = view := by
  unfold viewOf
  split
  next analysed h => simp [h]
  next h => simp [h]

def Function.frame (f : Function) : Component × List Block × List Block :=
  (f.component, f.outerBlocks, f.innerBlocks)

structure IsLayout (doc : Scope.Scoped) (views : Views) (layout : Layout) : Prop where
  blocks : layout.blocks = if doc.placement = .pageFunction then [] else doc.componentBlocks
  statements : layout.statements = doc.moduleStatements
  headers : ∀ f ∈ layout.functions,
    f.header ∈ ["function", "export function", "export default function"]
  frames : layout.functions.map Function.frame
    =
    (doc.main, if doc.placement = .pageFunction then doc.componentBlocks else [], doc.uiBlocks) ::
      doc.secondary.map fun s => (s.component, [], s.uiBlocks)
  views : ∀ f ∈ layout.functions, viewOf views f.component = .ok f.view

theorem secondaryFunction_ok {s : Scope.Secondary} (h : secondaryFunction views s = .ok f) :
    f.header = plainHeader s.component ∧ f.frame = (s.component, [], s.uiBlocks) ∧
      viewOf views f.component = .ok f.view := by
  simp only [secondaryFunction, bind_eq_ok, pure_eq_ok] at h
  obtain ⟨view, hview, rfl⟩ := h
  exact ⟨rfl, rfl, hview⟩

theorem plainHeader_mem (component : Component) :
    plainHeader component ∈ ["function", "export function", "export default function"] := by
  unfold plainHeader
  split <;> simp

theorem mainHeader_mem (doc : Scope.Scoped) :
    mainHeader doc ∈ ["function", "export function", "export default function"] := by
  unfold mainHeader
  split
  . simp
  . exact plainHeader_mem doc.main

theorem isLayout_of (h : Layout.of doc views = .ok layout) : IsLayout doc views layout := by
  simp only [Layout.of, mainFunction, bind_eq_ok, pure_eq_ok, mapM_eq_ok] at h
  obtain ⟨_, ⟨view, hview, rfl⟩, others, hothers, rfl⟩ := h
  replace hothers := hothers.imp fun _ _ hf => secondaryFunction_ok hf
  refine ⟨rfl, rfl, ?_, ?_, ?_⟩
  . rw [List.forall_mem_cons]
    refine ⟨mainHeader_mem doc, ?_⟩
    intro f hf
    obtain ⟨s, _, hheader, _⟩ := exists_left_of_forall₂ hothers hf
    rw [hheader]
    exact plainHeader_mem s.component
  . rw [List.map_cons, List.cons.injEq]
    refine ⟨rfl, ?_⟩
    generalize doc.secondary = secondary at hothers ⊢
    induction hothers with
    | nil => rfl
    | cons hf _ ih => rw [List.map_cons, List.map_cons, hf.2.1, ih]
  . intro f hf
    rcases List.mem_cons.mp hf with rfl | hf
    . exact hview
    . obtain ⟨s, _, hs⟩ := exists_left_of_forall₂ hothers hf
      exact hs.2.2

theorem IsLayout.components (h : IsLayout doc views layout) :
    layout.functions.map (·.component) = doc.main :: doc.secondary.map (·.component) := by
  have hcomponents := congrArg (List.map Prod.fst) h.frames
  simpa [Function.comp_def, Function.frame] using hcomponents

theorem IsLayout.frame_cases (h : IsLayout doc views layout) (hf : f ∈ layout.functions) :
    (f.component = doc.main ∧ f.innerBlocks = doc.uiBlocks ∧
      f.outerBlocks = if doc.placement = .pageFunction then doc.componentBlocks else []) ∨
    ∃ s ∈ doc.secondary, f.component = s.component ∧ f.innerBlocks = s.uiBlocks ∧
      f.outerBlocks = [] := by
  have hmem : f.frame ∈ layout.functions.map Function.frame := List.mem_map_of_mem hf
  rw [h.frames, List.mem_cons, List.mem_map] at hmem
  simp only [Function.frame, Prod.mk.injEq] at hmem
  rcases hmem with ⟨hmain, houter, hinner⟩ | ⟨s, hs, hsecondary, houter, hinner⟩
  . exact .inl ⟨hmain, hinner, houter⟩
  . exact .inr ⟨s, hs, hsecondary.symm, hinner.symm, houter.symm⟩

theorem exists_layout (h : generate doc views metadata = .ok m) :
    ∃ layout, Layout.of doc views = .ok layout ∧ m.code = layout.text doc.imports := by
  simp only [generate, bind_eq_ok, pure_eq_ok] at h
  obtain ⟨layout, hlayout, rfl⟩ := h
  exact ⟨layout, hlayout, rfl⟩

end Output
end ComponentCompiler
