import ComponentCompiler.Compilation
import ComponentCompiler.Proofs.Success

/-!
This module contains what the code of a compilation comes from. There is code only if every stage
has a result, and then the reports of the stages are all that is reported.
-/

namespace ComponentCompiler
namespace Compilation

variable {r : Request} {c : Compilation} {text : String}

/-- The results of the four stages. -/
structure Compiled (r : Request) (document : Document) (doc : Scope.Scoped)
    (views : List View.Component) (m : Output.Module) : Prop where
  parse : Document.parse r.source r.file = .ok document
  analyse : Scope.analyse document (.of document.metadata) = .ok doc
  analyseAll : View.analyseAll document = (views, none)
  generate : Output.generate doc (View.byName views) doc.metadata = .ok m

theorem code_fail_ne {failure : Failure} (hc : c.code = none) :
    (c.fail r failure).code ≠ some text := by
  have hfail : (c.fail r failure).code = c.code := by
    unfold fail
    split <;> rfl
  rw [hfail, hc]
  simp

theorem complete_code (hc : c.code = none)
    (h : (c.complete r stage entries artifact next).code = some text) :
    ∃ c', c.complete r stage entries artifact next = next c' ∧ c'.code = none ∧
      c'.diagnostics = c.diagnostics := by
  unfold complete at h ⊢
  dsimp only at h ⊢
  split at h
  . next hsaved =>
    rw [if_pos hsaved]
    exact ⟨_, rfl, hc, rfl⟩
  . next hsaved =>
    rw [if_neg hsaved]
    split at h
    . exact absurd h (code_fail_ne hc)
    . next hnull =>
      rw [if_neg hnull]
      exact ⟨_, rfl, hc, rfl⟩

theorem generateStage_code {doc : Scope.Scoped} {named : Output.Views} (hc : c.code = none)
    (h : (c.generateStage r doc named).code = some text) :
    ∃ m, Output.generate doc named doc.metadata = .ok m ∧ text = m.code ∧
      (c.generateStage r doc named).diagnostics = c.diagnostics ++ m.diagnostics := by
  unfold generateStage at h ⊢
  split at h
  . exact absurd h (code_fail_ne hc)
  . next m hm =>
    obtain ⟨c', hnext, hc', hdiagnostics⟩ := complete_code hc h
    rw [hnext] at h ⊢
    refine ⟨m, hm, Option.some.inj h.symm, ?_⟩
    rw [← hdiagnostics]
    rfl

theorem markupStage_code {document : Document} {doc : Scope.Scoped} (hc : c.code = none)
    (h : (c.markupStage r document doc).code = some text) :
    ∃ views m, View.analyseAll document = (views, none) ∧
      Output.generate doc (View.byName views) doc.metadata = .ok m ∧
      text = m.code ∧ (c.markupStage r document doc).diagnostics
        =
        c.diagnostics ++ (View.byName views).flatMap (·.2.diagnostics) ++ m.diagnostics := by
  unfold markupStage at h ⊢
  split at h
  next views failure hviews =>
  dsimp only at h ⊢
  split at h
  . exact absurd h (code_fail_ne hc)
  . obtain ⟨c', hnext, hc', hdiagnostics⟩ := complete_code hc h
    rw [hnext] at h ⊢
    split at h
    . exact absurd (hc'.symm.trans h) (by simp)
    . next hstop =>
      rw [if_neg hstop]
      obtain ⟨m, hm, hcode, hreported⟩ := generateStage_code (c := c'.report _) hc' h
      refine ⟨views, m, hviews, hm, hcode, ?_⟩
      rw [hreported, ← hdiagnostics]
      rfl

theorem scopesStage_code {document : Document} (hc : c.code = none)
    (h : (c.scopesStage r document).code = some text) :
    ∃ doc views m, Scope.analyse document (.of document.metadata) = .ok doc ∧
      View.analyseAll document = (views, none) ∧
      Output.generate doc (View.byName views) doc.metadata = .ok m ∧ text = m.code ∧
      (c.scopesStage r document).diagnostics
        =
        c.diagnostics ++ doc.diagnostics ++ (View.byName views).flatMap
          (·.2.diagnostics) ++ m.diagnostics := by
  unfold scopesStage at h ⊢
  split at h
  . exact absurd h (code_fail_ne hc)
  . next doc hdoc =>
    obtain ⟨c', hnext, hc', hdiagnostics⟩ := complete_code hc h
    rw [hnext] at h ⊢
    dsimp only at h ⊢
    split at h
    . exact absurd (hc'.symm.trans h) (by simp)
    . next hstop =>
      rw [if_neg hstop]
      obtain ⟨views, m, hviews, hm, hcode, hreported⟩ := markupStage_code (c := c'.report _) hc' h
      refine ⟨doc, views, m, hdoc, hviews, hm, hcode, ?_⟩
      rw [hreported, ← hdiagnostics]
      rfl

theorem exists_compiled (h : (run r).code = some text) :
    ∃ document doc views m, Compiled r document doc views m ∧ text = m.code ∧
      (run r).diagnostics
        =
        doc.diagnostics ++ (View.byName views).flatMap (·.2.diagnostics) ++ m.diagnostics := by
  change (documentStage r {}).code = some text at h
  change ∃ document doc views m, _ ∧ _ ∧ (documentStage r {}).diagnostics = _
  unfold documentStage at h ⊢
  split at h
  . exact absurd h (code_fail_ne rfl)
  . next document hdocument =>
    obtain ⟨c', hnext, hc', hdiagnostics⟩ := complete_code rfl h
    rw [hnext] at h ⊢
    split at h
    . exact absurd (hc'.symm.trans h) (by simp)
    . next hstop =>
      rw [if_neg hstop]
      obtain ⟨doc, views, m, hdoc, hviews, hm, hcode, hreported⟩ := scopesStage_code hc' h
      refine ⟨document, doc, views, m, ⟨hdocument, hdoc, hviews, hm⟩, hcode, ?_⟩
      rw [hreported, hdiagnostics]
      rfl

/-- A comment that ends a slot takes the rest of its line with it, and the code can not be read
again. -/
theorem code_comment_in_slot :
    ∃ code,
      (run
        { source := "export default function A() \x7b\n  return <p>\x7bx // note\n\x7d</p>\n\x7d\n",
          file := "A.tsx" }).code
        =
        some code ∧
      ¬ ∃ statements, Statement.parse code "A.tsx" = .ok statements := by
  have hcheck : ((run
      { source := "export default function A() \x7b\n  return <p>\x7bx // note\n\x7d</p>\n\x7d\n",
        file := "A.tsx" }).code.any
        fun code => !(Statement.parse code "A.tsx").isOk) = true := by
    decide +kernel
  revert hcheck
  cases (run
    { source := "export default function A() \x7b\n  return <p>\x7bx // note\n\x7d</p>\n\x7d\n",
      file := "A.tsx" }).code with
  | none => simp
  | some code =>
    intro hcheck
    refine ⟨code, rfl, ?_⟩
    rintro ⟨statements, hparse⟩
    rw [Option.any_some, hparse] at hcheck
    cases hcheck

/-- A file with a default export, whose code has none: the function is no component. -/
theorem code_without_default :
    let r : Request :=
      { source :=
        "export default function helper() \x7b return 1 \x7d\nfunction A() \x7b return <p /> \x7d\n", file := "<stdin>" }
    ∃ statements code written, (Page.Metadata.ofText r.source).isPage = false ∧
      Statement.parse r.source r.file = .ok statements ∧
      (∃ statement ∈ statements, statement.isDefault = true) ∧
      (run r).code = some code ∧ Statement.parse code r.file = .ok written ∧
      ∀ statement ∈ written, statement.isDefault = false := by
  intro r
  have hpage : (Page.Metadata.ofText r.source).isPage = false := by decide +kernel
  have hsource : ((Statement.parse r.source r.file).toOption.any fun statements =>
      statements.any (·.isDefault)) = true := by
    decide +kernel
  have hcode :
      ((run r).code.any fun code => (Statement.parse code r.file).toOption.any fun written =>
      written.all (!·.isDefault)) = true := by
    decide +kernel
  obtain ⟨statements, hstatements, hdefault⟩ := exists_ok_of_any hsource
  obtain ⟨code, hcode, hwritten⟩ := (Option.any_eq_true _ _).mp hcode
  obtain ⟨written, hparse, hnone⟩ := exists_ok_of_any hwritten
  refine ⟨statements, code, written, hpage, hstatements, List.any_eq_true.mp hdefault, hcode,
    hparse, ?_⟩
  simpa using hnone

end Compilation
end ComponentCompiler
