import ComponentCompiler.Proofs.Success
import ComponentCompiler.View.Analysis

/-!
This module contains when two steps of an analysis go alike: they report alike, and either both
yield related results or both fail in related ways. Steps that are put together from such steps go
alike as well.
-/

namespace ComponentCompiler

namespace View
namespace Analysis

variable {E : Failure → Failure → Prop} {D : Diagnostic → Diagnostic → Prop}
variable {R : α → β → Prop} {S : γ → δ → Prop} {x : Analysis α} {y : Analysis β}

theorem run_bind (x : Analysis α) (f : α → Analysis β) (reports : List Diagnostic) :
    (x >>= f).run reports
      =
    match x.run reports with
    | (.ok a, reports) => (f a).run reports
    | (.error e, reports) => (.error e, reports) := by
  change ExceptT.bindCont f (x.run reports).1 (x.run reports).2 = _
  rw [← Prod.eta (x.run reports)]
  cases (x.run reports).1 with
  | ok a => rfl
  | error e => rfl

theorem run_bind_eq_ok {x : Analysis α} {f : α → Analysis β} {reports reports' : List Diagnostic} :
    (x >>= f).run reports = (.ok b, reports')
      ↔
    ∃ a between, x.run reports = (.ok a, between) ∧ (f a).run between = (.ok b, reports') := by
  rw [run_bind]
  rcases x.run reports with ⟨_ | a, between⟩
  . constructor
    . intro h
      cases h
    . rintro ⟨_, _, h, _⟩
      cases h
  . constructor
    . intro h
      exact ⟨a, between, rfl, h⟩
    . rintro ⟨_, _, h, hf⟩
      cases h
      exact hf

theorem run_pure_eq_ok {reports reports' : List Diagnostic} :
    (pure a : Analysis α).run reports = (.ok b, reports') ↔ a = b ∧ reports = reports' := by
  change (Except.ok a, reports) = (Except.ok b, reports') ↔ _
  simp

theorem run_lift (result : Except ScanError α) (reports : List Diagnostic) :
    (lift result).run reports = (result.mapError .scan, reports) := by
  cases result with
  | ok a => rfl
  | error e => rfl

theorem run_lift_eq_ok {result : Except ScanError α} {reports reports' : List Diagnostic} :
    (lift result).run reports = (.ok a, reports') ↔ result = .ok a ∧ reports = reports' := by
  rw [run_lift, Prod.mk.injEq, mapError_eq_ok]

theorem run_tryCatch (x : Analysis α) (handle : Failure → Analysis α) (reports : List Diagnostic) :
    (tryCatch x handle).run reports
      =
    match x.run reports with
    | (.ok a, reports) => (.ok a, reports)
    | (.error e, reports) => (handle e).run reports := by
  rcases h : x.run reports with ⟨result, rest⟩
  have hx : x reports = (result, rest) := h
  cases result with
  | ok a =>
    simp only [ExceptT.run, tryCatch, tryCatchThe, MonadExceptOf.tryCatch, ExceptT.tryCatch,
      ExceptT.mk, bind, StateT.bind, hx]
    rfl
  | error e =>
    simp only [ExceptT.run, tryCatch, tryCatchThe, MonadExceptOf.tryCatch, ExceptT.tryCatch,
      ExceptT.mk, bind, StateT.bind, hx]

def Related (E : Failure → Failure → Prop) (D : Diagnostic → Diagnostic → Prop) (R : α → β → Prop)
    (x : Analysis α) (y : Analysis β) : Prop :=
  ∀ reports reports', List.Forall₂ D reports reports' →
    Paired E R (x.run reports).1 (y.run reports').1 ∧
    List.Forall₂ D (x.run reports).2 (y.run reports').2

namespace Related

theorem pure (h : R a b) : Related E D R (Pure.pure a) (Pure.pure b) := by
  intro reports reports' hreports
  exact ⟨.ok h, hreports⟩

theorem imp {R' : α → β → Prop} (h : Related E D R x y) (himp : ∀ a b, R a b → R' a b) :
    Related E D R' x y := by
  intro reports reports' hreports
  obtain ⟨hresult, hreports⟩ := h reports reports' hreports
  exact ⟨hresult.imp himp, hreports⟩

theorem bind {f : α → Analysis γ} {g : β → Analysis δ} (h : Related E D R x y)
    (hf : ∀ a b, R a b → Related E D S (f a) (g b)) : Related E D S (x >>= f) (y >>= g) := by
  intro reports reports' hreports
  obtain ⟨hresult, hreports⟩ := h reports reports' hreports
  rw [run_bind, run_bind, ← Prod.eta (x.run reports), ← Prod.eta (y.run reports')]
  generalize (x.run reports).1 = result, (y.run reports').1 = result' at hresult
  cases hresult with
  | ok h => exact hf _ _ h _ _ hreports
  | error h => exact ⟨.error h, hreports⟩

theorem lift {x : Except ScanError α} {y : Except ScanError β}
    (h : Paired (fun e e' => E (.scan e) (.scan e')) R x y) :
    Related E D R (Analysis.lift x) (Analysis.lift y) := by
  intro reports reports' hreports
  rw [run_lift, run_lift]
  exact ⟨h.mapError fun _ _ => id, hreports⟩

theorem liftM {x : Except Failure α} {y : Except Failure β} (h : Paired E R x y) :
    Related E D R (MonadLiftT.monadLift x) (MonadLiftT.monadLift y) := by
  intro reports reports' hreports
  exact ⟨h, hreports⟩

theorem report (problem : Problem) {span span' : Span}
    (h : D (.of problem span none) (.of problem span' none)) :
    Related E D (fun _ _ => True) (Analysis.report problem span)
      (Analysis.report problem span') := by
  intro reports reports' hreports
  exact ⟨.ok trivial, List.rel_append hreports (.cons h .nil)⟩

theorem tryCatch {handle : Failure → Analysis α} {handle' : Failure → Analysis β}
    (h : Related E D R x y) (hhandle : ∀ e e', E e e' → Related E D R (handle e) (handle' e')) :
    Related E D R (MonadExcept.tryCatch x handle) (MonadExcept.tryCatch y handle') := by
  intro reports reports' hreports
  obtain ⟨hresult, hreports⟩ := h reports reports' hreports
  rw [run_tryCatch, run_tryCatch, ← Prod.eta (x.run reports), ← Prod.eta (y.run reports')]
  generalize (x.run reports).1 = result, (y.run reports').1 = result' at hresult
  cases hresult with
  | ok h => exact ⟨.ok h, hreports⟩
  | error h => exact hhandle _ _ h _ _ hreports

theorem throw (h : E e e') : Related E D R (MonadExcept.throw e) (MonadExcept.throw e') := by
  intro reports reports' hreports
  exact ⟨.error h, hreports⟩

theorem mapM {f : α → Analysis γ} {g : β → Analysis δ} {items : List α} {items' : List β}
    (h : List.Forall₂ R items items') (hf : ∀ a b, R a b → Related E D S (f a) (g b)) :
    Related E D (fun cs ds => List.Forall₂ S cs ds ∧ cs.length = items.length) (items.mapM f)
      (items'.mapM g) := by
  induction h with
  | nil => exact pure ⟨.nil, rfl⟩
  | @cons a b items items' hab _ ih =>
    rw [List.mapM_cons, List.mapM_cons]
    refine (hf a b hab).bind fun c d hcd => ?_
    exact ih.bind fun cs ds hrest => pure ⟨.cons hcd hrest.1, congrArg (· + 1) hrest.2⟩

theorem foldlM {f : γ → α → Analysis γ} {g : δ → β → Analysis δ} {items : List α} {items' : List β}
    (h : List.Forall₂ R items items')
    (hf : ∀ a b, R a b → ∀ c d, S c d → Related E D S (f c a) (g d b)) (hcd : S c d) :
    Related E D S (items.foldlM f c) (items'.foldlM g d) := by
  induction h generalizing c d with
  | nil => exact pure hcd
  | @cons a b items items' hab _ ih =>
    rw [List.foldlM_cons, List.foldlM_cons]
    exact (hf a b hab c d hcd).bind fun _ _ => ih

end Related
end Analysis
end View
end ComponentCompiler
