import ComponentCompiler.CommandLine.Run
import ComponentCompiler.Proofs.Compilation
import ComponentCompiler.Proofs.Scope.Analysis
import ComponentCompiler.Proofs.View.Location

/-!
This module contains how a compilation can end. It finishes all stages, or it stops where it was
asked to, or the first stage that fails ends it with one error. What it delivers, reports and saves
is that of the stages which it finished.
-/

namespace ComponentCompiler

/-! ### Failures -/

open Failure (IsSevere)

theorem Document.isSevere_parse (text file : String) : FailsOnly IsSevere (parse text file) := by
  intro failure h
  rcases failsOnly_parse text file failure h with ⟨error, rfl, _⟩ | ⟨⟨error, rfl, _⟩, _⟩
  . rintro _ ⟨⟩
    exact error.2
  . exact Failure.isSevere_scan error

theorem Scope.isSevere_analyse (document : Document) (policy : Policy) :
    FailsOnly IsSevere (analyse document policy) := by
  refine FailsOnly.bind ?_ fun _ _ => .pure _
  intro failure h
  obtain ⟨error, _, rfl⟩ := mapError_eq_error h
  exact Failure.isSevere_scan error

theorem View.isSevere_analyseEach {components : List ComponentCompiler.Component}
    {failure : Failure} (h : analyseEach shared components = (views, some failure))
    (hmarkup : ∀ component ∈ components, component.markup.IsIn text) : failure.IsSevere := by
  induction components generalizing views with
  | nil => simp [analyseEach] at h
  | cons component components ih =>
    rw [List.forall_mem_cons] at hmarkup
    rw [analyseEach] at h
    split at h
    . next failure' hfailure =>
      cases h
      exact isSevere_of_analyse hmarkup.1 hfailure
    . exact ih (Prod.ext rfl (congrArg (·.2) h)) hmarkup.2

theorem View.isSevere_analyseAll {document : Document} {failure : Failure}
    (hparse : Document.parse text file = .ok document)
    (h : analyseAll document = (views, some failure)) : failure.IsSevere := by
  apply isSevere_analyseEach h
  intro component hmem
  exact ((Document.isIn_of_parse hparse).components component hmem).markup

theorem Output.isSevere_viewOf (views : Views) (component : Component) :
    FailsOnly IsSevere (viewOf views component) := by
  unfold viewOf
  split
  . exact .ok _
  . apply FailsOnly.error
    intro error h
    cases h

theorem Output.isSevere_generate (doc : Scope.Scoped) (views : Views) (metadata : Page.Metadata) :
    FailsOnly IsSevere (generate doc views metadata) := by
  refine FailsOnly.bind ?_ fun _ _ => .pure _
  refine FailsOnly.bind ((isSevere_viewOf views _).bind fun _ _ => .pure _) fun _ _ => ?_
  refine FailsOnly.bind (.mapM fun s _ => ?_) fun _ _ => .pure _
  exact (isSevere_viewOf views _).bind fun _ _ => .pure _

theorem Output.route_isSome {m : Module} (h : generate doc views metadata = .ok m) :
    m.route.isSome = metadata.isPage := by
  obtain ⟨layout, _, h⟩ := bind_eq_ok.mp h
  rw [← pure_eq_ok.mp h]
  dsimp only [Page.Route.of?]
  split
  . next hpage =>
    rw [hpage]
    rfl
  . next hpage =>
    rw [Bool.not_eq_true] at hpage
    rw [hpage]
    rfl

namespace Compilation

variable {r : Request} {c c' : Compilation} {stage : Stage} {finished : List Stage}
    {reports : List Diagnostic}
variable {next : Compilation → Compilation}

/-! ### Stages -/

/-- What is reported and delivered with these stages finished. -/
inductive Reaches (r : Request) :
    List Stage → List Diagnostic → Option String → Option Page.Route → Prop where
  | start : Reaches r [] [] none none
  | document (hparse : Document.parse r.source r.file = .ok result) :
    Reaches r [.document] [] none none
  | scopes (hparse : Document.parse r.source r.file = .ok document)
      (hanalyse : Scope.analyse document (.of document.metadata) = .ok doc) :
      Reaches r [.document, .scopes] doc.diagnostics none none
  | markup (hparse : Document.parse r.source r.file = .ok document)
      (hanalyse : Scope.analyse document (.of document.metadata) = .ok doc)
      (hviews : View.analyseAll document = (views, none)) :
      Reaches r [.document, .scopes, .markup]
        (doc.diagnostics ++ (View.byName views).flatMap (·.2.diagnostics)) none none
  | module (h : Compiled r document doc views m) :
      Reaches r Stage.all
        (doc.diagnostics ++ (View.byName views).flatMap (·.2.diagnostics) ++ m.diagnostics)
        (some m.code) m.route

def Saves (r : Request) (c : Compilation) : Prop :=
  ∀ stage path text, .save stage path text ∈ c.events →
    stage ∈ c.finished ∧ isSaved r stage = true ∧ path = artifactPath r.file stage

/-- The stage to stop after is finished. -/
def Stopped (r : Request) (c : Compilation) : Prop :=
  ∃ stage ∈ c.finished, r.stop = some stage

def Unwritable (r : Request) (c : Compilation) : Prop :=
  ∃ stage ∈ c.finished, isSaved r stage = true ∧ Path.hasNull (artifactPath r.file stage) = true

/-- The reports are those of the finished stages, with one error at the end if the compilation
neither finished nor was to stop there. -/
structure Outcome (r : Request) (c : Compilation) (reports : List Diagnostic) : Prop where
  reaches : Reaches r c.finished reports c.code c.route
  saves : Saves r c
  ended : c.finished = Stage.all ∨ Stopped r c → c.diagnostics = reports
  failed : ¬ (c.finished = Stage.all ∨ Stopped r c) →
    ∃ error : Diagnostic, error.isError = true ∧ c.diagnostics = reports ++ [error]

def Ends (r : Request) (c : Compilation) : Prop :=
  Unwritable r c ∨ ∃ reports, Outcome r c reports

structure Standing (r : Request) (finished : List Stage) (reports : List Diagnostic)
    (c : Compilation) : Prop where
  reaches : Reaches r finished reports none none
  finished : c.finished = finished
  diagnostics : c.diagnostics = reports
  code : c.code = none
  route : c.route = none
  saves : Saves r c

theorem Saves.record (h : Saves r c) (entries : List Log.Entry) : Saves r (c.record entries) := by
  intro stage path text hmem
  rcases List.mem_append.mp hmem with hmem | hmem
  . exact h stage path text hmem
  . simp at hmem

theorem Standing.record (h : Standing r finished reports c) (entries : List Log.Entry) :
    Standing r finished reports (c.record entries) :=
  ⟨h.reaches, h.finished, h.diagnostics, h.code, h.route, h.saves.record entries⟩

/-! ### Ends -/

theorem Standing.stopped (h : Standing r finished reports c) (hmem : stage ∈ finished)
    (hstop : r.stop = some stage) : Ends r c := by
  have hstopped : Stopped r c := ⟨stage, h.finished ▸ hmem, hstop⟩
  refine .inr ⟨reports, ?_, h.saves, fun _ => h.diagnostics, fun hends =>
    absurd (.inr hstopped) hends⟩
  rw [h.finished, h.code, h.route]
  exact h.reaches

theorem exists_fail {failure : Failure} (hsevere : failure.IsSevere) :
    ∃ (error : Diagnostic) (entry : Log.Entry), error.isError = true ∧
      c.fail r failure = (c.record [entry]).report [error] := by
  unfold fail
  split
  . next e =>
    refine ⟨_, _, ?_, rfl⟩
    exact beq_iff_eq.mpr (hsevere e rfl)
  . exact ⟨_, _, rfl, rfl⟩

theorem Standing.failed {failure : Failure} (h : Standing r finished reports c)
    (hgoes : ∀ stage ∈ finished, r.stop ≠ some stage)
    (hsevere : failure.IsSevere) : Ends r (c.fail r failure) := by
  obtain ⟨error, entry, herror, hfail⟩ := @exists_fail r c failure hsevere
  rw [hfail]
  -- with all stages finished there would be code
  have hunfinished : finished ≠ Stage.all := by
    have hreaches := h.reaches
    intro hall
    rw [hall] at hreaches
    cases hreaches
  refine .inr ⟨reports, ?_, h.saves.record [entry], ?_, fun _ =>
    ⟨error, herror, congrArg (· ++ [error]) h.diagnostics⟩⟩
  . change Reaches r c.finished reports c.code c.route
    rw [h.finished, h.code, h.route]
    exact h.reaches
  . rintro (hall | ⟨stage, hmem, hstop⟩)
    . exact absurd (h.finished.symm.trans hall) hunfinished
    . exact absurd hstop (hgoes stage (h.finished ▸ hmem))

/-! ### Steps -/

structure Completes (r : Request) (stage : Stage) (c c' : Compilation) : Prop where
  finished : c'.finished = c.finished ++ [stage]
  diagnostics : c'.diagnostics = c.diagnostics
  code : c'.code = c.code
  route : c'.route = c.route
  saves : Saves r c'

theorem complete_cases (hsaves : Saves r c) (entries : List Log.Entry) (artifact : Json) :
    Unwritable r (c.complete r stage entries artifact next) ∨
      ∃ c', c.complete r stage entries artifact next = next c' ∧ Completes r stage c c' := by
  -- what is saved so far stays saved, and its stages stay finished
  have hkept : ∀ entries, Saves r { c.record entries with finished := c.finished ++ [stage] } := by
    intro entries stage' path text hmem
    obtain ⟨hfinished, hsaved⟩ := hsaves.record entries stage' path text hmem
    exact ⟨List.mem_append_left _ hfinished, hsaved⟩
  unfold complete
  dsimp only
  split
  . exact .inr ⟨_, rfl, rfl, rfl, rfl, rfl, hkept _⟩
  . next hsaved =>
    simp only [Bool.not_eq_true, Bool.not_eq_false'] at hsaved
    split
    . next hnull =>
      refine .inl ⟨stage, ?_, hsaved, hnull⟩
      exact List.mem_append_right _ (List.mem_singleton_self stage)
    . refine .inr ⟨_, rfl, rfl, rfl, rfl, rfl, ?_⟩
      intro stage' path text hmem
      rcases List.mem_append.mp hmem with hmem | hmem
      . exact hkept _ stage' path text hmem
      . cases List.mem_singleton.mp hmem
        exact ⟨List.mem_append_right _ (List.mem_singleton_self stage), hsaved, rfl⟩

theorem Standing.complete (h : Standing r finished reports c) (entries : List Log.Entry)
    (artifact : Json) (more : List Diagnostic)
    (hreaches : Reaches r (finished ++ [stage]) (reports ++ more) none none)
    (hnext : ∀ c', Standing r (finished ++ [stage]) (reports ++ more) (c'.report more) →
      Ends r (next c')) : Ends r (c.complete r stage entries artifact next) := by
  rcases complete_cases h.saves entries artifact with hnull | ⟨c', hc, hc'⟩
  . exact .inl hnull
  . -- what the stage reports is added before the next stage starts
    rw [hc]
    apply hnext
    refine ⟨hreaches, ?_, ?_, hc'.code.trans h.code, hc'.route.trans h.route, hc'.saves⟩
    . rw [← h.finished]
      exact hc'.finished
    . rw [← h.diagnostics, ← hc'.diagnostics]
      rfl

theorem Standing.generateStage (h : Standing r [.document, .scopes, .markup] reports c)
    (hgoes : ∀ stage ∈ [Stage.document, .scopes, .markup], r.stop ≠ some stage)
    (hreaches : ∀ m, Output.generate doc views doc.metadata = .ok m →
      Reaches r Stage.all (reports ++ m.diagnostics) (some m.code) m.route) :
    Ends r (c.generateStage r doc views) := by
  unfold Compilation.generateStage
  split
  . next failure hfailure => exact h.failed hgoes (Output.isSevere_generate _ _ _ failure hfailure)
  . next m hm =>
    rcases complete_cases h.saves [generatedEntry doc.file m] m.toJson with hnull | ⟨c', hc, hc'⟩
    . exact .inl hnull
    . rw [hc]
      have hall : c'.finished = Stage.all := by
        rw [hc'.finished, h.finished]
        rfl
      refine .inr ⟨reports ++ m.diagnostics, ?_, hc'.saves, ?_, fun hends =>
        absurd (.inl hall) hends⟩
      . change Reaches r c'.finished _ (some m.code) m.route
        rw [hall]
        exact hreaches m hm
      . intro _
        rw [← h.diagnostics, ← hc'.diagnostics]
        rfl

theorem Standing.markupStage {document : Document}
    (h : Standing r [.document, .scopes] doc.diagnostics c)
    (hgoes : ∀ stage ∈ [Stage.document, .scopes], r.stop ≠ some stage)
    (hparse : Document.parse r.source r.file = .ok document)
    (hdoc : Scope.analyse document (.of document.metadata) = .ok doc) :
    Ends r (c.markupStage r document doc) := by
  unfold Compilation.markupStage
  split
  next views failure hviews =>
  dsimp only
  split
  . exact (h.record _).failed hgoes (View.isSevere_analyseAll hparse hviews)
  . apply h.complete _ _ _ (.markup hparse hdoc hviews)
    intro c' hc'
    split
    . next hstop => exact hc'.stopped (by simp) hstop
    . next hstop =>
      apply hc'.generateStage
      . simpa [hstop] using hgoes
      . exact fun m hm => .module ⟨hparse, hdoc, hviews, hm⟩

theorem Standing.scopesStage {document : Document} (h : Standing r [.document] [] c)
    (hgoes : ∀ stage ∈ [Stage.document], r.stop ≠ some stage)
    (hparse : Document.parse r.source r.file = .ok document) :
    Ends r (c.scopesStage r document) := by
  unfold Compilation.scopesStage
  split
  . next failure hfailure => exact h.failed hgoes (Scope.isSevere_analyse _ _ failure hfailure)
  . next doc hdoc =>
    apply h.complete _ _ _ (.scopes hparse hdoc)
    intro c' hc'
    dsimp only
    split
    . next hstop => exact hc'.stopped (by simp) hstop
    . next hstop =>
      refine hc'.markupStage ?_ hparse hdoc
      simpa [hstop] using hgoes

theorem Standing.documentStage (h : Standing r [] [] c) : Ends r (c.documentStage r) := by
  unfold Compilation.documentStage
  split
  . next failure hfailure => exact h.failed (by simp) (Document.isSevere_parse _ _ failure hfailure)
  . next document hparse =>
    apply h.complete _ _ [] (.document hparse)
    intro c' hc'
    -- reading a file has nothing to report but errors
    have hreport : c'.report [] = c' := by simp [report]
    rw [hreport] at hc'
    split
    . next hstop => exact hc'.stopped (by simp) hstop
    . next hstop =>
      refine hc'.scopesStage ?_ hparse
      simpa using hstop

theorem ends_run (r : Request) : Ends r (run r) := by
  have hstart : Standing r [] [] {} := ⟨.start, rfl, rfl, rfl, rfl, by simp [Saves]⟩
  -- the log records at the end change nothing else
  rcases hstart.documentStage with hnull | ⟨reports, h⟩
  . exact .inl hnull
  . exact .inr ⟨reports, h.reaches, h.saves.record _, h.ended, h.failed⟩

/-! ### Artifacts -/

/-- Whatever the computation yields has this property. -/
def Yields [Monad m] (P : α → Prop) (x : m α) : Prop :=
  ∃ y : m {a // P a}, x = Subtype.val <$> y

section
variable {m : Type → Type} [Monad m] [LawfulMonad m] {α β : Type} {P : α → Prop} {Q : β → Prop}

theorem Yields.pure {a : α} (h : P a) : Yields P (Pure.pure a : m α) :=
  ⟨Pure.pure ⟨a, h⟩, by simp⟩

theorem Yields.imp {P' : α → Prop} {x : m α} (h : Yields P x) (himp : ∀ a, P a → P' a) :
    Yields P' x := by
  obtain ⟨y, rfl⟩ := h
  exact ⟨(fun a => ⟨a.1, himp a.1 a.2⟩) <$> y, by simp⟩

theorem Yields.bind {x : m β} {f : β → m α} (hx : Yields Q x) (hf : ∀ b, Q b → Yields P (f b)) :
    Yields P (x >>= f) := by
  obtain ⟨y, rfl⟩ := hx
  choose z hz using hf
  refine ⟨y >>= fun b => z b.1 b.2, ?_⟩
  rw [map_bind, bind_map_left]
  congr 1
  funext b
  exact hz b.1 b.2

theorem Yields.any (x : m α) : Yields (fun _ => True) x :=
  ⟨(⟨·, trivial⟩) <$> x, by simp⟩

theorem yields_perform (host : Host m) (log : Log.Entry → m Unit) (events : List Event) :
    Yields (fun saved => ∀ artifact ∈ saved, ∃ text, .save artifact.1 artifact.2 text ∈ events)
      (perform host log events) := by
  induction events with
  | nil =>
    apply Yields.pure
    simp
  | cons event events ih =>
    have hrest : Yields
        (fun saved => ∀ artifact ∈ saved, ∃ text,
          .save artifact.1 artifact.2 text ∈ event :: events)
        (perform host log events) := by
      refine ih.imp fun saved hsaved artifact hmem => ?_
      obtain ⟨text, htext⟩ := hsaved artifact hmem
      exact ⟨text, List.mem_cons_of_mem _ htext⟩
    cases event with
    | log entry => exact (Yields.any (log entry)).bind fun _ _ => hrest
    | save stage path text =>
      refine (Yields.any (host.write path text)).bind fun written _ => ?_
      cases written with
      | error e => exact (Yields.any _).bind fun _ _ => hrest
      | ok _ =>
        refine (Yields.any _).bind fun _ _ => hrest.bind fun saved hsaved => ?_
        apply Yields.pure
        rw [List.forall_mem_cons]
        exact ⟨⟨text, List.mem_cons_self⟩, hsaved⟩

end

/-! ### Compilations -/

structure Consistent (r : Request) (c : Compilation) : Prop where
  finished : c.finished <+: Stage.all
  code : c.code.isSome = true ↔ c.finished = Stage.all
  route : c.route.isSome = true ↔ c.code.isSome = true ∧
    ∃ document, Document.parse r.source r.file = .ok document ∧ document.metadata.isPage = true
  /-- The reports of the finished stages, and one error at the end unless the compilation finished
  or was to stop where it did. -/
  diagnostics : ∃ reports, Reaches r c.finished reports c.code c.route ∧
    (c.finished = Stage.all ∨ Stopped r c → c.diagnostics = reports) ∧
    (¬ (c.finished = Stage.all ∨ Stopped r c) → ∃ error : Diagnostic, error.isError = true ∧
    c.diagnostics = reports ++ [error])
  artifacts : ∀ (m : Type → Type) [Monad m] [LawfulMonad m] (host : Host m)
    (log : Log.Entry → m Unit),
    Yields (fun saved => ∀ artifact ∈ saved, artifact.1 ∈ c.finished ∧ isSaved r artifact.1 = true ∧
      artifact.2 = artifactPath r.file artifact.1) (perform host log c.events)
  hasErrors : c.code = none → ¬ Stopped r c → c.hasErrors = true

section
variable {text : Option String} {route : Option Page.Route}

theorem Reaches.isPrefix (h : Reaches r finished reports text route) : finished <+: Stage.all := by
  cases h <;> decide

theorem Reaches.code_isSome (h : Reaches r finished reports text route) :
    text.isSome = true ↔ finished = Stage.all := by
  cases h <;> simp [Stage.all]

theorem Reaches.route_isSome (h : Reaches r finished reports text route) :
    route.isSome = true ↔ text.isSome = true ∧
      ∃ document, Document.parse r.source r.file = .ok document ∧
        document.metadata.isPage = true := by
  cases h with
  | module h =>
    obtain ⟨hparse, hanalyse, _, hgenerate⟩ := h
    obtain ⟨_, _, rfl⟩ := Scope.analyse_eq_ok.mp hanalyse
    rw [Output.route_isSome hgenerate]
    simp [hparse, Scope.assemble]
  | _ => simp

end

/-- A compilation is consistent, whatever the file, unless a stage would have to be saved where
nothing can be saved. The error of a failed compilation need not come from reading the file: markup
inside of markup is read by the third stage only. -/
theorem consistent_run (r : Request)
    (hwritable : ∀ stage ∈ (run r).finished, isSaved r stage = true →
      Path.hasNull (artifactPath r.file stage) = false) : Consistent r (run r) := by
  rcases ends_run r with ⟨stage, hmem, hsaved, hnull⟩ | ⟨reports, h⟩
  . simp [hwritable stage hmem hsaved] at hnull
  . have hcode := h.reaches.code_isSome
    refine ⟨h.reaches.isPrefix, hcode, h.reaches.route_isSome,
      ⟨reports, h.reaches, h.ended, h.failed⟩, ?_, ?_⟩
    . intro m _ _ host log
      refine (yields_perform host log _).imp fun saved hsaved artifact hmem => ?_
      obtain ⟨text, htext⟩ := hsaved artifact hmem
      exact h.saves _ _ text htext
    . intro hnone hstopped
      have hunfinished : (run r).finished ≠ Stage.all := by
        rw [← hcode.ne, hnone]
        simp
      obtain ⟨error, herror, hdiagnostics⟩ := h.failed (by simp [hunfinished, hstopped])
      rw [hasErrors, hdiagnostics, List.any_append]
      simp [herror]

/-- An attribute without a name, in markup that a condition guards, is found by the stage that was
to be the last one. -/
theorem consistent_run_nested :
    let r : Request :=
      { source := "// @page\nexport default () => <p>\x7ba && <b \x7bc\x7d/>\x7d</p>",
        file := "A.tsx"
        dump := [.document, .scopes], stop := some .markup }
    (∀ stage ∈ (run r).finished, isSaved r stage = true →
      Path.hasNull (artifactPath r.file stage) = false) ∧
      (run r).finished = [.document, .scopes] ∧ Consistent r (run r) ∧
      (run r).hasErrors = true := by
  intro r
  have hwritable : ∀ stage ∈ (run r).finished, isSaved r stage = true →
      Path.hasNull (artifactPath r.file stage) = false := by
    intro stage _ _
    cases stage <;> decide
  have hfinished : (run r).finished = [.document, .scopes] := by decide +kernel
  have h := consistent_run r hwritable
  have hcode : (run r).code = none := by
    rw [← Option.not_isSome_iff_eq_none, h.code, hfinished]
    decide
  refine ⟨hwritable, hfinished, h, h.hasErrors hcode ?_⟩
  rintro ⟨stage, hmem, hstop⟩
  cases hstop
  simp [hfinished] at hmem

end Compilation
end ComponentCompiler
