import ComponentCompiler.Proofs.Markup.Refusal
import ComponentCompiler.Proofs.Token.Fragment
import ComponentCompiler.Proofs.Token.Trim

/-!
This module contains that markup which is one token of a text, but no tree, is an error of the text
and never just a warning.
-/

namespace ComponentCompiler

def Failure.IsSevere (failure : Failure) : Prop :=
  ∀ error, failure = .compile error → error.problem.severity = .error

theorem Failure.isSevere_scan (error : ScanError) : (Failure.scan error).IsSevere := by
  intro _ h
  cases h

namespace Markup

variable {text : String} {token : Token}

def Stop.IsSevere (stop : Stop) : Prop :=
  ∃ fault, stop = .fault fault ∧ fault.IsSevere

open Stop (IsSevere)

theorem failsOnly_fail {problem : Problem} (h : problem.severity = .error) (left : Nat) :
    FailsOnly IsSevere (fail problem left : Reading α) :=
  .error ⟨_, rfl, h⟩

theorem failsOnly_read (place : Nat → Nat → Span) (hscan : Token.scan text = .ok [token])
    (hkind : token.kind = .markup) : FailsOnly IsSevere (read place text.toList) := by
  obtain ⟨ws, rest, hrun, htext, htokens⟩ := Token.scanFrom_ok hscan
  obtain ⟨w, rfl, rfl⟩ := Token.exists_word_of_singleton htokens.symm
  obtain ⟨hgap, c, more, hmore, hlexeme⟩ := hrun.1
  have hlexeme := hlexeme _ (Nat.le_refl _)
  have hkind : w.kind = .markup := hkind
  rw [Token.lexeme_ok, hkind] at hlexeme
  obtain ⟨found, hgap⟩ := Token.afterGap.go_dropBlank hgap
  have htext : text.toList = w.gap ++ (w.text ++ (Token.charsOf [] ++ rest)) := by
    rw [List.drop_zero] at htext
    rw [htext]
    simp [Token.Word.chars]
  rw [← htext] at hgap
  unfold read
  split
  . exact failsOnly_fail rfl _
  . exact failsOnly_fail rfl _
  . exact failsOnly_fail rfl _
  . next content _ _ hcontent =>
    -- what is left without white space starts with the token, as no comment starts with `<`
    have hstart : Token.afterGap false ('<' :: content) = .ok (false, '<' :: content) :=
      Token.afterGap_of_token (by decide) (by simp [Token.opensComment])
    rw [hcontent] at hgap
    obtain ⟨_, hsame⟩ := Prod.mk.inj (Except.ok.inj (hstart.symm.trans hgap))
    rw [hmore, List.cons_append, List.cons.injEq] at hsame
    obtain ⟨_, rfl⟩ := hsame
    cases hlexeme with
    | markup _ _ _ hread =>
      obtain ⟨entries, hentries⟩ := (derived _).markup hread
      cases (follows _).node hentries (Nat.lt_succ_self _) with
      | ok htree =>
        rw [htree, ok_bind]
        dsimp only
        split
        . exact .pure _
        . exact failsOnly_fail rfl _
      | refusal _ _ hrefusal =>
        rw [hrefusal]
        exact failsOnly_fail rfl _
  . exact failsOnly_fail rfl _

theorem Node.failsOnly_parse (file : String) (origin : Origin)
    (hscan : Token.scan text = .ok [token])
    (hkind : token.kind = .markup) : FailsOnly Failure.IsSevere (parse text file origin) := by
  have hfault := failsOnly_read (placeIn text.toList file origin) hscan hkind
  unfold parse
  dsimp only
  split
  . exact .ok _
  . exact .error (Failure.isSevere_scan _)
  . next fault hread =>
    obtain ⟨_, hstop, hsevere⟩ := hfault _ hread
    cases hstop
    apply FailsOnly.error
    rintro error ⟨⟩
    exact hsevere

end Markup
end ComponentCompiler
