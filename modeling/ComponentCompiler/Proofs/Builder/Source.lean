import ComponentCompiler.Proofs.Builder.Margin
import ComponentCompiler.Proofs.Token.Alike
import ComponentCompiler.Proofs.Token.Lossless
import ComponentCompiler.Proofs.Token.Shift

/-!
This module contains source text that is written with another indentation and how it is read. The
tokens stay the same, except that those which go over several lines are themselves indented anew.
-/

namespace ComponentCompiler

namespace Token

open Writer (mapLines Moves)

variable {w : Word} {ws : List Word} {rest stop gap gap' before cs ds : List Char}
    {operand fresh : Bool}
variable {ok fit : List Char → Prop} {first other : List Char → List Char}

theorem eq_of_solid_append {before' : List Char} (h : before ++ c :: cs = before' ++ d :: ds)
    (hc : Text.isBlank c = false) (hd : Text.isBlank d = false)
    (hsolid : cs.filter (!Text.isBlank ·) = ds.filter (!Text.isBlank ·)) :
    before = before' ∧ c :: cs = d :: ds := by
  have hlength := congrArg List.length hsolid
  rcases List.append_eq_append_iff.mp h with ⟨more, rfl, hcs⟩ | ⟨more, rfl, hds⟩
  . cases more with
    | nil => exact ⟨(List.append_nil _).symm, hcs⟩
    | cons e more =>
      obtain ⟨_, rfl⟩ := List.cons.inj hcs
      simp [hd] at hlength
      omega
  . cases more with
    | nil => exact ⟨List.append_nil _, hds.symm⟩
    | cons e more =>
      obtain ⟨_, rfl⟩ := List.cons.inj hds
      simp [hc] at hlength
      omega

theorem solid_mapLines (hother : Moves true fit other) (h : Text.AllLines (fun _ => True) fit cs) :
    (mapLines Text.dropBlankEnd other cs).filter (!Text.isBlank ·) =
      cs.filter (!Text.isBlank ·) := by
  have hflow := Writer.mapLines_reflow (Writer.moves_dropBlankEnd false) hother h []
  simpa [Text.isBlank_newline] using hflow.solid

theorem Word.Starts.moved_rest (h : w.Starts operand (rest ++ '\n' :: stop))
    (hfirst : Moves fresh ok first)
    (hother : Moves true fit other) (hlines : Text.AllLines ok fit (w.chars ++ rest)) :
    ∃ v : Word, v.Starts operand (mapLines Text.dropBlankEnd other rest ++ '\n' :: stop) ∧
      w.Alike v ∧
      v.text.filter (!Text.isBlank ·) = w.text.filter (!Text.isBlank ·) ∧
        mapLines first other w.chars = v.chars ∧
      mapLines first other (w.chars ++ rest) =
        v.chars ++ mapLines Text.dropBlankEnd other rest := by
  obtain ⟨used, last, hused, hlast⟩ := h.ends
  have hchars : w.chars = (w.gap ++ used) ++ [last] := by
    rw [Word.chars, hused, List.append_assoc]
  have hwhole : w.chars ++ rest ++ '\n' :: stop = w.gap ++ (w.text ++ (rest ++ '\n' :: stop)) := by
    simp [Word.chars]
  have hflow := Writer.mapLines_reflow hfirst hother hlines stop
  rw [hwhole] at hflow
  obtain ⟨v, rest', hstarts, hwritten, halike, htext, hrest⟩ := h.reflow hflow
  obtain ⟨used', last', hused', hlast'⟩ := hstarts.ends
  -- both words end at the same character, since what follows them has the same characters
  have hsolid := solid_mapLines hother hlines.right
  rw [hchars, List.append_assoc, List.singleton_append] at hlines hwritten
  obtain ⟨before, hsplit⟩ := Writer.mapLines_split hfirst hother (w.gap ++ used)
  have hsame := hsplit last rest hlast hlines
  rw [hsame, hused'] at hwritten
  obtain ⟨rfl, hends⟩ : before = v.gap ++ used' ∧
      last :: (mapLines Text.dropBlankEnd other rest ++ '\n' :: stop) = last' :: rest' := by
    apply eq_of_solid_append (by simpa using hwritten) hlast hlast'
    simpa [hsolid] using hrest.solid.symm
  obtain ⟨rfl, rfl⟩ := List.cons.inj hends
  have hv : v.chars = (v.gap ++ used') ++ [last] := by
    rw [Word.chars, hused', List.append_assoc]
  refine ⟨v, hstarts, halike, ?_, ?_, ?_⟩
  . have htext := htext.solid
    rw [List.filter_append, List.filter_append _ (rest ++ _), hrest.solid] at htext
    exact List.append_cancel_right htext
  . rw [hchars, hv, hsplit last [] hlast (hlines.left hfirst.early hother.early hlast),
      Writer.mapLines_last (by simp)]
    rfl
  . rw [hchars, hv, List.append_assoc, List.singleton_append, hsame, List.append_assoc _ [last],
      List.singleton_append]

theorem Word.Starts.moved_text {v : Word} (h : w.Starts operand rest) (hv : v.Starts operand' rest')
    (hfirst : Moves fresh ok first)
    (hother : Moves true fit other) (hlines : Text.AllLines ok fit w.chars)
    (hchars : mapLines first other w.chars = v.chars)
    (hsolid : v.text.filter (!Text.isBlank ·) = w.text.filter (!Text.isBlank ·)) :
    v.text = mapLines Text.dropBlankEnd other w.text := by
  obtain ⟨c, more, hw, hc⟩ := h.begins
  obtain ⟨d, more', hv, hd⟩ := hv.begins
  rw [Word.chars, hw] at hlines hchars
  obtain ⟨gap, hsplit⟩ := Writer.mapLines_split hfirst hother w.gap
  rw [hsplit c more hc hlines, Word.chars, hv] at hchars
  rw [hw, hv, List.filter_cons_of_pos (by simp [hd]),
    List.filter_cons_of_pos (by simp [hc])] at hsolid
  obtain ⟨_, hsame⟩ : gap = v.gap ∧ c :: mapLines Text.dropBlankEnd other more = d :: more' := by
    apply eq_of_solid_append hchars hc hd
    rw [← List.singleton_append, ← List.append_assoc] at hlines
    rw [solid_mapLines hother hlines.right, (List.cons.inj hsolid).2]
  rw [hv, hw, Writer.mapLines_cons hc, hsame]

theorem Word.Starts.moved (h : w.Starts operand (rest ++ '\n' :: stop))
    (hfirst : Moves fresh ok first) (hother : Moves true fit other)
    (hlines : Text.AllLines ok fit (w.chars ++ rest)) :
    ∃ v : Word, v.Starts operand (mapLines Text.dropBlankEnd other rest ++ '\n' :: stop) ∧
      w.Alike v ∧
      v.text = mapLines Text.dropBlankEnd other w.text ∧
      mapLines first other (w.chars ++ rest) =
        v.chars ++ mapLines Text.dropBlankEnd other rest := by
  obtain ⟨v, hstarts, halike, hsolid, hchars, hwhole⟩ := h.moved_rest hfirst hother hlines
  have hword : Text.AllLines ok fit w.chars := by
    obtain ⟨used, last, hused, hlast⟩ := h.ends
    have hlines : Text.AllLines ok fit ((w.gap ++ used) ++ last :: rest) := by
      simpa [Word.chars, hused] using hlines
    rw [Word.chars, hused, ← List.append_assoc]
    exact hlines.left hfirst.early hother.early hlast
  exact ⟨v, hstarts, halike, h.moved_text hstarts hfirst hother hword hchars hsolid, hwhole⟩

structure Word.Moved (other : List Char → List Char) (w v : Word) : Prop where
  kind : v.kind = w.kind
  text : v.text = mapLines Text.dropBlankEnd other w.text

theorem Run.moved (h : Run operand ws (gap ++ '\n' :: stop)) (hfirst : Moves fresh ok first)
    (hother : Moves true fit other) (hlines : Text.AllLines ok fit (charsOf ws ++ gap)) :
    ∃ vs gap' fresh', Run operand vs (gap' ++ '\n' :: stop) ∧
      List.Forall₂ (Word.Moved other) ws vs ∧
      mapLines first other (charsOf ws ++ gap) = charsOf vs ++ gap' ∧
      Reflow fresh' (gap ++ '\n' :: stop) (gap' ++ '\n' :: stop) := by
  induction ws generalizing operand fresh ok first with
  | nil =>
    refine ⟨[], mapLines first other gap, fresh, trivial, .nil, rfl, ?_⟩
    exact Writer.mapLines_reflow hfirst hother hlines stop
  | cons w ws ih =>
    rw [charsOf_cons, List.append_assoc] at hlines ⊢
    obtain ⟨hstarts, hrun⟩ := h
    rw [← List.append_assoc] at hstarts
    obtain ⟨v, hv, halike, htext, hwhole⟩ := hstarts.moved hfirst hother hlines
    obtain ⟨vs, gap', fresh', hvs, hmoved, hrest, hflow⟩ :=
      ih hrun (Writer.moves_dropBlankEnd false) hlines.right
    rw [hrest, List.append_assoc] at hv
    refine ⟨v :: vs, gap', fresh', ⟨hv, ?_⟩, .cons ⟨halike.kind, htext⟩ hmoved, ?_, hflow⟩
    . rw [halike.operandAfter]
      exact hvs
    . rw [hwhole, hrest, charsOf_cons, List.append_assoc]

theorem GapBefore.reflow (h : GapBefore gap [])
    (hflow : Reflow fresh (gap ++ ['\n', '(']) (gap' ++ ['\n', '('])) : GapBefore gap' [] := by
  obtain ⟨newline, h⟩ : ∃ newline, afterGap false gap = .ok (newline, []) := by
    rcases h with rfl | ⟨newline, h⟩
    . exact ⟨false, rfl⟩
    . rw [List.append_nil] at h
      exact ⟨newline, h⟩
  have hlast := (passed_of_afterGap ((congrArg _ (List.append_nil gap)).trans h)).1
  have hclosed : IsGap (gap ++ ['\n']) :=
    @IsLastGap.close [] gap hlast (by simp) (.blank (by decide) .nil)
  obtain ⟨found, hgap⟩ : ∃ found, afterGap false (gap ++ ['\n', '(']) = .ok (found, ['(']) := by
    have hskip := hclosed.skip false ['(']
    rw [List.append_assoc, List.singleton_append] at hskip
    exact ⟨_, hskip⟩
  obtain ⟨more, hgap', hmore⟩ := hflow.afterGap hgap
  cases hmore
  have hend : GapBefore (gap' ++ ['\n']) ['('] := by
    right
    exact ⟨found, by simpa using hgap'⟩
  rcases hend.nil with hend | ⟨found, hend⟩
  . simp at hend
  . rw [List.append_nil] at hend
    obtain ⟨found', hend⟩ := afterGap.go_of_append_blank (by simp [Text.isBlank_newline]) hend 0
    right
    exact ⟨found', by rw [List.append_nil]; exact hend⟩

theorem Run.ends_of_mem (h : Run operand ws rest) (ht : t ∈ tokensAt pos ws) :
    ∃ used last, t.value.toList = used ++ [last] ∧ Text.isBlank last = false := by
  induction ws generalizing operand pos with
  | nil => cases ht
  | cons w ws ih =>
    rcases List.mem_cons.mp ht with rfl | ht
    . rw [Word.token, String.toList_ofList]
      exact h.1.ends
    . exact ih h.2 ht

/-- What a token is, wherever it stands. -/
def reading (t : Token) : Token.Kind × String :=
  (t.kind, t.value)

end Token

namespace Writer

open Token (Word Run charsOf tokensAt)

variable {text : String} {tokens : List Token} {column : Int}

/-- A text whose lines after the first are moved from one margin to another. -/
def moved (level : Nat) (n : Int) (text : String) : String :=
  String.ofList (mapLines Text.dropBlankEnd (placed level n) text.toList)

/-- The margin that is taken from the lines of a text after the first. -/
def marginOf (text : String) (column : Int) : Int :=
  commonMargin column (Text.splitOnP (· == '\n') text.toList).tail

theorem toList_intercalate_lines (line : String) (lines : List String) :
    (String.intercalate "\n" (line :: lines)).toList =
      line.toList ++ lines.flatMap fun line => '\n' :: line.toList := by
  induction lines generalizing line with
  | nil => simp
  | cons next lines ih => simp [String.intercalate_cons_cons, ih]

theorem toList_outdent (level : Nat) (text : String) (column : Int) :
    (String.intercalate "\n" (indentAll level (outdent text column))).toList
      =
    mapLines (placedFirst level) (placed level (marginOf text column)) text.toList := by
  obtain ⟨first, rest, hlines⟩ :=
    List.exists_cons_of_ne_nil (Text.splitOnP_ne_nil (· == '\n') text.toList)
  simp only [outdent, mapLines, marginOf, hlines, List.tail_cons]
  rw [indentAll, List.map_cons, toList_intercalate_lines, List.map_map, List.flatMap_map]
  rfl

theorem allLines_marginOf (text : String) (column : Int) :
    Text.AllLines (fun _ => True) (Fits (marginOf text column)) text.toList := by
  constructor
  . intro line _
    trivial
  . intro line hline
    exact fits_commonMargin column hline

theorem readings_moved {level : Nat} {n : Int} {ws vs : List Word}
    (h : List.Forall₂ (Word.Moved (placed level n)) ws vs)
    (pos pos' : Nat) : (tokensAt pos' vs).map Token.reading =
    (tokensAt pos ws).map fun t => (t.kind, moved level n t.value) := by
  induction h generalizing pos pos' with
  | nil => rfl
  | @cons w v _ _ hword _ ih =>
    rw [Token.tokensAt, Token.tokensAt, List.map_cons, List.map_cons, ih (pos + w.chars.length)]
    simp [Token.reading, Word.token, moved, hword.kind, hword.text]

theorem moved_of_line {used : List Char} (hline : '\n' ∉ text.toList)
    (htext : text.toList = used ++ [last])
    (hlast : Text.isBlank last = false) (level : Nat) (n : Int) : moved level n text = text := by
  rw [moved, mapLines_last hline, htext, Token.dropBlankEnd_append [] hlast]
  rw [← @String.ofList_toList text, htext]
  rfl

/-- Source text can be read wherever it is written, as the same kinds of tokens. All tokens are the
same just if those that go over several lines are not changed by moving their lines. -/
theorem scan_source (w : Writer) (hscan : Token.scan text = .ok tokens) (hcolumn : 1 ≤ column) :
    ∃ lines tokens', (w.source text column).lines = w.lines ++ lines ∧
      Token.scan (String.intercalate "\n" lines) = .ok tokens' ∧
      tokens'.map Token.reading =
        tokens.map (fun t => (t.kind, moved w.level.toNat (marginOf text column) t.value)) ∧
      (tokens'.map Token.reading = tokens.map Token.reading
        ↔
      ∀ t ∈ tokens, '\n' ∈ t.value.toList →
        moved w.level.toNat (marginOf text column) t.value = t.value) := by
  obtain ⟨ws, gap, newline, hrun, htext, rfl, hgap⟩ := Token.words_of_scan hscan
  -- a line feed and a bracket after the text, so that there is a token after every gap
  have hrun : Run true ws (gap ++ ['\n', '(']) := by
    have hagrees : Token.Agrees (gap ++ []) (gap ++ ['\n', '(']) :=
      .append gap (.of_isNeutral (Token.isNeutral_of_isBlank Text.isBlank_newline))
    rw [List.append_nil] at hagrees
    exact hrun.agrees hagrees
  have hmargin : 0 ≤ marginOf text column := commonMargin_nonneg hcolumn _
  have hlines := allLines_marginOf text column
  rw [htext] at hlines
  obtain ⟨vs, gap', fresh, hvs, hmoved, hwritten, hflow⟩ :=
    hrun.moved (moves_placedFirst w.level.toNat) (moves_placed w.level.toNat hmargin) hlines
  have hgap : Token.GapBefore gap [] := .inr ⟨newline, by rwa [List.append_nil]⟩
  have hread : Token.scan
      (String.intercalate "\n" (indentAll w.level.toNat (outdent text column))) =
        .ok (tokensAt 0 vs) := by
    apply Token.scan_of_words (hvs.agrees (.of_initial ⟨_, rfl⟩)) (hgap.reflow hflow)
    rw [toList_outdent, htext]
    exact hwritten
  refine ⟨_, _, rfl, hread, readings_moved hmoved 0 0, ?_⟩
  rw [readings_moved hmoved 0 0, List.map_inj_left]
  apply forall₂_congr
  intro t ht
  rw [Token.reading, Prod.mk.injEq, eq_self, true_and]
  by_cases hline : '\n' ∈ t.value.toList
  . simp [hline]
  . obtain ⟨used, last, htext, hlast⟩ := hrun.ends_of_mem ht
    simp [hline, moved_of_line hline htext hlast]

theorem scan_source_call :
    let w : Writer := ⟨["page"], 2⟩
    let text := "f(\n    a, // first  \n    \x60b\n    c\x60)"
    let tokens : List Token :=
      [⟨.name, "f", 0, 1, false⟩, ⟨.punct, "(", 1, 2, false⟩, ⟨.name, "a", 7, 8, true⟩,
      ⟨.punct, ",", 8, 9, false⟩, ⟨.template, "\x60b\n    c\x60", 25, 34, true⟩,
      ⟨.punct, ")", 34, 35, false⟩]
    Token.scan text = .ok tokens ∧ (1 : Int) ≤ 5 ∧
    ∃ lines tokens', (w.source text 5).lines = w.lines ++ lines ∧
      Token.scan (String.intercalate "\n" lines) = .ok tokens' ∧
      tokens'.map Token.reading =
        tokens.map (fun t => (t.kind, moved w.level.toNat (marginOf text 5) t.value)) ∧
      (tokens'.map Token.reading = tokens.map Token.reading
        ↔
      ∀ t ∈ tokens, '\n' ∈ t.value.toList →
      moved w.level.toNat (marginOf text 5) t.value = t.value) := by
  intro w text tokens
  have hscan : Token.scan text = .ok tokens := by decide +kernel
  have hcolumn : (1 : Int) ≤ 5 := by decide
  exact ⟨hscan, hcolumn, scan_source w hscan hcolumn⟩

/-- The second line of a template is part of its text, and is indented with the code around it. -/
theorem readings_source_template :
    let w : Writer := ⟨[], 1⟩
    let text := "\x60a\n b\x60"
    ∃ tokens tokens', Token.scan text = .ok tokens ∧
      Token.scan (String.intercalate "\n" (w.source text 1).lines) = .ok tokens' ∧
      tokens.map Token.reading = [(.template, "\x60a\n b\x60")] ∧
      tokens'.map Token.reading = [(.template, "\x60a\n   b\x60")] := by
  intro w text
  exact ⟨[⟨.template, "\x60a\n b\x60", 0, 6, false⟩],
    [⟨.template, "\x60a\n   b\x60", 2, 10, false⟩], by decide +kernel, by decide +kernel,
    rfl, rfl⟩

end Writer
end ComponentCompiler
