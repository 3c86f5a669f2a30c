import ComponentCompiler.Builder.Writer
import ComponentCompiler.Proofs.Text.Slice
import ComponentCompiler.Proofs.Token.Reflow

/-!
This module contains texts whose lines are written with another indentation. What is written differs
from the text only in white space beside line breaks, and what follows a character that is no blank
is written in the same way wherever it stands.
-/

namespace ComponentCompiler

/-! ### Lines -/

namespace Text

variable {line cs : List Char}

theorem lines_induction {P : List Char → Prop} (hlast : ∀ line, '\n' ∉ line → P line)
    (hmore : ∀ line cs, '\n' ∉ line → P cs → P (line ++ '\n' :: cs)) (cs : List Char) : P cs := by
  by_cases h : '\n' ∈ cs
  . obtain ⟨line, more, rfl, hline⟩ := List.eq_append_cons_of_mem h
    apply hmore line more hline
    exact lines_induction hlast hmore more
  . exact hlast cs h
termination_by cs.length

theorem newline_ne (hc : isBlank c = false) : '\n' ≠ c := by
  rintro rfl
  simp [isBlank_newline] at hc

theorem splitLines_last (h : '\n' ∉ line) : splitOnP (· == '\n') line = [line] := by
  apply splitOnP_eq_singleton
  intro c hc
  rw [beq_eq_false_iff_ne]
  rintro rfl
  exact h hc

theorem splitLines_more (h : '\n' ∉ line) (cs : List Char) :
    splitOnP (· == '\n') (line ++ '\n' :: cs) = line :: splitOnP (· == '\n') cs := by
  apply splitOnP_append
  . intro c hc
    rw [beq_eq_false_iff_ne]
    rintro rfl
    exact h hc
  . rfl

def AllLines (first other : List Char → Prop) (cs : List Char) : Prop :=
  (∀ line ∈ (splitOnP (· == '\n') cs).head?, first line) ∧ ∀ line ∈ (splitOnP (· == '\n') cs).tail,
    other line

theorem allLines_last {first other : List Char → Prop} (h : '\n' ∉ line) :
    AllLines first other line ↔ first line := by
  simp [AllLines, splitLines_last h]

theorem allLines_more {first other : List Char → Prop} (h : '\n' ∉ line) :
    AllLines first other (line ++ '\n' :: cs) ↔ first line ∧ AllLines other other cs := by
  obtain ⟨head, tail, hlines⟩ := List.exists_cons_of_ne_nil (splitOnP_ne_nil (· == '\n') cs)
  simp [AllLines, splitLines_more h, hlines]

theorem AllLines.right {first other : List Char → Prop} {used rest : List Char}
    (h : AllLines first other (used ++ rest)) : AllLines (fun _ => True) other rest := by
  induction used using lines_induction generalizing first with
  | hlast line hline =>
    by_cases hrest : '\n' ∈ rest
    . obtain ⟨more, after, rfl, hmore⟩ := List.eq_append_cons_of_mem hrest
      rw [← List.append_assoc, allLines_more (by simp [hline, hmore])] at h
      exact (allLines_more hmore).mpr ⟨trivial, h.2⟩
    . exact (allLines_last hrest).mpr trivial
  | hmore line cs hline ih =>
    rw [List.append_assoc, List.cons_append, allLines_more hline] at h
    exact ih h.2

def ShowsEarly (ok : List Char → Prop) : Prop :=
  ∀ blank c more, isBlank c = false → ok (blank ++ c :: more) → ok (blank ++ [c])

theorem AllLines.left {first other : List Char → Prop} {before more : List Char}
    (hfirst : ShowsEarly first) (hother : ShowsEarly other) (hc : isBlank c = false)
    (h : AllLines first other (before ++ c :: more)) : AllLines first other (before ++ [c]) := by
  have hne := newline_ne hc
  induction before using lines_induction generalizing first with
  | hlast line hline =>
    apply (allLines_last (by simp [hline, hne])).mpr
    by_cases hmore : '\n' ∈ more
    . obtain ⟨rest, after, rfl, hrest⟩ := List.eq_append_cons_of_mem hmore
      rw [← List.cons_append, ← List.append_assoc, allLines_more (by simp [hline, hrest, hne])] at h
      exact hfirst _ _ _ hc h.1
    . rw [allLines_last (by simp [hline, hmore, hne])] at h
      exact hfirst _ _ _ hc h
  | hmore line cs hline ih =>
    rw [List.append_assoc, List.cons_append, allLines_more hline] at h ⊢
    exact ⟨h.1, ih hother h.2⟩

end Text

/-! ### Lines that differ in white space -/

namespace Token.Reflow

variable {cs ds line : List Char} {fresh : Bool}

theorem blanks_induction {P : List Char → Prop} {blank : List Char}
    (hblank : ∀ c ∈ blank, Text.isBlank c = true) (hline : '\n' ∉ blank) (hnil : P [])
    (hcons : ∀ c more, Text.isBlank c = true → c ≠ '\n' → P more → P (c :: more)) : P blank := by
  induction blank with
  | nil => exact hnil
  | cons c blank ih =>
    rw [List.forall_mem_cons] at hblank
    rw [List.mem_cons, not_or] at hline
    apply hcons c blank hblank.1
    . exact Ne.symm hline.1
    . exact ih hblank.2 hline.2

theorem outdentBy {blank : List Char} (hblank : ∀ c ∈ blank, Text.isBlank c = true)
    (hline : '\n' ∉ blank) (h : Reflow true cs ds) : Reflow true (blank ++ cs) ds := by
  apply blanks_induction hblank hline h
  intro c more hc hne ih
  exact .outdent hc hne ih

theorem indentBy {blank : List Char} (hblank : ∀ c ∈ blank, Text.isBlank c = true)
    (hline : '\n' ∉ blank) (h : Reflow true cs ds) : Reflow true cs (blank ++ ds) := by
  apply blanks_induction hblank hline h
  intro c more hc hne ih
  exact .indent hc hne ih

theorem trailingBy {blank : List Char} (hblank : ∀ c ∈ blank, Text.isBlank c = true)
    (hline : '\n' ∉ blank)
    (h : Reflow fresh cs ('\n' :: ds)) : Reflow fresh (blank ++ cs) ('\n' :: ds) := by
  apply blanks_induction hblank hline h
  intro c more hc hne ih
  exact .trailing hc hne ih

theorem append_left (used : List Char) (h : ∀ fresh, Reflow fresh cs ds) :
    Reflow fresh (used ++ cs) (used ++ ds) := by
  induction used generalizing fresh with
  | nil => exact h fresh
  | cons c used ih => exact .char c ih

theorem dropBlankEnd (hline : '\n' ∉ line) (h : Reflow true cs ds) :
    Reflow fresh (line ++ '\n' :: cs) (Text.dropBlankEnd line ++ '\n' :: ds) := by
  obtain ⟨blank, hcs, hblank⟩ := dropBlankEnd_eq line
  generalize Text.dropBlankEnd line = used at hcs
  subst hcs
  rw [List.append_assoc]
  apply append_left
  intro fresh
  apply trailingBy hblank
  . intro hmem
    simp [hmem] at hline
  . exact .char '\n' h

theorem reindent {blank blank' : List Char} (hblank : ∀ c ∈ blank, Text.isBlank c = true)
    (hblank' : ∀ c ∈ blank', Text.isBlank c = true) (hline : '\n' ∉ blank ++ line)
    (hline' : '\n' ∉ blank') (h : Reflow true cs ds) :
    Reflow true ((blank ++ line) ++ '\n' :: cs)
      ((blank' ++ Text.dropBlankEnd line) ++ '\n' :: ds) := by
  rw [List.mem_append, not_or] at hline
  rw [List.append_assoc, List.append_assoc]
  apply outdentBy hblank hline.1
  apply indentBy hblank' hline'
  exact dropBlankEnd hline.2 h

theorem solid (h : Reflow fresh cs ds) :
    ds.filter (!Text.isBlank ·) = cs.filter (!Text.isBlank ·) := by
  induction h with
  | nil => rfl
  | char c _ ih => rw [List.filter_cons, List.filter_cons, ih]
  | trailing hc _ _ ih =>
    rw [ih, List.filter_cons_of_neg]
    simp [hc]
  | outdent hc _ _ ih =>
    rw [ih, List.filter_cons_of_neg]
    simp [hc]
  | indent hc _ _ ih =>
    rw [List.filter_cons_of_neg, ih]
    simp [hc]

end Token.Reflow

/-! ### Written lines -/

namespace Writer

open Token (Reflow)

variable {line before more cs : List Char} {n : Int} {level : Nat}
    {first other : List Char → List Char}
variable {ok fit : List Char → Prop} {fresh : Bool}

/-- A text with its first line and the lines after it written in two ways. -/
def mapLines (first other : List Char → List Char) (cs : List Char) : List Char :=
  match Text.splitOnP (· == '\n') cs with
  | [] => []
  | line :: lines => first line ++ lines.flatMap fun line => '\n' :: other line

theorem mapLines_last (h : '\n' ∉ line) : mapLines first other line = first line := by
  simp [mapLines, Text.splitLines_last h]

theorem mapLines_more (h : '\n' ∉ line) :
    mapLines first other (line ++ '\n' :: cs) = first line ++ '\n' :: mapLines other other cs := by
  obtain ⟨head, tail, hlines⟩ := List.exists_cons_of_ne_nil (Text.splitOnP_ne_nil (· == '\n') cs)
  simp [mapLines, Text.splitLines_more h, hlines]

/-- A way to write lines with other white space at their ends, and at their start only if the flag
says that a line starts. What follows a character that is no blank is written as it is but for the
blanks at its end, and what is before the character does not depend on it. -/
structure Moves (fresh : Bool) (ok : List Char → Prop) (write : List Char → List Char) : Prop where
  early : Text.ShowsEarly ok
  keeps : ∀ blank, ∃ blank', ∀ c more, Text.isBlank c = false → ok (blank ++ c :: more) →
    write (blank ++ c :: more) = blank' ++ c :: Text.dropBlankEnd more
  reflow : ∀ {line cs ds}, '\n' ∉ line → ok line → Reflow true cs ds →
    Reflow fresh (line ++ '\n' :: cs) (write line ++ '\n' :: ds)

theorem moves_dropBlankEnd (fresh : Bool) : Moves fresh (fun _ => True) Text.dropBlankEnd where
  early := by
    intro blank c more _ _
    trivial
  keeps := by
    intro used
    refine ⟨used, ?_⟩
    intro c more hc _
    exact Token.dropBlankEnd_append more hc
  reflow := by
    intro line cs ds hline _ h
    exact Reflow.dropBlankEnd hline h

theorem mapLines_split (hfirst : Moves fresh ok first) (hother : Moves true fit other)
    (before : List Char) :
    ∃ before', ∀ c more, Text.isBlank c = false → Text.AllLines ok fit (before ++ c :: more) →
      mapLines first other (before ++ c :: more) =
        before' ++ c :: mapLines Text.dropBlankEnd other more := by
  induction before using Text.lines_induction generalizing fresh first ok with
  | hlast line hline =>
    obtain ⟨blank', hwrite⟩ := hfirst.keeps line
    refine ⟨blank', ?_⟩
    intro c more hc hfit
    have hne := Text.newline_ne hc
    by_cases hmore : '\n' ∈ more
    . obtain ⟨rest, after, rfl, hrest⟩ := List.eq_append_cons_of_mem hmore
      rw [← List.cons_append, ← List.append_assoc] at hfit ⊢
      have hline : '\n' ∉ line ++ c :: rest := by simp [hline, hrest, hne]
      rw [Text.allLines_more hline] at hfit
      rw [mapLines_more hline, mapLines_more hrest, hwrite c rest hc hfit.1, List.append_assoc]
      rfl
    . have hline : '\n' ∉ line ++ c :: more := by simp [hline, hmore, hne]
      rw [Text.allLines_last hline] at hfit
      rw [mapLines_last hline, mapLines_last hmore, hwrite c more hc hfit]
  | hmore line cs hline ih =>
    obtain ⟨before', hwrite⟩ := ih hother
    refine ⟨first line ++ '\n' :: before', ?_⟩
    intro c more hc hfit
    rw [List.append_assoc, List.cons_append] at hfit ⊢
    rw [Text.allLines_more hline] at hfit
    rw [mapLines_more hline, hwrite c more hc hfit.2, List.append_assoc, List.cons_append]

theorem mapLines_cons (hc : Text.isBlank c = false) (cs : List Char) :
    mapLines Text.dropBlankEnd other (c :: cs) = c :: mapLines Text.dropBlankEnd other cs := by
  have hdrop : ∀ line, Text.dropBlankEnd (c :: line) = c :: Text.dropBlankEnd line := by
    intro line
    exact @Token.dropBlankEnd_append _ [] line hc
  have hne := Text.newline_ne hc
  by_cases hcs : '\n' ∈ cs
  . obtain ⟨line, more, rfl, hline⟩ := List.eq_append_cons_of_mem hcs
    rw [← List.cons_append, mapLines_more (by simp [hline, hne]), mapLines_more hline, hdrop,
      List.cons_append]
  . rw [mapLines_last (by simp [hcs, hne]), mapLines_last hcs, hdrop]

theorem mapLines_reflow (hfirst : Moves fresh ok first) (hother : Moves true fit other)
    (h : Text.AllLines ok fit cs) (rest : List Char) :
    Reflow fresh (cs ++ '\n' :: rest) (mapLines first other cs ++ '\n' :: rest) := by
  induction cs using Text.lines_induction generalizing first ok fresh with
  | hlast line hline =>
    rw [mapLines_last hline]
    rw [Text.allLines_last hline] at h
    exact hfirst.reflow hline h (.refl rest)
  | hmore line cs hline ih =>
    rw [Text.allLines_more hline] at h
    rw [mapLines_more hline, List.append_assoc, List.append_assoc]
    exact hfirst.reflow hline h.1 (ih hother h.2)

/-! ### The margin -/

theorem le_foldl_min_iff {bound first : Int} {rest : List Int} :
    bound ≤ rest.foldl min first ↔ bound ≤ first ∧ ∀ n ∈ rest, bound ≤ n := by
  induction rest generalizing first with
  | nil => simp
  | cons n rest ih => simp only [List.foldl_cons, ih, Int.le_min, List.forall_mem_cons, and_assoc]

theorem commonMargin_nonneg {column : Int} (hcolumn : 1 ≤ column) (rest : List (List Char)) :
    0 ≤ commonMargin column rest := by
  apply le_foldl_min_iff.mpr
  constructor
  . omega
  . intro n hn
    obtain ⟨line, _, rfl⟩ := List.mem_map.mp hn
    omega

def Fits (n : Int) (line : List Char) : Prop :=
  line.all Text.isBlank = false → n ≤ margin line

theorem fits_commonMargin (column : Int) {rest : List (List Char)} (hline : line ∈ rest) :
    Fits (commonMargin column rest) line := by
  intro hsolid
  apply (le_foldl_min_iff.mp (Int.le_refl _)).2
  apply List.mem_map.mpr
  exact ⟨line, List.mem_filter.mpr ⟨hline, by simp [hsolid]⟩, rfl⟩

theorem margin_append (blank more : List Char) (hc : Text.isBlank c = false) :
    margin (blank ++ c :: more) = blank.length - (Text.dropBlank blank).length := by
  rw [margin, Token.dropBlank_append more hc, List.length_append, List.length_append]
  omega

theorem all_isBlank_append (blank more : List Char) (hc : Text.isBlank c = false) :
    (blank ++ c :: more).all Text.isBlank = false := by
  simp [hc]

/-! ### Lines as they are written -/

/-- A line that is indented, unless there is nothing on it. -/
def indentChars (level : Nat) (line : List Char) : List Char :=
  (indent level (String.ofList line)).toList

theorem indentChars_of_ne_nil (level : Nat) (h : line ≠ []) :
    indentChars level line = List.replicate (2 * level) ' ' ++ line := by
  rw [indentChars, indent, if_neg, String.toList_append, String.toList_ofList, String.toList_ofList]
  intro hempty
  apply h
  rw [← @String.toList_ofList line, hempty]
  rfl

theorem indentChars_reflow {cs ds : List Char} (level : Nat)
    (h : Reflow true cs (line ++ '\n' :: ds)) :
    Reflow true cs (indentChars level line ++ '\n' :: ds) := by
  by_cases hline : line = []
  . subst hline
    exact h
  . rw [indentChars_of_ne_nil level hline, List.append_assoc]
    apply Reflow.indentBy
    . intro c hc
      rw [List.eq_of_mem_replicate hc]
      decide
    . intro hc
      exact absurd (List.eq_of_mem_replicate hc) (by decide)
    . exact h

def placedFirst (level : Nat) (line : List Char) : List Char :=
  indentChars level (Text.dropBlankEnd (Text.dropBlank line))

/-- A line after the first one. -/
def placed (level : Nat) (n : Int) (line : List Char) : List Char :=
  indentChars level (shifted n line)

theorem moves_placedFirst (level : Nat) : Moves true (fun _ => True) (placedFirst level) where
  early := by
    intro blank c more _ _
    trivial
  keeps := by
    intro blank
    refine ⟨List.replicate (2 * level) ' ' ++ Text.dropBlank blank, ?_⟩
    intro c more hc _
    rw [placedFirst, Token.dropBlank_append more hc, Token.dropBlankEnd_append more hc,
      indentChars_of_ne_nil level (by simp), List.append_assoc]
  reflow := by
    intro line cs ds hline _ h
    have hsplit : line.takeWhile Text.isBlank ++ Text.dropBlank line = line :=
      List.takeWhile_append_dropWhile
    rw [← hsplit] at hline
    apply indentChars_reflow
    have hflow := @Reflow.reindent _ _ _ _ [] (fun c hc => List.mem_takeWhile_imp hc)
      (by simp) hline (by simp) h
    rw [hsplit] at hflow
    exact hflow

theorem shifted_append (blank more : List Char) (hn : 0 ≤ n) (hc : Text.isBlank c = false)
    (h : Fits n (blank ++ c :: more)) :
    shifted n (blank ++ c :: more) = blank.drop n.toNat ++ c :: Text.dropBlankEnd more := by
  have hsolid := all_isBlank_append blank more hc
  have hle := h hsolid
  rw [margin_append _ _ hc] at hle
  rw [shifted, if_neg (by simp [hsolid]), dropMargin, if_neg (by omega),
    List.drop_append_of_le_length (by omega), Token.dropBlankEnd_append more hc]

theorem exists_solid (h : line.all Text.isBlank = false) :
    ∃ blank c more, line = blank ++ c :: more ∧ (∀ d ∈ blank, Text.isBlank d = true) ∧
      Text.isBlank c = false := by
  have hsplit : line.takeWhile Text.isBlank ++ Text.dropBlank line = line :=
    List.takeWhile_append_dropWhile
  cases hcore : Text.dropBlank line with
  | nil =>
    rw [Text.dropBlank, List.dropWhile_eq_nil_iff] at hcore
    rw [List.all_eq_true.mpr hcore] at h
    simp at h
  | cons c more =>
    rw [hcore] at hsplit
    refine ⟨_, c, more, hsplit.symm, fun d hd => List.mem_takeWhile_imp hd, ?_⟩
    have hhead := List.head?_dropWhile_not Text.isBlank line
    rw [← Text.dropBlank, hcore] at hhead
    exact hhead

theorem moves_placed (level : Nat) (hn : 0 ≤ n) : Moves true (Fits n) (placed level n) where
  early := by
    intro blank c more hc h _
    have h := h (all_isBlank_append blank more hc)
    rw [margin_append _ _ hc] at h ⊢
    exact h
  keeps := by
    intro blank
    refine ⟨List.replicate (2 * level) ' ' ++ blank.drop n.toNat, ?_⟩
    intro c more hc hfits
    rw [placed, shifted_append blank more hn hc hfits, indentChars_of_ne_nil level (by simp),
      List.append_assoc]
  reflow := by
    intro line cs ds hline hfits h
    apply indentChars_reflow
    cases hall : line.all Text.isBlank with
    | true =>
      rw [shifted, if_pos hall]
      apply Reflow.outdentBy (List.all_eq_true.mp hall) hline
      exact .char '\n' h
    | false =>
      obtain ⟨blank, c, more, rfl, hblank, hc⟩ := exists_solid hall
      rw [shifted_append blank more hn hc hfits]
      rw [← Token.dropBlankEnd_cons hc]
      apply Reflow.reindent hblank ?_ hline ?_ h
      . intro d hd
        exact hblank d (List.mem_of_mem_drop hd)
      . intro hnewline
        simp [List.mem_of_mem_drop hnewline] at hline

end Writer
end ComponentCompiler
