import ComponentCompiler.Proofs.Token.Trim

/-!
This module contains texts that differ only in white space beside line breaks. They are read as the
same tokens, except that strings, templates, regular expressions and markup may themselves be broken
into lines and then differ in the same way.
-/

namespace ComponentCompiler
namespace Token

/-- The second text has the same lines as the first one, each with another indentation and possibly
without the blanks at its end. The flag tells whether a line starts here. -/
inductive Reflow : Bool → List Char → List Char → Prop where
  | nil : Reflow fresh [] []
  | char (c : Char) (h : Reflow (c == '\n') cs ds) : Reflow fresh (c :: cs) (c :: ds)
  | trailing (hc : Text.isBlank c = true) (hline : c ≠ '\n') (h : Reflow fresh' cs ('\n' :: ds)) :
    Reflow fresh (c :: cs) ('\n' :: ds)
  | outdent (hc : Text.isBlank c = true) (hline : c ≠ '\n') (h : Reflow true cs ds) :
    Reflow true (c :: cs) ds
  | indent (hc : Text.isBlank c = true) (hline : c ≠ '\n') (h : Reflow true cs ds) :
    Reflow true cs (c :: ds)

variable {cs ds rest rest' used : List Char} {fresh : Bool}

namespace Reflow

theorem refl (cs : List Char) : Reflow fresh cs cs := by
  induction cs generalizing fresh with
  | nil => exact .nil
  | cons c cs ih => exact .char c ih

theorem cons_inv (hc : Text.isBlank c = false) (h : Reflow false (c :: cs) ds) :
    ∃ ds', ds = c :: ds' ∧ Reflow false cs ds' := by
  cases h with
  | char _ h =>
    have hline : (c == '\n') = false := by
      rw [beq_eq_false_iff_ne]
      rintro rfl
      simp [Text.isBlank_newline] at hc
    rw [hline] at h
    exact ⟨_, rfl, h⟩
  | trailing hblank =>
    rw [hc] at hblank
    simp at hblank

theorem append_inv (used : List Char) (hused : used.any Text.isBlank = false)
    (h : Reflow false (used ++ rest) ds) :
    ∃ rest', ds = used ++ rest' ∧ Reflow false rest rest' := by
  induction used generalizing ds with
  | nil => exact ⟨ds, rfl, h⟩
  | cons c used ih =>
    rw [List.any_cons, Bool.or_eq_false_iff] at hused
    rw [List.cons_append] at h
    obtain ⟨ds, rfl, hds⟩ := h.cons_inv hused.1
    obtain ⟨rest', rfl, hrest⟩ := ih hused.2 hds
    exact ⟨rest', rfl, hrest⟩

theorem head?_eq (h : Reflow false cs ds) : ds.head? = cs.head? ∨ ds.head? = some '\n' := by
  cases h with
  | nil => exact .inl rfl
  | char => exact .inl rfl
  | trailing => exact .inr rfl

theorem agrees (h : Reflow false cs ds) : Agrees cs ds := by
  have hnewline : isNeutral '\n' = true := isNeutral_of_isBlank Text.isBlank_newline
  induction cs generalizing ds with
  | nil =>
    cases h
    exact .nil
  | cons c cs ih =>
    cases h with
    | char _ h =>
      by_cases hc : c = '\n'
      . rw [hc]
        exact .of_isNeutral hnewline
      . rw [beq_eq_false_iff_ne.mpr hc] at h
        exact .cons (ih h)
    | trailing => exact .of_isNeutral hnewline

theorem dropWhile {p : Char → Bool} (hp : ∀ c, Text.isBlank c = true → p c = false)
    (h : Reflow false cs ds) :
    ds.takeWhile p = cs.takeWhile p ∧ Reflow false (cs.dropWhile p) (ds.dropWhile p) := by
  induction cs generalizing ds with
  | nil =>
    cases h
    exact ⟨rfl, .nil⟩
  | cons c cs ih =>
    cases hc : Text.isBlank c with
    | true =>
      -- a blank of the first text is a blank or a line feed in the second one
      obtain ⟨d, ds, rfl, hd⟩ : ∃ d ds', ds = d :: ds' ∧ Text.isBlank d = true := by
        cases h with
        | char => exact ⟨_, _, rfl, hc⟩
        | trailing => exact ⟨_, _, rfl, Text.isBlank_newline⟩
      simp only [List.takeWhile_cons, List.dropWhile_cons, hp c hc, hp d hd]
      exact ⟨rfl, h⟩
    | false =>
      obtain ⟨ds, rfl, h'⟩ := h.cons_inv hc
      by_cases hpc : p c = true
      . simp only [List.takeWhile_cons, List.dropWhile_cons, hpc, if_true]
        exact ⟨by rw [(ih h').1], (ih h').2⟩
      . simp only [List.takeWhile_cons, List.dropWhile_cons, hpc]
        exact ⟨rfl, h⟩

theorem dropBlank (h : Reflow fresh cs ds) :
    Reflow false (Text.dropBlank cs) (Text.dropBlank ds) := by
  unfold Text.dropBlank
  induction h with
  | nil => exact .nil
  | @char _ _ _ c h ih =>
    by_cases hc : Text.isBlank c = true
    . simp only [List.dropWhile_cons, hc, if_true]
      exact ih
    . simp only [List.dropWhile_cons, hc]
      exact .char c h
  | trailing hc hline h ih =>
    rw [List.dropWhile_cons, if_pos hc]
    exact ih
  | outdent hc hline h ih =>
    rw [List.dropWhile_cons, if_pos hc]
    exact ih
  | indent hc hline h ih =>
    simp only [List.dropWhile_cons, hc, if_true]
    exact ih

/-- A slash that may open a comment and a star that may end one are not the last character of their
line. -/
def insideLine : Gap → Bool
  | .blank | .line => false
  | .slash => true
  | .block _ star => star

theorem ne_of_isBlank (hc : Text.isBlank c = true) : c ≠ '/' ∧ c ≠ '*' := by
  constructor <;> (rintro rfl; simp [Text.isBlank] at hc)

theorem go_blank {state : Gap} (hc : Text.isBlank c = true) (hline : c ≠ '\n')
    (hstate : insideLine state = false) :
    afterGap.go state newline (c :: cs) = afterGap.go state newline cs := by
  have hline : (c == '\n') = false := beq_eq_false_iff_ne.mpr hline
  cases state with
  | blank => rw [afterGap.go, if_pos hc, hline, Bool.or_false]
  | slash => simp [insideLine] at hstate
  | line => simp [afterGap.go, beq_eq_false_iff_ne.mp hline]
  | block left star =>
    obtain rfl : star = false := hstate
    have hstar : (c == '*') = false := beq_eq_false_iff_ne.mpr (ne_of_isBlank hc).2
    simp [afterGap.go, hline, hstar]

theorem go_block_newline (left : Nat) (star newline : Bool) (cs : List Char) :
    afterGap.go (.block left star) newline ('\n' :: cs)
      =
    afterGap.go (.block left false) newline ('\n' :: cs) := by
  simp [afterGap.go]

theorem go_token {state : Gap} (h : Reflow fresh cs ds)
    (hstate : insideLine state = true → fresh = false)
    (hread : afterGap.go state newline cs = .ok (found, c :: more)) (left : Nat) :
    ∃ more', afterGap.go (afterGap.withLeft left state) newline ds = .ok (found, c :: more') ∧
      Reflow false more more' := by
  induction h generalizing state newline left with
  | nil =>
    cases state with
    | slash =>
      cases hread
      exact ⟨[], rfl, .nil⟩
    | blank => simp [afterGap.go] at hread
    | line => simp [afterGap.go] at hread
    | block => simp [afterGap.go] at hread
  | @char _ _ _ d h ih =>
    have hinside : d ≠ '\n' → (d == '\n') = false := beq_eq_false_iff_ne.mpr
    cases state with
    | blank =>
      simp only [afterGap.go, afterGap.withLeft] at hread ⊢
      by_cases hd : Text.isBlank d = true
      . rw [if_pos hd] at hread ⊢
        exact ih (by simp [insideLine]) hread left
      . have hline : d ≠ '\n' := by
          rintro rfl
          exact hd Text.isBlank_newline
        rw [hinside hline] at h ih
        rw [if_neg hd] at hread ⊢
        by_cases hslash : d = '/'
        . rw [if_pos hslash] at hread ⊢
          exact ih (by simp) hread left
        . rw [if_neg hslash] at hread ⊢
          cases hread
          exact ⟨_, rfl, h⟩
    | slash =>
      simp only [afterGap.go, afterGap.withLeft] at hread ⊢
      by_cases hslash : d = '/'
      . rw [if_pos hslash] at hread ⊢
        exact ih (by simp [insideLine]) hread left
      . rw [if_neg hslash] at hread ⊢
        by_cases hstar : d = '*'
        . rw [if_pos hstar] at hread ⊢
          exact ih (by simp [insideLine]) hread _
        . rw [if_neg hstar] at hread ⊢
          cases hread
          exact ⟨_, rfl, .char d h⟩
    | line =>
      simp only [afterGap.go, afterGap.withLeft] at hread ⊢
      by_cases hline : d = '\n'
      . rw [if_pos hline] at hread ⊢
        exact ih (by simp [insideLine]) hread left
      . rw [if_neg hline] at hread ⊢
        exact ih (by simp [insideLine]) hread left
    | block start star =>
      simp only [afterGap.go, afterGap.withLeft] at hread ⊢
      by_cases hstop : (star && d == '/') = true
      . rw [if_pos hstop] at hread ⊢
        exact ih (by simp [insideLine]) hread left
      . rw [if_neg hstop] at hread ⊢
        refine ih ?_ hread left
        intro hstar
        obtain rfl : d = '*' := by simpa [insideLine] using hstar
        decide
  | @trailing d _ _ _ _ hc hline h ih =>
    cases hinside : insideLine state with
    | false =>
      rw [go_blank hc hline hinside] at hread
      exact ih (by simp [hinside]) hread left
    | true =>
      obtain ⟨hslash, hstar⟩ := ne_of_isBlank hc
      cases state with
      | blank => simp [insideLine] at hinside
      | line => simp [insideLine] at hinside
      | slash =>
        rw [afterGap.go, if_neg hslash, if_neg hstar] at hread
        cases hread
        exact ⟨_, by simp [afterGap.go, afterGap.withLeft], .trailing hc hline h⟩
      | block start star =>
        have hstop : ¬ (star && d == '/') = true := by simp [hslash]
        rw [afterGap.go, if_neg hstop, beq_eq_false_iff_ne.mpr hstar, beq_eq_false_iff_ne.mpr hline,
          Bool.or_false] at hread
        obtain ⟨more', hread', hmore⟩ := ih (by simp [insideLine]) hread left
        refine ⟨more', ?_, hmore⟩
        rw [afterGap.withLeft, go_block_newline]
        exact hread'
  | outdent hc hline h ih =>
    have hinside : insideLine state = false := by simpa using hstate
    rw [go_blank hc hline hinside] at hread
    exact ih hstate hread left
  | indent hc hline h ih =>
    have hinside : insideLine state = false := by simpa using hstate
    obtain ⟨more', hread', hmore⟩ := ih hstate hread left
    refine ⟨more', ?_, hmore⟩
    rw [go_blank hc hline (by cases state <;> exact hinside)]
    exact hread'

theorem afterGap (h : Reflow fresh cs ds)
    (hread : Token.afterGap false cs = .ok (newline, c :: more)) :
    ∃ more', Token.afterGap false ds = .ok (newline, c :: more') ∧ Reflow false more more' := by
  exact h.go_token (by simp [insideLine]) hread 0

theorem ne_newline (hc : Text.isBlank c = false) : c ≠ '\n' := by
  rintro rfl
  simp [Text.isBlank_newline] at hc

theorem stringRest?_blank (hc : Text.isBlank c = true) (hline : c ≠ '\n')
    (hquote : Text.isBlank quote = false) : stringRest? quote (c :: cs) = stringRest? quote cs := by
  have hescape : c ≠ '\\' := by
    rintro rfl
    simp [Text.isBlank] at hc
  have hquote : c ≠ quote := by
    rintro rfl
    simp [hc] at hquote
  rw [stringRest?_cons hescape, if_neg hquote, if_neg hline]

theorem string {fresh : Bool} {cs ds : List Char} (h : Reflow fresh cs ds)
    (hquote : Text.isBlank quote = false) (hread : stringRest? quote cs = some rest) :
    ∃ rest', stringRest? quote ds = some rest' ∧ Reflow false rest rest' := by
  cases h with
  | nil => simp [stringRest?] at hread
  | @char cs ds _ c h =>
    by_cases hescape : c = '\\'
    . subst hescape
      cases cs with
      | nil => simp [stringRest?] at hread
      | cons d cs =>
        rw [stringRest?] at hread
        cases h with
        | char _ h =>
          obtain ⟨rest', hread', hrest⟩ := string h hquote hread
          exact ⟨rest', by rw [stringRest?]; exact hread', hrest⟩
        | trailing _ _ h =>
          -- the line feed would have to be inside the string
          obtain ⟨rest', hread', _⟩ := string h hquote hread
          rw [stringRest?_cons (by decide), if_neg (ne_newline hquote).symm] at hread'
          simp at hread'
    . rw [stringRest?_cons hescape] at hread ⊢
      split at hread
      . next hc =>
        cases hread
        rw [beq_eq_false_iff_ne.mpr (by rw [hc]; exact ne_newline hquote)] at h
        exact ⟨ds, by rw [if_pos hc], h⟩
      . next hc =>
        split at hread
        . simp at hread
        . next hline =>
          rw [if_neg hc, if_neg hline]
          exact string h hquote hread
  | trailing hc hline h =>
    rw [stringRest?_blank hc hline hquote] at hread
    exact string h hquote hread
  | outdent hc hline h =>
    rw [stringRest?_blank hc hline hquote] at hread
    exact string h hquote hread
  | indent hc hline h =>
    rw [stringRest?_blank hc hline hquote]
    exact string h hquote hread
termination_by cs.length + ds.length

theorem attributeString (h : Reflow fresh cs ds) (hquote : Text.isBlank quote = false)
    (hread : attributeStringRest? quote cs = some rest) :
    ∃ rest', attributeStringRest? quote ds = some rest' ∧ Reflow false rest rest' := by
  have hblank : ∀ c cs, Text.isBlank c = true →
      attributeStringRest? quote (c :: cs) = attributeStringRest? quote cs := by
    intro c cs hc
    rw [attributeStringRest?, if_neg (by rintro rfl; simp [hc] at hquote)]
  induction h with
  | nil => simp [attributeStringRest?] at hread
  | @char _ ds _ c h ih =>
    rw [attributeStringRest?] at hread ⊢
    split at hread
    . next hc =>
      cases hread
      rw [beq_eq_false_iff_ne.mpr (by rw [hc]; exact ne_newline hquote)] at h
      exact ⟨ds, by rw [if_pos hc], h⟩
    . next hc =>
      rw [if_neg hc]
      exact ih hread
  | trailing hc hline h ih => exact ih (hblank _ _ hc ▸ hread)
  | outdent hc hline h ih => exact ih (hblank _ _ hc ▸ hread)
  | indent hc hline h ih =>
    rw [hblank _ _ hc]
    exact ih hread

theorem regexRest?_blank (hc : Text.isBlank c = true) (hline : c ≠ '\n') (inClass : Bool) :
    regexRest? inClass (c :: cs) = regexRest? inClass cs := by
  have hne : c ≠ '\\' ∧ c ≠ ']' ∧ c ≠ '[' ∧ c ≠ '/' := by
    refine ⟨?_, ?_, ?_, ?_⟩ <;> (rintro rfl; simp [Text.isBlank] at hc)
  rw [regexRest?_cons hne.1 hline]
  cases inClass <;> simp [hne]

theorem regexRest?_newline (inClass : Bool) (cs : List Char) :
    regexRest? inClass ('\n' :: cs) = none := by
  unfold regexRest?
  simp

theorem isFlag_of_isBlank (c : Char) (hc : Text.isBlank c = true) :
    ('a' ≤ c && c ≤ 'z') = false := by
  exact isFlag_of_isNeutral (isNeutral_of_isBlank hc)

theorem regex {fresh : Bool} {cs ds : List Char} (h : Reflow fresh cs ds)
    (hread : regexRest? inClass cs = some rest) :
    ∃ rest', regexRest? inClass ds = some rest' ∧ Reflow false rest rest' := by
  cases h with
  | nil => simp [regexRest?] at hread
  | @char cs ds _ c h =>
    by_cases hescape : c = '\\'
    . subst hescape
      cases cs with
      | nil => simp [regexRest?] at hread
      | cons d cs =>
        rw [regexRest?] at hread
        cases h with
        | char _ h =>
          obtain ⟨rest', hread', hrest⟩ := regex h hread
          exact ⟨rest', by rw [regexRest?]; exact hread', hrest⟩
        | trailing _ _ h =>
          obtain ⟨rest', hread', _⟩ := regex h hread
          simp [regexRest?_newline] at hread'
    by_cases hline : c = '\n'
    . subst hline
      simp [regexRest?_newline] at hread
    rw [regexRest?_cons hescape hline] at hread ⊢
    cases inClass with
    | true =>
      simp only [if_true] at hread ⊢
      exact regex h hread
    | false =>
      simp only [Bool.false_eq_true, if_false] at hread ⊢
      split at hread
      . next hc =>
        rw [if_pos hc]
        exact regex h hread
      . next hc =>
        rw [if_neg hc]
        split at hread
        . next hslash =>
          cases hread
          rw [beq_eq_false_iff_ne.mpr hline] at h
          exact ⟨_, by rw [if_pos hslash], (h.dropWhile isFlag_of_isBlank).2⟩
        . next hslash =>
          rw [if_neg hslash]
          exact regex h hread
  | trailing hc hline h =>
    rw [regexRest?_blank hc hline] at hread
    exact regex h hread
  | outdent hc hline h =>
    rw [regexRest?_blank hc hline] at hread
    exact regex h hread
  | indent hc hline h =>
    rw [regexRest?_blank hc hline]
    exact regex h hread
termination_by cs.length + ds.length

theorem isWord_of_isBlank (hc : Text.isBlank c = true) : Text.isWord c = false ∧ c ≠ '$' := by
  have hname := isNamePart_of_isNeutral (isNeutral_of_isBlank hc)
  simpa [isNamePart] using hname

theorem isTagPart_of_isBlank (c : Char) (hc : Text.isBlank c = true) : isTagPart c = false := by
  have hne : c ≠ '.' ∧ c ≠ ':' ∧ c ≠ '-' := by
    refine ⟨?_, ?_, ?_⟩ <;> (rintro rfl; simp [Text.isBlank] at hc)
  simp [isTagPart, isWord_of_isBlank hc, hne]

theorem isAttributePart_of_isBlank (c : Char) (hc : Text.isBlank c = true) :
    isAttributePart c = false := by
  have hne : c ≠ ':' ∧ c ≠ '-' := by
    refine ⟨?_, ?_⟩ <;> (rintro rfl; simp [Text.isBlank] at hc)
  simp [isAttributePart, isWord_of_isBlank hc, hne]

theorem tagName (h : Reflow false cs ds) (hname : tagName? cs = some (tag, rest)) :
    ∃ rest', tagName? ds = some (tag, rest') ∧ Reflow false rest rest' := by
  obtain ⟨c, more, rfl, hletter, rfl, rfl⟩ := tagName?_eq_some hname
  obtain ⟨more', rfl, hmore⟩ :=
    h.cons_inv (isBlank_of_not_isNeutral (isNeutral_of_isAsciiLetter hletter))
  obtain ⟨htake, hdrop⟩ := hmore.dropWhile isTagPart_of_isBlank
  refine ⟨more'.dropWhile isTagPart, ?_, hdrop⟩
  rw [tagName?, if_pos hletter, htake]

theorem isBlank_of_isNameStart (hc : isNameStart c = true) : Text.isBlank c = false := by
  simp only [isNameStart, Bool.or_eq_true, beq_iff_eq] at hc
  rcases hc with (hc | rfl) | rfl
  . exact isBlank_of_not_isNeutral (isNeutral_of_isAsciiLetter hc)
  . decide
  . decide

theorem attributeName (h : Reflow false cs ds) (hname : attributeName? cs = some (name, rest)) :
    ∃ rest', attributeName? ds = some (name, rest') ∧ Reflow false rest rest' := by
  obtain ⟨c, more, rfl, hstart, rfl, rfl⟩ := attributeName?_eq_some hname
  obtain ⟨more', rfl, hmore⟩ := h.cons_inv (isBlank_of_isNameStart hstart)
  obtain ⟨htake, hdrop⟩ := hmore.dropWhile isAttributePart_of_isBlank
  refine ⟨more'.dropWhile isAttributePart, ?_, hdrop⟩
  rw [attributeName?, if_pos hstart, htake]

theorem closingTag (h : Reflow false cs ds)
    (hread : Token.closingTag tag ('<' :: '/' :: cs) = .ok rest) :
    ∃ rest', Token.closingTag tag ('<' :: '/' :: ds) = .ok rest' ∧ Reflow false rest rest' := by
  rw [closingTag_ok] at hread
  obtain ⟨after, hname, hafter⟩ := hread
  obtain ⟨after', hname', h⟩ := h.dropBlank.tagName hname
  have hrest := h.dropBlank
  rw [hafter] at hrest
  obtain ⟨rest', hafter', hrest⟩ := hrest.cons_inv (by decide)
  exact ⟨rest', closingTag_ok.mpr ⟨after', hname', hafter'⟩, hrest⟩

theorem length_lt_of_attributeName
    (hname : attributeName? (Text.dropBlank cs) = some (name, after)) :
    after.length < cs.length := by
  obtain ⟨hcs, hne, _⟩ := attributeName?_append hname
  have hlength := congrArg List.length hcs
  have := Text.dropBlank_length_le cs
  have := List.length_pos_iff.mpr hne
  rw [List.length_append] at hlength
  omega

theorem length_lt_of_equalSign (hname : attributeName? (Text.dropBlank cs) = some (name, after))
    (hequal : Text.dropBlank after = '=' :: more) : (Text.dropBlank more).length < cs.length := by
  have hlength := congrArg List.length hequal
  have := length_lt_of_attributeName hname
  have := Text.dropBlank_length_le after
  have := Text.dropBlank_length_le more
  rw [List.length_cons] at hlength
  omega

theorem equalSign (h : Reflow fresh cs ds)
    (hname : attributeName? (Text.dropBlank cs) = some (name, after))
    (hequal : Text.dropBlank after = '=' :: more) :
    ∃ after' more', attributeName? (Text.dropBlank ds) = some (name, after') ∧
      Text.dropBlank after' = '=' :: more' ∧
        Reflow false (Text.dropBlank more) (Text.dropBlank more') ∧
      (Text.dropBlank more).length < cs.length ∧ (Text.dropBlank more').length < ds.length := by
  obtain ⟨after', hname', hafter⟩ := h.dropBlank.attributeName hname
  have hmore := hafter.dropBlank
  rw [hequal] at hmore
  obtain ⟨more', hequal', hmore⟩ := hmore.cons_inv (by decide)
  refine ⟨after', more', hname', hequal', hmore.dropBlank, ?_, ?_⟩
  . exact length_lt_of_equalSign hname hequal
  . exact length_lt_of_equalSign hname' hequal'

end Reflow

end Token
end ComponentCompiler
