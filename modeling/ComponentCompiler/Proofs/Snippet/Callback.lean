import ComponentCompiler.Proofs.Snippet.Tokens

/-!
This module contains what an arrow function with a block keeps of the block. It has what is done
before the first `return` and what is returned there, up to the first `;`. So all of the block is
kept just if nothing but a `;` follows.
-/

namespace ComponentCompiler
namespace Snippet

open Token (startLine)

variable {s : Snippet} {head sign : Item} {inner : List Item} {opener closer : Token}
    {arrow : Arrow}

/-- The tokens of the prelude, of which there are none if there is no prelude. -/
def Arrow.PreludeReads (arrow : Arrow) (tokens : List Token) : Prop :=
  match arrow.prelude with
  | none => tokens = []
  | some prelude => prelude.Reads tokens

/-- The tokens of a block are those of the prelude, `return`, those of the body and at most one
`;`. -/
def Arrow.KeepsAll (arrow : Arrow) (tokens : List Token) : Prop :=
  ∃ prelude keyword body last, tokens = prelude ++ keyword :: (body ++ last) ∧
    arrow.PreludeReads prelude ∧
    keyword.isName "return" = true ∧ arrow.body.Reads body ∧
    (last = [] ∨ ∃ t, last = [t] ∧ t.isPunct ";" = true)

/-- The block is what is done before its first `return`, what is returned up to the first `;`, and a
rest. The arrow function has the first two. -/
structure Arrow.Keeps (arrow : Arrow) (s : Snippet) (inner rest : List Item) : Prop where
  split : ∃ before keyword value, inner = before ++ keyword :: (value ++ rest) ∧
    keyword.isName "return" = true ∧ (∀ item ∈ before, item.isName "return" = false) ∧
    value ≠ [] ∧ (∀ item ∈ value, item.isPunct ";" = false) ∧
    (∀ item, rest.head? = some item → item.isPunct ";" = true) ∧
    arrow.PreludeReads (s.placed (Item.flattenAll before)) ∧
    arrow.body.Reads (s.placed (Item.flattenAll value))

theorem returned?_eq_some {body : Snippet} {prelude : Option Snippet}
    (h : s.returned? opener inner = some (body, prelude)) :
    ∃ before keyword value rest, inner = before ++ keyword :: (value ++ rest) ∧
      keyword.isName "return" = true ∧ (∀ item ∈ before, item.isName "return" = false) ∧
      value ≠ [] ∧ (∀ item ∈ value, item.isPunct ";" = false) ∧
        (∀ item, rest.head? = some item → item.isPunct ";" = true) ∧
      body = s.covering value ∧
      prelude = if before.isEmpty then none else some (s.sub opener.stop keyword.start).strip := by
  unfold returned? at h
  dsimp only at h
  rw [drop_length_takeWhile] at h
  split at h
  . cases h
  . next keyword after hafter =>
    obtain ⟨hinner, hkeyword⟩ := split_of_dropWhile hafter
    split at h
    . cases h
    . next hne =>
      rw [Option.some.injEq, Prod.mk.injEq] at h
      have hsplit : after = Item.before ";" after ++ after.dropWhile (!·.isPunct ";") :=
        List.takeWhile_append_dropWhile.symm
      rw [hsplit] at hinner
      refine ⟨_, keyword, _, _, hinner, by simpa using hkeyword, ?_, hne, ?_, ?_, h.1.symm,
        h.2.symm⟩
      . intro item hitem
        simpa using List.mem_takeWhile_imp hitem
      . intro item hitem
        simpa using List.mem_takeWhile_imp hitem
      . intro item hitem
        have hhead := List.head?_dropWhile_not (!·.isPunct ";") after
        rw [hitem] at hhead
        simpa using hhead

theorem returned?_of_arrow? (hitems : s.items = .ok [head, sign, .group .curly opener inner closer])
    (h : s.arrow? = .ok (some arrow)) :
    s.returned? opener inner = some (arrow.body, arrow.prelude) := by
  rw [arrow?, hitems, ok_bind] at h
  dsimp only at h
  split at h
  . split at h
    . exact absurd (pure_eq_ok.mp h) (by simp)
    . rw [pure_eq_ok, Option.map_eq_some_iff] at h
      obtain ⟨⟨body, prelude⟩, hreturned, rfl⟩ := h
      exact hreturned
  . exact absurd (pure_eq_ok.mp h) (by simp)

theorem keeps_of_arrow? (hitems : s.items = .ok [head, sign, .group .curly opener inner closer])
    (h : s.arrow? = .ok (some arrow)) : ∃ rest, arrow.Keeps s inner rest := by
  obtain ⟨before, keyword, value, rest, rfl, hkeyword, hbefore, hne, hvalue, hrest, hbody,
      hprelude⟩ :=
    returned?_eq_some (returned?_of_arrow? hitems h)
  refine ⟨rest, before, keyword, value, rfl, hkeyword, hbefore, hne, hvalue, hrest, ?_, ?_⟩
  . obtain ⟨word, rfl, _⟩ := Item.exists_token_of_isName hkeyword
    obtain ⟨own, hscan, hgroup⟩ := bind_eq_ok.mp hitems
    have hown : own = (head.flatten ++ sign.flatten) ++
        opener :: (Item.flattenAll before ++ word ::
          (Item.flattenAll (value ++ rest) ++ [closer])) := by
      rw [← Token.flattenAll_group hgroup]
      simp [Item.flattenAll, Item.flatten, Token.flattenAll_append]
    rw [hown] at hscan
    cases Token.matched_of_group hgroup _
      (List.mem_cons_of_mem _ (List.mem_cons_of_mem _ List.mem_cons_self)) with
    | group hopener _ _ _ =>
      have hreads := reads_sub
        (Token.rescans_of_operandAfter hscan (Token.operandAfter_of_opens? hopener))
      unfold Arrow.PreludeReads
      cases before with
      | nil =>
        rw [hprelude]
        rfl
      | cons item before =>
        rw [hprelude]
        exact hreads.strip
  . have hoperand : Operand
        [head, sign, .group .curly opener (before ++ keyword :: (value ++ rest)) closer] value := by
      rw [List.append_cons]
      exact .inside (List.mem_cons_of_mem _ (List.mem_cons_of_mem _ List.mem_cons_self)) hne
        (dueAfter_return before hkeyword)
    rw [hbody]
    exact reads_covering hitems hoperand

theorem Reads.length_of_scan {tokens own : List Token} (h : s.Reads tokens)
    (hscan : Token.scan s.text = .ok own) : tokens.length = own.length := by
  obtain ⟨own', hscan', hown⟩ := h
  obtain rfl := Except.ok.inj (hscan.symm.trans hscan')
  have hlength : ∀ tokens, (startLine tokens).length = tokens.length := by
    intro tokens
    cases tokens <;> rfl
  rw [← hlength tokens, ← hown, hlength, placed, List.length_map]

theorem Reads.length_eq {tokens more : List Token} (h : s.Reads tokens) (hmore : s.Reads more) :
    tokens.length = more.length := by
  obtain ⟨own, hscan, _⟩ := id h
  rw [h.length_of_scan hscan, hmore.length_of_scan hscan]

theorem Arrow.PreludeReads.length_eq {tokens more : List Token} (h : arrow.PreludeReads tokens)
    (hmore : arrow.PreludeReads more) : tokens.length = more.length := by
  unfold Arrow.PreludeReads at h hmore
  cases hprelude : arrow.prelude with
  | none =>
    rw [hprelude] at h hmore
    rw [h, hmore]
  | some prelude =>
    rw [hprelude] at h hmore
    exact Reads.length_eq h hmore

theorem Arrow.Keeps.keepsAll_iff {rest : List Item} (h : arrow.Keeps s inner rest) :
    arrow.KeepsAll (s.placed (Item.flattenAll inner)) ↔ rest.length ≤ 1 := by
  obtain ⟨before, keyword, value, rfl, hkeyword, _, _, _, hrest, hprelude, hbody⟩ := h
  obtain ⟨word, rfl, hword⟩ := Item.exists_token_of_isName hkeyword
  have hplaced : s.placed (Item.flattenAll (before ++ .token word :: (value ++ rest)))
      = s.placed (Item.flattenAll before) ++ word.shift s.origin.offset ::
        (s.placed (Item.flattenAll value) ++ s.placed (Item.flattenAll rest)) := by
    simp [placed, Item.flattenAll, Item.flatten, Token.flattenAll_append]
  rw [hplaced]
  constructor
  . rintro ⟨prelude, keyword, body, last, hsplit, hreads, _, hreads', hlast⟩
    -- what the prelude and the body read is as long here as there, so that what is left is as well
    have hcount := congrArg List.length hsplit
    have hbefore := hprelude.length_eq hreads
    have hvalue := hbody.length_eq hreads'
    have hone : last.length ≤ 1 := by
      rcases hlast with rfl | ⟨t, rfl, _⟩
      . exact Nat.zero_le 1
      . exact Nat.le_refl 1
    have hle := Item.length_le_flattenAll rest
    simp only [List.length_append, List.length_cons, placed,
      List.length_map] at hcount hbefore hvalue
    omega
  . intro hle
    refine ⟨_, _, _, _, rfl, hprelude, hword, hbody, ?_⟩
    cases rest with
    | nil => exact .inl rfl
    | cons item rest =>
      obtain rfl : rest = [] := by simpa using hle
      obtain ⟨t, rfl, ht⟩ := Item.exists_token_of_isPunct (hrest item rfl)
      exact .inr ⟨t.shift s.origin.offset, rfl, ht⟩

/-- An arrow function with a block keeps what comes before the first `return` and what is returned,
up to the first `;`. All of the block is kept just if nothing but that `;` follows. -/
theorem keepsAll_of_arrow? (hitems : s.items = .ok [head, sign, .group .curly opener inner closer])
    (h : s.arrow? = .ok (some arrow)) :
    ∃ rest, arrow.Keeps s inner rest ∧
      (arrow.KeepsAll (s.placed (Item.flattenAll inner)) ↔ rest.length ≤ 1) := by
  obtain ⟨rest, hkeeps⟩ := keeps_of_arrow? hitems h
  exact ⟨rest, hkeeps, hkeeps.keepsAll_iff⟩

/-- A block with a statement before `return`. -/
theorem keepsAll_of_arrow?_prelude :
    let s : Snippet := ⟨"x => \x7b f();\n return <b/>; \x7d", ⟨1, 1, 0⟩, "<stdin>"⟩
    let inner : List Item :=
      [.token ⟨.name, "f", 7, 8, false⟩,
        .group .paren ⟨.punct, "(", 8, 9, false⟩ [] ⟨.punct, ")", 9, 10, false⟩,
      .token ⟨.punct, ";", 10, 11, false⟩, .token ⟨.name, "return", 13, 19, true⟩,
      .token ⟨.markup, "<b/>", 20, 24, false⟩,
      .token ⟨.punct, ";", 24, 25, false⟩]
    let arrow : Arrow :=
      ⟨["x"], ["x"], ⟨"<b/>", ⟨2, 9, 20⟩, "<stdin>"⟩, some ⟨"f();", ⟨1, 8, 7⟩, "<stdin>"⟩⟩
    (∃ head sign opener closer, s.items = .ok [head, sign, .group .curly opener inner closer]) ∧
      s.arrow? = .ok (some arrow) ∧
    ∃ rest, arrow.Keeps s inner rest ∧
      (arrow.KeepsAll (s.placed (Item.flattenAll inner)) ↔ rest.length ≤ 1) := by
  intro s inner arrow
  have hscan : Token.scan s.text = .ok
      [⟨.name, "x", 0, 1, false⟩, ⟨.punct, "=>", 2, 4, false⟩, ⟨.punct, "\x7b", 5, 6, false⟩,
        ⟨.name, "f", 7, 8, false⟩,
        ⟨.punct, "(", 8, 9, false⟩, ⟨.punct, ")", 9, 10, false⟩, ⟨.punct, ";", 10, 11, false⟩,
        ⟨.name, "return", 13, 19, true⟩,
        ⟨.markup, "<b/>", 20, 24, false⟩, ⟨.punct, ";", 24, 25, false⟩,
        ⟨.punct, "\x7d", 26, 27, false⟩] := by decide +kernel
  have hitems : s.items = .ok [.token ⟨.name, "x", 0, 1, false⟩, .token ⟨.punct, "=>", 2, 4, false⟩,
      .group .curly ⟨.punct, "\x7b", 5, 6, false⟩ inner ⟨.punct, "\x7d", 26, 27, false⟩] := by
    rw [items, hscan]
    rfl
  have harrow : s.arrow? = .ok (some arrow) := by decide +kernel
  exact ⟨⟨_, _, _, _, hitems⟩, harrow, keepsAll_of_arrow? hitems harrow⟩

/-- The block returns at two places, and what is returned at the second is lost. -/
theorem not_keepsAll_early_return :
    let s : Snippet := ⟨"x => \x7b if (x.a) return <b/>; return <i/> \x7d", ⟨1, 1, 0⟩, "<stdin>"⟩
    ∃ head sign opener inner closer arrow, s.items =
      .ok [head, sign, .group .curly opener inner closer] ∧
      s.arrow? = .ok (some arrow) ∧ ¬ arrow.KeepsAll (s.placed (Item.flattenAll inner)) := by
  intro s
  let arrow : Arrow :=
    ⟨["x"], ["x"], ⟨"<b/>", ⟨1, 24, 23⟩, "<stdin>"⟩, some ⟨"if (x.a)", ⟨1, 8, 7⟩, "<stdin>"⟩⟩
  let inner : List Item :=
    [.token ⟨.name, "if", 7, 9, false⟩, .group .paren ⟨.punct, "(", 10, 11, false⟩
      [.token ⟨.name, "x", 11, 12, false⟩, .token ⟨.punct, ".", 12, 13, false⟩,
        .token ⟨.name, "a", 13, 14, false⟩]
      ⟨.punct, ")", 14, 15, false⟩,
    .token ⟨.name, "return", 16, 22, false⟩, .token ⟨.markup, "<b/>", 23, 27, false⟩,
    .token ⟨.punct, ";", 27, 28, false⟩,
    .token ⟨.name, "return", 29, 35, false⟩, .token ⟨.markup, "<i/>", 36, 40, false⟩]
  have hscan : Token.scan s.text = .ok
      [⟨.name, "x", 0, 1, false⟩, ⟨.punct, "=>", 2, 4, false⟩, ⟨.punct, "\x7b", 5, 6, false⟩,
        ⟨.name, "if", 7, 9, false⟩,
        ⟨.punct, "(", 10, 11, false⟩, ⟨.name, "x", 11, 12, false⟩, ⟨.punct, ".", 12, 13, false⟩,
        ⟨.name, "a", 13, 14, false⟩,
        ⟨.punct, ")", 14, 15, false⟩, ⟨.name, "return", 16, 22, false⟩,
        ⟨.markup, "<b/>", 23, 27, false⟩,
        ⟨.punct, ";", 27, 28, false⟩, ⟨.name, "return", 29, 35, false⟩,
        ⟨.markup, "<i/>", 36, 40, false⟩,
        ⟨.punct, "\x7d", 41, 42, false⟩] := by decide +kernel
  refine ⟨.token ⟨.name, "x", 0, 1, false⟩, .token ⟨.punct, "=>", 2, 4, false⟩,
    ⟨.punct, "\x7b", 5, 6, false⟩, inner,
    ⟨.punct, "\x7d", 41, 42, false⟩, arrow, by rw [items, hscan]; rfl, by decide +kernel, ?_⟩
  rintro ⟨prelude, keyword, body, last, hsplit, hprelude, _, hbody, hlast⟩
  have hprelude : Reads ⟨"if (x.a)", ⟨1, 8, 7⟩, "<stdin>"⟩ prelude := hprelude
  have hscanPrelude :
      Token.scan "if (x.a)" = .ok [⟨.name, "if", 0, 2, false⟩, ⟨.punct, "(", 3, 4, false⟩,
      ⟨.name, "x", 4, 5, false⟩, ⟨.punct, ".", 5, 6, false⟩, ⟨.name, "a", 6, 7, false⟩,
      ⟨.punct, ")", 7, 8, false⟩] := by
    decide +kernel
  have hscanBody : Token.scan "<b/>" = .ok [⟨.markup, "<b/>", 0, 4, false⟩] := by decide +kernel
  have hpreludeLength := hprelude.length_of_scan hscanPrelude
  have hbodyLength := hbody.length_of_scan hscanBody
  -- the block has eleven tokens, of which the two parts and `return` make up eight
  have hcount : 11 = (prelude ++ keyword :: (body ++ last)).length := congrArg List.length hsplit
  simp only [List.length_append, List.length_cons,
    List.length_nil] at hcount hpreludeLength hbodyLength
  have hlastLength : 3 ≤ last.length := by omega
  rcases hlast with rfl | ⟨t, rfl, _⟩
  . simp at hlastLength
  . simp at hlastLength

end Snippet
end ComponentCompiler
