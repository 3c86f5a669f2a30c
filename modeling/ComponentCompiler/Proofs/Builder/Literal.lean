import ComponentCompiler.Builder.Lowering
import ComponentCompiler.Proofs.Token.Join

/-!
This module contains how the literals that are written are read again. A string literal is read as
one string and decodes to its text. A template literal is read as one template without slots, and
its text is what is left if the escapes in it are taken off.
-/

namespace ComponentCompiler

namespace Json

def hexValue? (c : Char) : Option Nat :=
  if '0' ≤ c && c ≤ '9' then some (c.toNat - '0'.toNat)
  else if 'a' ≤ c && c ≤ 'f' then some (c.toNat - 'a'.toNat + 10)
  else if 'A' ≤ c && c ≤ 'F' then some (c.toNat - 'A'.toNat + 10)
  else none

/-- The number that four hexadecimal digits write. -/
def unit? : List Char → Option (Nat × List Char)
  | a :: b :: c :: d :: cs => do
    let n := (← hexValue? a) * 0x1000 + (← hexValue? b) * 0x100 + (← hexValue? c) * 0x10 +
      (← hexValue? d)
    return (n, cs)
  | _ => none

def isHigh (n : Nat) : Bool :=
  0xd800 ≤ n && n < 0xdc00

def isLow (n : Nat) : Bool :=
  0xdc00 ≤ n && n < 0xe000

def shortEscape? (c : Char) : Option Char :=
  if c = '"' || c = '\\' || c = '/' then some c
  else if c = 'n' then some '\n'
  else if c = 'r' then some '\r'
  else if c = 't' then some '\t'
  else if c = 'b' then some (Char.ofNat 8)
  else if c = 'f' then some (Char.ofNat 12)
  else none

/-- The character that is written with one unit, or with two. Of a pair each alone is no
character. -/
def unitChar? (n : Nat) (cs : List Char) : Option (Char × List Char) :=
  if isHigh n then
    match cs with
    | '\\' :: 'u' :: cs => do
      let (m, cs) ← unit? cs
      if isLow m then some (Char.ofNat (0x10000 + (n - 0xd800) * 0x400 + (m - 0xdc00)), cs)
        else none
    | _ => none
  else if isLow n then
    none
  else
    some (Char.ofNat n, cs)

/-- The character that is escaped by what follows a backslash. -/
def escaped? : List Char → Option (Char × List Char)
  | [] => none
  | c :: cs =>
    if c = 'u' then (unit? cs).bind fun unit => unitChar? unit.1 unit.2
    else (shortEscape? c).map (·, cs)

theorem length_of_unit? (h : unit? cs = some (n, rest)) : rest.length < cs.length := by
  unfold unit? at h
  split at h
  . simp only [Option.bind_eq_bind, Option.bind_eq_some_iff, Option.pure_def, Option.some.injEq,
      Prod.mk.injEq] at h
    obtain ⟨_, _, _, _, _, _, _, _, _, rfl⟩ := h
    simp only [List.length_cons]
    omega
  . cases h

theorem length_of_unitChar? (h : unitChar? n cs = some (c, rest)) : rest.length ≤ cs.length := by
  unfold unitChar? at h
  split at h
  . split at h
    . simp only [Option.bind_eq_bind, Option.bind_eq_some_iff] at h
      obtain ⟨⟨m, last⟩, hlow, h⟩ := h
      have := length_of_unit? hlow
      simp only [Option.ite_none_right_eq_some, Option.some.injEq, Prod.mk.injEq] at h
      obtain ⟨_, _, rfl⟩ := h
      simp only [List.length_cons]
      omega
    . cases h
  . simp only [Option.ite_none_left_eq_some, Option.some.injEq, Prod.mk.injEq] at h
    rw [h.2.2]

theorem length_of_escaped? (h : escaped? cs = some (c, rest)) : rest.length < cs.length := by
  unfold escaped? at h
  split at h
  . cases h
  split at h
  . obtain ⟨⟨n, more⟩, hunit, hchar⟩ := Option.bind_eq_some_iff.mp h
    have := length_of_unit? hunit
    have := length_of_unitChar? hchar
    simp only [List.length_cons] at *
    omega
  . obtain ⟨d, _, hpair⟩ := Option.map_eq_some_iff.mp h
    cases hpair
    simp

/-- The text of a string literal after its opening quote. Nothing may follow the closing quote, and
control characters are escaped. -/
def decodeRest? (cs : List Char) : Option (List Char) :=
  match cs with
  | [] => none
  | c :: cs =>
    if c = '"' then
      if cs.isEmpty then some [] else none
    else if c = '\\' then
      match _h : escaped? cs with
      | none => none
      | some (d, rest) => (decodeRest? rest).map (d :: ·)
    else if c.toNat < 0x20 then
      none
    else
      (decodeRest? cs).map (c :: ·)
termination_by cs.length
decreasing_by
  . have := length_of_escaped? ‹_›
    simp only [List.length_cons]
    omega
  . simp

def decode? (literal : String) : Option String :=
  match literal.toList with
  | [] => none
  | c :: cs => if c = '"' then (decodeRest? cs).map String.ofList else none

theorem decodeRest?_escape (h : escaped? cs = some (c, rest)) : decodeRest? ('\\' :: cs) =
    (decodeRest? rest).map (c :: ·) := by
  rw [decodeRest?, if_neg (by decide), if_pos rfl]
  split
  . next hnone => simp [h] at hnone
  . next d after hsome =>
    rw [h] at hsome
    cases hsome
    rfl

theorem decodeRest?_raw (hquote : c ≠ '"') (hescape : c ≠ '\\') (hcontrol : 0x20 ≤ c.toNat) :
    decodeRest? (c :: rest) = (decodeRest? rest).map (c :: ·) := by
  rw [decodeRest?, if_neg hquote, if_neg hescape, if_neg (by omega)]

theorem hexValue?_hexDigit : ∀ n < 16, hexValue? (hexDigit n) = some n := by
  decide

theorem unitEscape_append (n : Nat) (rest : List Char) :
    unitEscape n ++ rest = '\\' :: 'u' :: ((unitEscape n).drop 2 ++ rest) := rfl

theorem unit?_unitEscape (hn : n < 0x10000) (rest : List Char) :
    unit? ((unitEscape n).drop 2 ++ rest) = some (n, rest) := by
  have hdigit : ∀ k, hexValue? (hexDigit (k % 16)) = some (k % 16) := by
    intro k
    apply hexValue?_hexDigit
    omega
  have hsum : n / 0x1000 % 16 * 0x1000 + n / 0x100 % 16 * 0x100 + n / 0x10 % 16 * 0x10 + n % 16 =
      n := by
    omega
  simp only [unitEscape, List.drop_succ_cons, List.drop_zero, List.cons_append, List.nil_append,
    unit?, hdigit, Option.bind_eq_bind, Option.bind_some, Option.pure_def]
  rw [hsum]

theorem decodeRest?_unitEscape (hn : n < 0x10000) (h : unitChar? n rest = some (c, after)) :
    decodeRest? (unitEscape n ++ rest) = (decodeRest? after).map (c :: ·) := by
  rw [unitEscape_append]
  apply decodeRest?_escape
  rw [escaped?, if_pos rfl, unit?_unitEscape hn, Option.bind_some]
  exact h

theorem decodeRest?_unit (hn : n < 0x10000) (hhigh : isHigh n = false) (hlow : isLow n = false)
    (rest : List Char) :
    decodeRest? (unitEscape n ++ rest) = (decodeRest? rest).map (Char.ofNat n :: ·) := by
  apply decodeRest?_unitEscape hn
  unfold unitChar?
  rw [hhigh, hlow]
  rfl

theorem decodeRest?_pair (hhigh : isHigh n = true) (hlow : isLow m = true) (rest : List Char) :
    decodeRest? (unitEscape n ++ (unitEscape m ++ rest))
      =
    (decodeRest? rest).map (Char.ofNat (0x10000 + (n - 0xd800) * 0x400 + (m - 0xdc00)) :: ·) := by
  have hn : n < 0x10000 := by
    simp only [isHigh, Bool.and_eq_true, decide_eq_true_eq] at hhigh
    omega
  have hm : m < 0x10000 := by
    simp only [isLow, Bool.and_eq_true, decide_eq_true_eq] at hlow
    omega
  apply decodeRest?_unitEscape hn
  rw [unitEscape_append, unitChar?, if_pos hhigh]
  dsimp only
  rw [unit?_unitEscape hm]
  dsimp only [Option.bind_eq_bind, Option.bind_some]
  rw [if_pos hlow]

theorem decodeRest?_charEscape (c : Char) (rest : List Char) :
    decodeRest? (charEscape c ++ rest) = (decodeRest? rest).map (c :: ·) := by
  have hvalid : c.toNat < 0xd800 ∨ 0xdfff < c.toNat ∧ c.toNat < 0x110000 := c.valid
  have hofNat := Char.ofNat_toNat c
  unfold charEscape
  generalize c.toNat = n at hvalid hofNat
  subst hofNat
  split
  . next hsmall =>
    apply decodeRest?_unit hsmall
    . simp only [isHigh, Bool.and_eq_false_imp, decide_eq_true_eq, decide_eq_false_iff_not]
      omega
    . simp only [isLow, Bool.and_eq_false_imp, decide_eq_true_eq, decide_eq_false_iff_not]
      omega
  . next hlarge =>
    obtain ⟨k, rfl⟩ := Nat.exists_eq_add_of_le (Nat.le_of_not_lt hlarge)
    rw [Nat.add_sub_cancel_left, List.append_assoc, decodeRest?_pair]
    . rw [Nat.add_sub_cancel_left, Nat.add_sub_cancel_left, Nat.add_assoc, Nat.div_add_mod']
    . simp only [isHigh, Bool.and_eq_true, decide_eq_true_eq]
      omega
    . simp only [isLow, Bool.and_eq_true, decide_eq_true_eq]
      omega

theorem decodeRest?_quotedChar {raw : Char → Bool} (hraw : ∀ c, raw c = true → 0x20 ≤ c.toNat)
    (c : Char) (rest : List Char) :
    decodeRest? (quotedChar raw c ++ rest) = (decodeRest? rest).map (c :: ·) := by
  have hcode : ∀ n, c.toNat = n → c = Char.ofNat n := by
    rintro n rfl
    exact (Char.ofNat_toNat c).symm
  unfold quotedChar
  split
  . next hc =>
    rw [hc]
    apply decodeRest?_escape
    simp [escaped?, shortEscape?]
  split
  . next hc =>
    rw [hc]
    apply decodeRest?_escape
    simp [escaped?, shortEscape?]
  split
  . next hc =>
    rw [hc]
    apply decodeRest?_escape
    simp [escaped?, shortEscape?]
  split
  . next hc =>
    rw [hc]
    apply decodeRest?_escape
    simp [escaped?, shortEscape?]
  split
  . next hc =>
    rw [hc]
    apply decodeRest?_escape
    simp [escaped?, shortEscape?]
  split
  . next hc =>
    rw [hcode 8 hc]
    apply decodeRest?_escape
    simp [escaped?, shortEscape?]
  split
  . next hc =>
    rw [hcode 12 hc]
    apply decodeRest?_escape
    simp [escaped?, shortEscape?]
  split
  . next hquote hescape _ _ _ _ _ hc => exact decodeRest?_raw hquote hescape (hraw c hc)
  . apply decodeRest?_charEscape

theorem decode?_quoted {raw : Char → Bool} (hraw : ∀ c, raw c = true → 0x20 ≤ c.toNat)
    (s : String) : decode? (quoted raw s) = some s := by
  have hdecode : ∀ cs, decodeRest? (cs.flatMap (quotedChar raw) ++ ['"']) = some cs := by
    intro cs
    induction cs with
    | nil => simp [decodeRest?]
    | cons c cs ih =>
      rw [List.flatMap_cons, List.append_assoc, decodeRest?_quotedChar hraw, ih, Option.map_some]
  simp [decode?, quoted, hdecode]

open Token (stringRest?)

theorem ne_of_hexDigit : ∀ n < 16, hexDigit n ≠ '"' ∧ hexDigit n ≠ '\\' ∧ hexDigit n ≠ '\n' := by
  decide

theorem stringRest?_escape (c : Char) (rest : List Char) :
    stringRest? '"' ('\\' :: c :: rest) = stringRest? '"' rest := by
  rw [stringRest?, if_pos rfl]

theorem stringRest?_unitEscape (n : Nat) (rest : List Char) :
    stringRest? '"' (unitEscape n ++ rest) = stringRest? '"' rest := by
  have hdigit : ∀ k cs, stringRest? '"' (hexDigit (k % 16) :: cs) = stringRest? '"' cs := by
    intro k cs
    obtain ⟨hquote, hescape, hnewline⟩ := ne_of_hexDigit (k % 16) (by omega)
    rw [Token.stringRest?_cons hescape, if_neg hquote, if_neg hnewline]
  simp only [unitEscape, List.cons_append, List.nil_append]
  rw [stringRest?_escape, hdigit, hdigit, hdigit, hdigit]

theorem stringRest?_quotedChar (raw : Char → Bool) (c : Char) (rest : List Char) :
    stringRest? '"' (quotedChar raw c ++ rest) = stringRest? '"' rest := by
  unfold quotedChar
  split
  . apply stringRest?_escape
  split
  . apply stringRest?_escape
  split
  . apply stringRest?_escape
  split
  . apply stringRest?_escape
  split
  . apply stringRest?_escape
  split
  . apply stringRest?_escape
  split
  . apply stringRest?_escape
  split
  . next hquote hescape hnewline _ _ _ _ _ =>
    rw [List.singleton_append, Token.stringRest?_cons hescape, if_neg hquote, if_neg hnewline]
  . unfold charEscape
    split
    . apply stringRest?_unitEscape
    . rw [List.append_assoc, stringRest?_unitEscape, stringRest?_unitEscape]

theorem stringRest?_quoted (raw : Char → Bool) (cs rest : List Char) :
    stringRest? '"' (cs.flatMap (quotedChar raw) ++ '"' :: rest) = some rest := by
  induction cs with
  | nil => simp [Token.stringRest?_cons]
  | cons c cs ih => rw [List.flatMap_cons, List.append_assoc, stringRest?_quotedChar, ih]

end Json

namespace Token

/-- Reading on in a template comes to a slot with the given content. -/
inductive EntersSlot : List Char → List Char → Prop where
  | here : EntersSlot ('$' :: '\x7b' :: content) content
  | escape (h : EntersSlot (more.drop 1) content) : EntersSlot ('\\' :: more) content
  | char (hescape : c ≠ '\\') (hstop : c ≠ '\x60') (hslot : c = '$' → more.head? ≠ some '\x7b')
      (h : EntersSlot more content) :
    EntersSlot (c :: more) content

theorem not_entersSlot_char (hescape : c ≠ '\\') (hslot : c = '$' → more.head? ≠ some '\x7b')
    (h : ¬ EntersSlot more content) : ¬ EntersSlot (c :: more) content := by
  intro hc
  cases hc with
  | here => simp at hslot
  | escape => exact hescape rfl
  | char _ _ _ hmore => exact h hmore

theorem not_entersSlot_escape (h : ¬ EntersSlot more content) :
    ¬ EntersSlot ('\\' :: c :: more) content := by
  intro hc
  cases hc with
  | escape hmore => exact h hmore
  | char hescape => exact hescape rfl

theorem scan_of_lexeme {text : String} {kind : Kind} (htext : text.toList = c :: more)
    (hblank : Text.isBlank c = false) (hcomment : opensComment c more = false)
    (hread : ∀ n, more.length ≤ n →
      lexeme (templateRest n) (markupRest n) true c more = .ok (kind, [])) :
    scan text = .ok [⟨kind, text, 0, text.length, false⟩] := by
  have hstarts : Word.Starts ⟨[], kind, text.toList, false⟩ true [] := by
    constructor
    . simp only [htext, List.nil_append, List.append_nil]
      exact afterGap_of_token hblank hcomment
    . refine ⟨c, more, htext, ?_⟩
      rw [List.append_nil]
      exact hread
  have hrun : Run true [⟨[], kind, text.toList, false⟩] [] := ⟨hstarts, trivial⟩
  rw [scan_of_run hrun (by simp [Word.chars])]
  simp [tokensAt, Word.token, Word.chars, String.length_toList]

end Token

namespace Builder

def templateLiteral (text : String) : String :=
  String.ofList ('\x60' :: (templateText text.toList ++ ['\x60']))

/-- A text with `new` for each occurrence of `old`, from its start on. The number is how many
characters of the last occurrence are left. -/
def replacing (old new : List Char) : Nat → List Char → List Char
  | _, [] => []
  | left + 1, _ :: cs => replacing old new left cs
  | 0, c :: cs =>
    if old.isPrefixOf (c :: cs) then new ++ replacing old new (old.length - 1) cs
    else c :: replacing old new 0 cs

/-- A text with a backslash before each occurrence of these characters. -/
def escaping (marked cs : List Char) : List Char :=
  replacing marked ('\\' :: marked) 0 cs

theorem head?_escaping (hc : c ≠ '\\') (h : cs.head? ≠ some c) :
    (escaping marked cs).head? ≠ some c := by
  cases cs with
  | nil => exact h
  | cons d cs =>
    rw [escaping, replacing]
    split
    . simpa using hc.symm
    . exact h

/-- Escaping in one pass is escaping one mark after the other. The backslash is the first, so that
those which the others add are not escaped again. -/
theorem templateText_eq_escaping (cs : List Char) :
    templateText cs = escaping ['$', '\x7b'] (escaping ['\x60'] (escaping ['\\'] cs)) := by
  fun_induction templateText cs with
  | case1 => rfl
  | case2 cs ih => simp [ih, escaping, replacing]
  | case3 cs ih => simp [ih, escaping, replacing]
  | case4 cs ih => simp [ih, escaping, replacing]
  | case5 c cs hescape hquote hslot ih =>
    have hinner : escaping ['\x60'] (escaping ['\\'] (c :: cs)) =
        c :: escaping ['\x60'] (escaping ['\\'] cs) := by
      simp [escaping, replacing, Ne.symm hescape, Ne.symm hquote]
    -- a brace is not the next character now, unless it was
    have hhead : c = '$' → (escaping ['\x60'] (escaping ['\\'] cs)).head? ≠ some '\x7b' := by
      intro hc
      apply head?_escaping (by decide)
      apply head?_escaping (by decide)
      intro hbrace
      obtain ⟨more, hmore⟩ := List.head?_eq_some_iff.mp hbrace
      exact hslot more hc hmore
    rw [hinner, ih]
    generalize escaping ['\x60'] (escaping ['\\'] cs) = inner at *
    rw [escaping, escaping, replacing, if_neg]
    cases inner with
    | nil => simp
    | cons d inner =>
      simp only [List.head?_cons, ne_eq, Option.some.injEq] at hhead
      simp only [List.isPrefixOf, Bool.and_true, Bool.and_eq_true, beq_iff_eq, not_and]
      exact fun hc hd => hhead hc.symm hd.symm

/-- A text without the backslash before each character that is escaped. -/
def unescaped : List Char → List Char
  | [] => []
  | '\\' :: c :: cs => c :: unescaped cs
  | c :: cs => c :: unescaped cs

theorem unescaped_char (h : c ≠ '\\') (cs : List Char) :
    unescaped (c :: cs) = c :: unescaped cs := by
  rw [unescaped]
  intro _ _ hc
  exact absurd hc h

theorem unescaped_templateText (cs : List Char) : unescaped (templateText cs) = cs := by
  fun_induction templateText cs with
  | case1 => rfl
  | case2 cs ih => rw [unescaped, ih]
  | case3 cs ih => rw [unescaped, ih]
  | case4 cs ih => rw [unescaped, unescaped_char (by decide), ih]
  | case5 c cs hescape _ _ ih => rw [unescaped_char hescape, ih]

theorem head?_templateText (h : cs.head? ≠ some '\x7b') (rest : List Char) :
    (templateText cs ++ '\x60' :: rest).head? ≠ some '\x7b' := by
  fun_cases templateText cs with
  | case1 => simp
  | case2 => simp
  | case3 => simp
  | case4 => simp
  | case5 c cs => simpa using h

theorem slot_templateText (hslot : ∀ more, c = '$' → cs = '\x7b' :: more → False) (rest : List Char)
    (hc : c = '$') : (templateText cs ++ '\x60' :: rest).head? ≠ some '\x7b' := by
  apply head?_templateText
  intro hhead
  obtain ⟨more, hmore⟩ := List.head?_eq_some_iff.mp hhead
  exact hslot more hc hmore

theorem templateRest_templateText (cs rest : List Char) (left : Nat) :
    ∀ n, (templateText cs).length < n →
      Token.templateRest n left (templateText cs ++ '\x60' :: rest) = .ok rest := by
  have hescape : ∀ n c more, Token.templateRest n left more = .ok rest →
      Token.templateRest (n + 1) left ('\\' :: c :: more) = .ok rest := by
    intro n c more h
    apply Token.templateRest_succ_ok.mpr
    exact .escape h
  fun_induction templateText cs with
  | case1 =>
    intro n hn
    obtain ⟨n, rfl⟩ := Nat.exists_eq_add_of_lt hn
    apply Token.templateRest_succ_ok.mpr
    exact .stop
  | case2 cs ih =>
    intro n hn
    obtain ⟨n, rfl⟩ := Nat.exists_eq_add_of_lt hn
    apply hescape
    apply ih
    simp only [List.length_cons]
    omega
  | case3 cs ih =>
    intro n hn
    obtain ⟨n, rfl⟩ := Nat.exists_eq_add_of_lt hn
    apply hescape
    apply ih
    simp only [List.length_cons]
    omega
  | case4 cs ih =>
    intro n hn
    obtain ⟨n, rfl⟩ := Nat.exists_eq_add_of_lt hn
    apply hescape
    rw [List.length_cons, Nat.add_right_comm]
    apply Token.templateRest_succ_ok.mpr
    apply Token.TemplateStep.char (by decide) (by decide) (by simp)
    apply ih
    simp only [List.length_cons]
    omega
  | case5 c cs hplain hstop hslot ih =>
    intro n hn
    obtain ⟨n, rfl⟩ := Nat.exists_eq_add_of_lt hn
    apply Token.templateRest_succ_ok.mpr
    apply Token.TemplateStep.char hplain hstop
    . exact slot_templateText hslot rest
    . apply ih
      simp only [List.length_cons]
      omega

theorem not_entersSlot_templateText (cs content : List Char) :
    ¬ Token.EntersSlot (templateText cs ++ ['\x60']) content := by
  fun_induction templateText cs with
  | case1 =>
    intro h
    cases h with
    | char _ hstop => exact hstop rfl
  | case2 cs ih => exact Token.not_entersSlot_escape ih
  | case3 cs ih => exact Token.not_entersSlot_escape ih
  | case4 cs ih =>
    apply Token.not_entersSlot_escape
    exact Token.not_entersSlot_char (by decide) (by simp) ih
  | case5 c cs hplain hstop hslot ih =>
    apply Token.not_entersSlot_char hplain
    . exact slot_templateText hslot []
    . exact ih

theorem scan_literal (text : String) :
    Token.scan (Json.literal text) =
      .ok [⟨.string, Json.literal text, 0, (Json.literal text).length, false⟩] := by
  apply Token.scan_of_lexeme (String.toList_ofList)
  . decide
  . simp [Token.opensComment]
  . intro n _
    apply Token.lexeme_ok.mpr
    apply Token.LexemeStep.string (.inr rfl)
    apply Json.stringRest?_quoted

theorem scan_templateLiteral (text : String) :
    Token.scan (templateLiteral text) =
      .ok [⟨.template, templateLiteral text, 0, (templateLiteral text).length, false⟩] := by
  apply Token.scan_of_lexeme (String.toList_ofList)
  . decide
  . simp [Token.opensComment]
  . intro n hn
    apply Token.lexeme_ok.mpr
    apply Token.LexemeStep.template rfl
    apply templateRest_templateText
    rw [List.length_append, List.length_singleton] at hn
    omega

theorem skipTemplate_templateLiteral (text : String) :
    Token.skipTemplate (templateLiteral text) 0 = .ok (templateLiteral text).length := by
  have htext : (templateLiteral text).toList.drop 1 = templateText text.toList ++ ['\x60'] := by
    rw [templateLiteral, String.toList_ofList, List.drop_one, List.tail_cons]
  unfold Token.skipTemplate
  rw [Nat.zero_add, htext]
  dsimp only
  rw [templateRest_templateText]
  . rfl
  . rw [List.length_append]
    omega

/-- The literals for a text are read as one token each. The string decodes to the text. No slot is
entered in the template, and the text is what its escapes leave. These are for backslashes, then for
quotes and then for what would open a slot. -/
theorem literals_of_text (text : String) :
    (Token.scan (Json.literal text) =
      .ok [⟨.string, Json.literal text, 0, (Json.literal text).length, false⟩] ∧
      Json.decode? (Json.literal text) = some text) ∧
    Token.scan (templateLiteral text) =
      .ok [⟨.template, templateLiteral text, 0, (templateLiteral text).length, false⟩] ∧
    Token.skipTemplate (templateLiteral text) 0 = .ok (templateLiteral text).length ∧
    (∀ content, ¬ Token.EntersSlot (templateText text.toList ++ ['\x60']) content) ∧
    unescaped (templateText text.toList) = text.toList ∧
    templateText text.toList =
      escaping ['$', '\x7b'] (escaping ['\x60'] (escaping ['\\'] text.toList)) := by
  refine ⟨⟨scan_literal text, ?_⟩, scan_templateLiteral text, skipTemplate_templateLiteral text, ?_,
    ?_, ?_⟩
  . apply Json.decode?_quoted
    simp
  . exact not_entersSlot_templateText text.toList
  . apply unescaped_templateText
  . exact templateText_eq_escaping text.toList

end Builder
end ComponentCompiler
