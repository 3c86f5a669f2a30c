import ComponentCompiler.Proofs.Token.Closed
import ComponentCompiler.Token.Scan

/-!
This module contains the reading of a text as a sequence of words, each a token with the gap before
it. What is read depends on nothing but the words themselves, whether an operand is due before the
first of them, and the start of what follows the last, so that sequences can be cut and joined.
-/

namespace ComponentCompiler
namespace Token

variable {rest next : List Char} {kind : Kind} {newline : Bool} {stop : Nat}

structure Word where
  gap : List Char
  kind : Kind
  text : List Char
  newline : Bool

namespace Word

def chars (w : Word) : List Char :=
  w.gap ++ w.text

def operandAfter (w : Word) : Bool :=
  Token.operandAfter w.kind (String.ofList w.text)

def token (w : Word) (pos : Nat) : Token :=
  ⟨w.kind, String.ofList w.text, pos + w.gap.length, pos + w.chars.length, w.newline⟩

structure Starts (w : Word) (operand : Bool) (rest : List Char) : Prop where
  gap : afterGap false (w.gap ++ (w.text ++ rest)) = .ok (w.newline, w.text ++ rest)
  text : ∃ c more, w.text = c :: more ∧ ∀ m, more.length ≤ m →
    lexeme (templateRest m) (markupRest m) operand c (more ++ rest) = .ok (w.kind, rest)

theorem Starts.agrees {w : Word} (h : w.Starts operand rest) (hnext : Agrees rest next) :
    w.Starts operand next := by
  obtain ⟨hgap, c, more, htext, hread⟩ := h
  rw [htext, List.cons_append] at hgap
  constructor
  . have hcomment : opensComment c (more ++ next) = false :=
      opensComment_of_agrees (hnext.append more) (afterGap_token hgap).2
    obtain ⟨gap, hcs, hlocal⟩ := afterGap_local hgap
    rw [List.append_cancel_right hcs, htext]
    exact hlocal (more ++ next) hcomment
  . refine ⟨c, more, htext, ?_⟩
    intro m hm
    obtain ⟨used, hused, hlocal⟩ := lexeme_local (Closed.of_fuel m) (hread m hm)
    rw [List.append_cancel_right hused] at hm ⊢
    exact hlocal m next hm hnext

theorem Starts.text_ne_nil {w : Word} (h : w.Starts operand rest) : w.text ≠ [] := by
  obtain ⟨c, more, htext, _⟩ := h.text
  simp [htext]

theorem starts_of_lexeme (hgap : afterGap false cs = .ok (newline, c :: more))
    (hread : lexeme (templateRest n) (markupRest n) operand c more = .ok (kind, rest)) :
    ∃ w : Word, w.Starts operand rest ∧ cs = w.gap ++ (w.text ++ rest) ∧
      c :: more = w.text ++ rest ∧
      w.kind = kind ∧ w.newline = newline := by
  obtain ⟨used, rfl, hlocal⟩ := lexeme_local (Closed.of_fuel n) hread
  obtain ⟨gap, rfl, hlocal'⟩ := afterGap_local hgap
  refine ⟨⟨gap, kind, c :: used, newline⟩, ⟨?_, c, used, rfl, ?_⟩, rfl, rfl, rfl, rfl⟩
  . exact hlocal' (used ++ rest) (afterGap_token hgap).2
  . intro m hm
    exact hlocal m rest hm (.refl rest)

def bare (w : Word) : Word :=
  { w with gap := [], newline := false }

theorem Starts.bare {w : Word} (h : w.Starts operand rest) : w.bare.Starts operand rest := by
  obtain ⟨hgap, c, more, htext, hread⟩ := h
  rw [htext] at hgap
  obtain ⟨hblank, hcomment⟩ := afterGap_token hgap
  refine ⟨?_, c, more, htext, hread⟩
  simp only [Word.bare, htext]
  exact afterGap_of_token hblank hcomment

end Word

def charsOf (ws : List Word) : List Char :=
  ws.flatMap Word.chars

@[simp]
theorem charsOf_nil : charsOf [] = [] := rfl

@[simp]
theorem charsOf_cons : charsOf (w :: ws) = w.chars ++ charsOf ws := rfl

@[simp]
theorem charsOf_append : charsOf (ws ++ vs) = charsOf ws ++ charsOf vs := by
  simp [charsOf]

def operandAt : Bool → List Word → Bool
  | operand, [] => operand
  | _, w :: ws => operandAt w.operandAfter ws

def Run : Bool → List Word → List Char → Prop
  | _, [], _ => True
  | operand, w :: ws, rest => w.Starts operand (charsOf ws ++ rest) ∧ Run w.operandAfter ws rest

theorem run_append :
    Run operand (ws ++ vs) rest
      ↔
    Run operand ws (charsOf vs ++ rest) ∧ Run (operandAt operand ws) vs rest := by
  induction ws generalizing operand with
  | nil => simp [Run, operandAt]
  | cons w ws ih => simp [Run, operandAt, ih, and_assoc]

theorem Run.agrees (h : Run operand ws rest) (hnext : Agrees rest next) : Run operand ws next := by
  induction ws generalizing operand with
  | nil => trivial
  | cons w ws ih => exact ⟨h.1.agrees (hnext.append _), ih h.2⟩

theorem Run.length_le (h : Run operand ws rest) : ws.length ≤ (charsOf ws).length := by
  induction ws generalizing operand with
  | nil => simp
  | cons w ws ih =>
    have := ih h.2
    have := List.length_pos_iff.mpr h.1.text_ne_nil
    simp only [charsOf_cons, Word.chars, List.length_append, List.length_cons]
    omega

def tokensAt : Nat → List Word → List Token
  | _, [] => []
  | pos, w :: ws => w.token pos :: tokensAt (pos + w.chars.length) ws

theorem tokensAt_append :
    tokensAt pos (ws ++ vs) = tokensAt pos ws ++ tokensAt (pos + (charsOf ws).length) vs := by
  induction ws generalizing pos with
  | nil => simp [tokensAt]
  | cons w ws ih => simp [tokensAt, ih, Nat.add_assoc]

@[simp]
theorem length_tokensAt : (tokensAt pos ws).length = ws.length := by
  induction ws generalizing pos with
  | nil => rfl
  | cons w ws ih => simp [tokensAt, ih]

theorem scanFrom_of_starts {w : Word} (h : w.Starts operand rest)
    (hstop : pos + w.gap.length < stop) :
    scanFrom stop (n + 1) pos operand (w.chars ++ rest)
      =
    (w.token pos :: ·) <$> scanFrom stop n (pos + w.chars.length) w.operandAfter rest := by
  obtain ⟨gap, kind, text, newline⟩ := w
  obtain ⟨hgap, c, more, htext, hread⟩ := h
  dsimp only at hgap htext hread hstop
  subst htext
  have hread := hread (c :: (more ++ rest)).length (by simp; omega)
  rw [List.cons_append] at hgap
  rw [scanFrom]
  simp only [Word.chars, List.append_assoc, List.cons_append, hgap]
  rw [if_neg (by simp; omega)]
  have hlength : (c :: (more ++ rest)).length - rest.length = (c :: more).length := by
    simp only [List.length_cons, List.length_append]
    omega
  simp only [hread, taken_cons_append, hlength]
  simp [Word.token, Word.operandAfter, Word.chars, Nat.add_assoc]

theorem scanFrom_of_run (h : Run operand ws rest) (hstop : ∀ t ∈ tokensAt pos ws, t.start < stop) :
    scanFrom stop (n + ws.length) pos operand (charsOf ws ++ rest)
      =
    (tokensAt pos ws ++ ·) <$> scanFrom stop n (pos + (charsOf ws).length)
    (operandAt operand ws) rest := by
  induction ws generalizing operand pos with
  | nil => simp [tokensAt, operandAt]
  | cons w ws ih =>
    simp only [tokensAt, List.mem_cons, forall_eq_or_imp] at hstop
    rw [List.length_cons, charsOf_cons, List.append_assoc, ← Nat.add_assoc,
      scanFrom_of_starts h.1 hstop.1, ih h.2 hstop.2, List.length_append, ← Nat.add_assoc]
    simp [tokensAt, operandAt]

theorem scanFrom_succ_ok (h : scanFrom stop (n + 1) pos operand cs = .ok tokens) :
    tokens = [] ∨ ∃ (w : Word) (rest : List Char) (more : List Token),
      w.Starts operand rest ∧ cs = w.chars ++ rest ∧ tokens = w.token pos :: more ∧
      scanFrom stop n (pos + w.chars.length) w.operandAfter rest = .ok more := by
  have hstep := h
  rw [scanFrom] at h
  split at h
  . split at h
    . cases h
      exact .inl rfl
    . simp at h
  next newline after hgap =>
  by_cases hstop : stop ≤ pos + (cs.length - after.length)
  . rw [if_pos hstop] at h
    cases h
    exact .inl rfl
  rw [if_neg hstop] at h
  split at h
  . simp at h
  next c more =>
  split at h
  . simp at h
  next kind rest hread =>
  obtain ⟨w, hstarts, rfl, hmore, _, _⟩ := Word.starts_of_lexeme hgap hread
  rw [hmore] at hstop
  rw [← List.append_assoc] at hstep
  rw [← Word.chars, scanFrom_of_starts hstarts (by simpa using hstop), map_eq_ok] at hstep
  obtain ⟨more, hrest, rfl⟩ := hstep
  exact .inr ⟨w, rest, more, hstarts, (List.append_assoc _ _ _).symm, rfl, hrest⟩

theorem scanFrom_ok (h : scanFrom stop n pos operand cs = .ok tokens) :
    ∃ ws rest, Run operand ws rest ∧ cs = charsOf ws ++ rest ∧ tokens = tokensAt pos ws := by
  induction n generalizing pos operand cs tokens with
  | zero =>
    cases h
    exact ⟨[], cs, trivial, rfl, rfl⟩
  | succ n ih =>
    rcases scanFrom_succ_ok h with rfl | ⟨w, rest, more, hstarts, rfl, rfl, hrest⟩
    . exact ⟨[], cs, trivial, rfl, rfl⟩
    . obtain ⟨ws, rest, hrun, rfl, rfl⟩ := ih hrest
      exact ⟨w :: ws, rest, ⟨hstarts, hrun⟩, by simp, rfl⟩

end Token
end ComponentCompiler
