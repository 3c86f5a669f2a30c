import Mathlib.Data.List.Forall2

/-!
This module contains how a computation that may fail comes apart once it is known to succeed or to
fail, and when two of them go alike.
-/

namespace ComponentCompiler

@[simp]
theorem ok_bind (a : α) (f : α → Except ε β) : (Except.ok a >>= f) = f a := rfl

@[simp]
theorem error_bind (e : ε) (f : α → Except ε β) : (Except.error e >>= f) = .error e := rfl

@[simp]
theorem ok_mapError (a : α) (f : ε → ε') : (Except.ok a).mapError f = .ok a := rfl

theorem pure_eq_ok {a b : α} : (pure a : Except ε α) = .ok b ↔ a = b := by
  simp [pure, Except.pure]

theorem bind_eq_ok {x : Except ε α} {f : α → Except ε β} :
    (x >>= f) = .ok b ↔ ∃ a, x = .ok a ∧ f a = .ok b := by
  cases x with
  | error e => simp [bind, Except.bind]
  | ok a => simp [bind, Except.bind]

theorem map_eq_ok {x : Except ε α} {f : α → β} :
    (f <$> x) = .ok b ↔ ∃ a, x = .ok a ∧ f a = b := by
  cases x with
  | error e => simp [Functor.map, Except.map]
  | ok a => simp [Functor.map, Except.map]

theorem mapError_eq_ok {x : Except ε α} {f : ε → ε'} : x.mapError f = .ok a ↔ x = .ok a := by
  cases x with
  | error e => exact ⟨nofun, nofun⟩
  | ok b =>
    change (Except.ok b : Except ε' α) = .ok a ↔ _
    rw [Except.ok.injEq, Except.ok.injEq]

theorem mapError_eq_error {x : Except ε α} {f : ε → ε'} (h : x.mapError f = .error e) :
    ∃ e', x = .error e' ∧ e = f e' := by
  cases x with
  | error e' =>
    cases h
    exact ⟨e', rfl, rfl⟩
  | ok a => cases h

theorem exists_ok_of_any {x : Except ε α} {p : α → Bool} (h : x.toOption.any p = true) :
    ∃ a, x = .ok a ∧ p a = true := by
  cases x with
  | error e => simp [Except.toOption] at h
  | ok a => exact ⟨a, rfl, by simpa [Except.toOption] using h⟩

theorem error_of_bind_pure {x : Except ε α} {g : α → β}
    (h : (do return g (← x) : Except ε β) = .error e) : x = .error e := by
  cases x with
  | error e' => simpa using h
  | ok a => simp [pure, Except.pure] at h

theorem foldlM_total {f : β → α → Except ε β} {items : List α}
    (h : ∀ a ∈ items, ∀ b, ∃ b', f b a = .ok b') (b : β) : ∃ b', items.foldlM f b = .ok b' := by
  induction items generalizing b with
  | nil => exact ⟨b, rfl⟩
  | cons a items ih =>
    simp only [List.mem_cons, forall_eq_or_imp] at h
    obtain ⟨b', hb⟩ := h.1 b
    rw [List.foldlM_cons, hb, ok_bind]
    exact ih h.2 b'

theorem foldlM_invariant {f : β → α → Except ε β} {items : List α} {P : β → Prop}
    (hstep : ∀ a ∈ items, ∀ b b', P b → f b a = .ok b' → P b') (hinit : P b)
    (h : items.foldlM f b = .ok b') : P b' := by
  induction items generalizing b with
  | nil =>
    cases h
    exact hinit
  | cons a items ih =>
    simp only [List.mem_cons, forall_eq_or_imp] at hstep
    rw [List.foldlM_cons, bind_eq_ok] at h
    obtain ⟨mid, hmid, h⟩ := h
    exact ih hstep.2 (hstep.1 b mid hinit hmid) h

theorem foldlM_congr {f g : β → α → Except ε β} {items : List α}
    (h : ∀ a ∈ items, ∀ b, f b a = g b a) (b : β) : items.foldlM f b = items.foldlM g b := by
  induction items generalizing b with
  | nil => rfl
  | cons a items ih =>
    rw [List.forall_mem_cons] at h
    rw [List.foldlM_cons, List.foldlM_cons, h.1]
    congr 1
    funext b
    exact ih h.2 b

theorem mapM_total {f : α → Except ε β} {items : List α} (h : ∀ a ∈ items, ∃ b, f a = .ok b) :
    ∃ bs, items.mapM f = .ok bs := by
  induction items with
  | nil => exact ⟨[], rfl⟩
  | cons a items ih =>
    simp only [List.mem_cons, forall_eq_or_imp] at h
    obtain ⟨b, hb⟩ := h.1
    obtain ⟨bs, hbs⟩ := ih h.2
    exact ⟨b :: bs, by simp [List.mapM_cons, hb, hbs]⟩

theorem exists_left_of_forall₂ {R : α → β → Prop} {as : List α} {bs : List β}
    (h : List.Forall₂ R as bs) (hb : b ∈ bs) : ∃ a ∈ as, R a b := by
  induction h with
  | nil => simp at hb
  | @cons a b' as bs hab _ ih =>
    rcases List.mem_cons.mp hb with rfl | hb
    . exact ⟨a, List.mem_cons_self, hab⟩
    . obtain ⟨a', ha', hab'⟩ := ih hb
      exact ⟨a', List.mem_cons_of_mem a ha', hab'⟩

theorem exists_of_forall₂_ok {f : α → Except ε β} {items : List α} {results : List β} {P : β → Prop}
    (h : List.Forall₂ (f · = .ok ·) items results) :
    (∃ b ∈ results, P b) ↔ ∃ a ∈ items, ∃ b, f a = .ok b ∧ P b := by
  constructor
  . rintro ⟨b, hb, hP⟩
    obtain ⟨a, ha, hab⟩ := exists_left_of_forall₂ h hb
    exact ⟨a, ha, b, hab, hP⟩
  . rintro ⟨a, ha, b, hab, hP⟩
    obtain ⟨b', hb', hab'⟩ := exists_left_of_forall₂ h.flip ha
    obtain rfl : b' = b := Except.ok.inj (Eq.trans (Eq.symm hab') hab)
    exact ⟨b', hb', hP⟩

theorem append_of_forall₂ {R : α → β → Prop} {as : List α} {first second : List β}
    (h : List.Forall₂ R as (first ++ second)) :
    ∃ before after, as = before ++ after ∧ List.Forall₂ R before first ∧
      List.Forall₂ R after second :=
  ⟨_, _, (List.take_append_drop first.length as).symm, List.forall₂_take_append _ _ _ h,
    List.forall₂_drop_append _ _ _ h⟩

theorem mapM_eq_ok {f : α → Except ε β} {items : List α} {results : List β} :
    items.mapM f = .ok results ↔ List.Forall₂ (f · = .ok ·) items results := by
  induction items generalizing results with
  | nil => rw [List.mapM_nil, pure_eq_ok, List.forall₂_nil_left_iff, eq_comm]
  | cons a items ih =>
    simp only [List.mapM_cons, bind_eq_ok, ih, List.forall₂_cons_left_iff]
    constructor
    . rintro ⟨b, hb, bs, hbs, h⟩
      cases h
      exact ⟨b, bs, hb, hbs, rfl⟩
    . rintro ⟨b, bs, hb, hbs, rfl⟩
      exact ⟨b, hb, bs, hbs, rfl⟩

theorem mapM_eq_error {f : α → Except ε β} {items : List α} (h : items.mapM f = .error e) :
    ∃ before a after, items = before ++ a :: after ∧ (∀ b ∈ before, ∃ r, f b = .ok r) ∧
      f a = .error e := by
  induction items with
  | nil => simp [pure, Except.pure] at h
  | cons a items ih =>
    rw [List.mapM_cons] at h
    cases ha : f a with
    | error e' =>
      rw [ha, error_bind] at h
      cases h
      exact ⟨[], a, items, rfl, by simp, ha⟩
    | ok r =>
      rw [ha, ok_bind] at h
      have hrest : items.mapM f = .error e := by
        cases hitems : items.mapM f with
        | error e' => simpa [hitems] using h
        | ok results => simp [hitems, pure, Except.pure] at h
      obtain ⟨before, b, after, rfl, hbefore, hb⟩ := ih hrest
      refine ⟨a :: before, b, after, rfl, ?_, hb⟩
      simpa [ha] using hbefore

def FailsOnly (P : ε → Prop) (x : Except ε α) : Prop :=
  ∀ e, x = .error e → P e

namespace FailsOnly

variable {P : ε → Prop}

theorem ok (a : α) : FailsOnly P (.ok a) :=
  nofun

theorem pure (a : α) : FailsOnly P (pure a) :=
  nofun

theorem error (h : P e) : FailsOnly P (.error e : Except ε α) := by
  intro e' he
  cases he
  exact h

theorem imp {Q : ε → Prop} {x : Except ε α} (hx : FailsOnly P x) (h : ∀ e, P e → Q e) :
    FailsOnly Q x :=
  fun e he => h e (hx e he)

theorem bind {x : Except ε α} {f : α → Except ε β} (hx : FailsOnly P x)
    (hf : ∀ a, x = .ok a → FailsOnly P (f a)) : FailsOnly P (x >>= f) := by
  intro e he
  cases x with
  | error e' => exact hx e (by simpa using he)
  | ok a => exact hf a rfl e he

theorem map {x : Except ε α} (hx : FailsOnly P x) (f : α → β) : FailsOnly P (f <$> x) := by
  intro e he
  cases x with
  | error e' =>
    cases he
    exact hx e rfl
  | ok a => simp at he

theorem mapError {x : Except ε α} {Q : ε' → Prop} {f : ε → ε'} (hx : FailsOnly P x)
    (hf : ∀ e, P e → Q (f e)) : FailsOnly Q (x.mapError f) := by
  intro e he
  obtain ⟨e', hx', rfl⟩ := mapError_eq_error he
  exact hf e' (hx e' hx')

theorem foldlM {f : β → α → Except ε β} {items : List α} (h : ∀ a ∈ items, ∀ b, FailsOnly P (f b a))
    (b : β) : FailsOnly P (items.foldlM f b) := by
  induction items generalizing b with
  | nil => exact pure b
  | cons a items ih =>
    rw [List.forall_mem_cons] at h
    rw [List.foldlM_cons]
    exact (h.1 b).bind fun b' _ => ih h.2 b'

theorem mapM {f : α → Except ε β} {items : List α} (h : ∀ a ∈ items, FailsOnly P (f a)) :
    FailsOnly P (items.mapM f) := by
  intro e he
  obtain ⟨before, a, after, rfl, _, ha⟩ := mapM_eq_error he
  exact h a (by simp) e ha

end FailsOnly

/-- Both results are there and related, or both are failures and related. -/
inductive Paired (E : ε → ε' → Prop) (R : α → β → Prop) : Except ε α → Except ε' β → Prop where
  | ok (h : R a b) : Paired E R (.ok a) (.ok b)
  | error (h : E e e') : Paired E R (.error e) (.error e')

namespace Paired

variable {E : ε → ε' → Prop} {R : α → β → Prop} {S : γ → δ → Prop} {x : Except ε α}
    {y : Except ε' β}

theorem self {E : ε → ε → Prop} {R : α → α → Prop} {x : Except ε α} (hok : ∀ a, x = .ok a → R a a)
    (herror : ∀ e, x = .error e → E e e) : Paired E R x x := by
  cases x with
  | ok a => exact .ok (hok a rfl)
  | error e => exact .error (herror e rfl)

theorem refl {x : Except ε α} : Paired (· = ·) (· = ·) x x :=
  .self (fun _ _ => rfl) fun _ _ => rfl

theorem pure (h : R a b) : Paired E R (Pure.pure a) (Pure.pure b) :=
  .ok h

theorem imp {R' : α → β → Prop} (h : Paired E R x y) (himp : ∀ a b, R a b → R' a b) :
    Paired E R' x y := by
  cases h with
  | ok h => exact .ok (himp _ _ h)
  | error h => exact .error h

theorem bind {f : α → Except ε γ} {g : β → Except ε' δ} (h : Paired E R x y)
    (hf : ∀ a b, R a b → Paired E S (f a) (g b)) : Paired E S (x >>= f) (y >>= g) := by
  cases h with
  | ok h => exact hf _ _ h
  | error h => exact .error h

theorem mapError {E' : φ → φ' → Prop} {f : ε → φ} {g : ε' → φ'} (h : Paired E R x y)
    (hf : ∀ e e', E e e' → E' (f e) (g e')) : Paired E' R (x.mapError f) (y.mapError g) := by
  cases h with
  | ok h => exact .ok h
  | error h => exact .error (hf _ _ h)

theorem mapM {f : α → Except ε γ} {g : β → Except ε' δ} {as : List α} {bs : List β}
    (h : List.Forall₂ (fun a b => Paired E S (f a) (g b)) as bs) :
    Paired E (List.Forall₂ S) (as.mapM f) (bs.mapM g) := by
  induction h with
  | nil => exact .pure .nil
  | cons hab _ ih =>
    rw [List.mapM_cons, List.mapM_cons]
    refine hab.bind fun c d hcd => ?_
    refine ih.bind fun cs ds hcds => ?_
    exact .pure (.cons hcd hcds)

theorem and_eq (h : Paired E R x y) : Paired E (fun a b => R a b ∧ x = .ok a) x y := by
  cases h with
  | ok h => exact .ok ⟨h, rfl⟩
  | error h => exact .error h

theorem exists_ok (h : Paired E R x (.ok b)) : ∃ a, x = .ok a ∧ R a b := by
  cases h with
  | ok h => exact ⟨_, rfl, h⟩

theorem exists_error (h : Paired E R x (.error e')) : ∃ e, x = .error e ∧ E e e' := by
  cases h with
  | error h => exact ⟨_, rfl, h⟩

end Paired

end ComponentCompiler
