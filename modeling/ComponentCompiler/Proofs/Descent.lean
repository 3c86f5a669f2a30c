import Mathlib.Logic.Function.Basic

/-!
This module contains recursions that go on only with what is smaller by some size. They have exactly
one solution, and a version of one with a bound on its depth comes to the same wherever the bound is
more than the size.
-/

namespace ComponentCompiler

/-- What a pass makes of an input depends only on what is made of smaller ones. -/
def Descends (size : σ → Nat) (pass : (σ → α) → σ → α) : Prop :=
  ∀ next next' s, (∀ t, size t < size s → next t = next' t) → pass next s = pass next' s

/-- The only function that a pass over it leaves as it is. -/
structure Solves (pass : τ → τ) (f : τ) : Prop where
  fixed : pass f = f
  only : ∀ g, pass g = g → g = f

namespace Descends

variable {size : σ → Nat} {pass : (σ → α) → σ → α} {f g : Nat → σ → α} {s : σ}

theorem agree (h : Descends size pass) (hf : ∀ n, f (n + 1) = pass (f n))
    (hg : ∀ n, g (n + 1) = pass (g n)) (hn : size s < n) (hm : size s < m) : f n s = g m s := by
  induction n generalizing m s with
  | zero => omega
  | succ n ih =>
    cases m with
    | zero => omega
    | succ m =>
      rw [hf, hg]
      apply h
      intro t ht
      apply ih
      . omega
      . omega

theorem exists_solution (h : Descends size pass) (hf : ∀ n, f (n + 1) = pass (f n)) :
    ∃ g, Solves pass g ∧ ∀ n s, size s < n → f n s = g s := by
  have hfixed : pass (fun s => f (size s + 1) s) = fun s => f (size s + 1) s := by
    funext s
    rw [hf]
    apply h
    intro t ht
    apply h.agree hf hf
    . omega
    . omega
  refine ⟨_, ⟨hfixed, ?_⟩, ?_⟩
  . intro g hg
    funext s
    exact h.agree (f := fun _ => g) (fun _ => hg.symm) hf (Nat.lt_succ_self _) (Nat.lt_succ_self _)
  . intro n s hn
    exact h.agree hf hf hn (Nat.lt_succ_self _)

end Descends
end ComponentCompiler
