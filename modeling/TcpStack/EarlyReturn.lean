import Mathlib.Logic.Basic

/-!
# Calls that may return early

A step of a call goes on with a new state, or it ends the whole call and leaves
its state behind, as a `?` does. What holds then is said for both ends at once.
-/
namespace TcpStack

variable {σ τ α : Type}

/-- The state that a call leaves, whether it went through or returned early. -/
def endState : Except σ σ → σ
  | .ok s => s
  | .error s => s

/-- `P` holds where the call goes through, and `Q` where it returns early. -/
def Leaves (P Q : σ → Prop) : Except σ σ → Prop
  | .ok s => P s
  | .error s => Q s

instance (P Q : σ → Prop) [DecidablePred P] [DecidablePred Q] : DecidablePred (Leaves P Q)
  | .ok s => inferInstanceAs (Decidable (P s))
  | .error s => inferInstanceAs (Decidable (Q s))

namespace Leaves

variable {P P' Q Q' : σ → Prop} {x : Except σ σ}

theorem mono (h : Leaves P Q x) (hp : ∀ s, P s → P' s) (hq : ∀ s, Q s → Q' s) : Leaves P' Q' x := by
  cases x with
  | ok s => exact hp s h
  | error s => exact hq s h

theorem and (h : Leaves P Q x) (h' : Leaves P' Q' x) : Leaves (fun s => P s ∧ P' s) (fun s => Q s ∧ Q' s) x := by
  cases x with
  | ok s => exact ⟨h, h'⟩
  | error s => exact ⟨h, h'⟩

theorem endState (h : Leaves P P x) : P (endState x) := by
  cases x with
  | ok s => exact h
  | error s => exact h

theorem bind (h : Leaves P Q x) {f : σ → Except σ σ} (hf : ∀ s, P s → Leaves P' Q (f s)) : Leaves P' Q (x >>= f) := by
  cases x with
  | ok s => exact hf s h
  | error s => exact h

theorem foldlM {g : σ → α → Except σ σ} {I : List α → σ → Prop}
    (hstep : ∀ a rest s, I (a :: rest) s → Leaves (I rest) Q (g s a)) {l : List α} {s : σ} (h : I l s) :
    Leaves (I []) Q (l.foldlM g s) := by
  induction l generalizing s with
  | nil => exact h
  | cons a l ih =>
      rw [List.foldlM_cons]
      exact (hstep a l s h).bind fun s' hs' => ih hs'

end Leaves

/-- The same call, seen through `f`. -/
def seen (f : σ → τ) : Except σ σ → Except τ τ
  | .ok s => .ok (f s)
  | .error s => .error (f s)

variable {f : σ → τ}

theorem seen_bind {x : Except σ σ} {g : σ → Except σ σ} {k : τ → Except τ τ} (h : ∀ s, seen f (g s) = k (f s)) :
    seen f (x >>= g) = seen f x >>= k := by
  cases x with
  | ok s => exact h s
  | error s => rfl

theorem seen_foldlM {g : σ → α → Except σ σ} {k : τ → α → Except τ τ} (h : ∀ s a, seen f (g s a) = k (f s) a)
    (l : List α) (s : σ) : seen f (l.foldlM g s) = l.foldlM k (f s) := by
  induction l generalizing s with
  | nil => rfl
  | cons a l ih =>
      rw [List.foldlM_cons, List.foldlM_cons, ← h]
      exact seen_bind ih

theorem leaves_seen {P Q : τ → Prop} {x : Except σ σ} :
    Leaves P Q (seen f x) ↔ Leaves (fun s => P (f s)) (fun s => Q (f s)) x := by
  cases x <;> rfl

end TcpStack
