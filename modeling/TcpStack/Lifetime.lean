import Mathlib.Data.List.Induction

/-!
# The life of an entry

A machine that keeps an entry for a while, puts out values, drops the entry and
may make it anew. What is known of an entry when it is made, and kept by every
step it lives through, is known of it in every state, together with the inputs
and the outputs since it was made.
-/
namespace TcpStack.Lifetime

variable {σ ι ο α : Type}

/-- What a run puts out. -/
def outputs (next : σ → ι → σ) (out : σ → ι → List ο) : σ → List ι → List ο
  | _, [] => []
  | s, x :: inputs => out s x ++ outputs next out (next s x) inputs

variable {next : σ → ι → σ} {out : σ → ι → List ο} {entry : σ → Option α}

theorem outputs_append (s : σ) (xs ys : List ι) :
    outputs next out s (xs ++ ys) = outputs next out s xs ++ outputs next out (xs.foldl next s) ys := by
  induction xs generalizing s with
  | nil => rfl
  | cons x xs ih => rw [List.cons_append, outputs, outputs, ih, List.append_assoc, List.foldl_cons]

theorem outputs_snoc (s : σ) (xs : List ι) (x : ι) :
    outputs next out s (xs ++ [x]) = outputs next out s xs ++ out (xs.foldl next s) x := by
  rw [outputs_append, outputs, outputs, List.append_nil]

theorem mem_outputs {s : σ} {inputs : List ι} {o : ο} (h : o ∈ outputs next out s inputs) :
    ∃ early x late, inputs = early ++ x :: late ∧ o ∈ out (early.foldl next s) x := by
  induction inputs generalizing s with
  | nil => exact absurd h List.not_mem_nil
  | cons x inputs ih =>
      rcases List.mem_append.mp h with h | h
      · exact ⟨[], x, inputs, rfl, h⟩
      · obtain ⟨early, y, late, rfl, hy⟩ := ih h
        exact ⟨x :: early, y, late, rfl, hy⟩

theorem run_preserves {I : σ → Prop} (hstep : ∀ s x, I s → I (next s x)) {s : σ} (hs : I s) (inputs : List ι) :
    I (inputs.foldl next s) := by
  induction inputs generalizing s with
  | nil => exact hs
  | cons x inputs ih => exact ih (hstep s x hs)

/-- The entry is missing after the inputs `early`, is made by the next one, and
is there after each input of `since`. -/
structure Since (next : σ → ι → σ) (entry : σ → Option α) (s : σ) (early : List ι) (birth : ι) (since : List ι) :
    Prop where
  absent : entry (early.foldl next s) = none
  present : ∀ xs, xs <+: since → (entry ((early ++ birth :: xs).foldl next s)).isSome = true

theorem Since.born {s : σ} {early : List ι} {birth : ι} {a : α} (hnone : entry (early.foldl next s) = none)
    (ha : entry ((early ++ [birth]).foldl next s) = some a) : Since next entry s early birth [] where
  absent := hnone
  present xs hxs := by
    rw [List.prefix_nil.mp hxs, ha]
    rfl

theorem Since.snoc {s : σ} {early since : List ι} {birth x : ι} {a : α} (h : Since next entry s early birth since)
    (ha : entry ((early ++ birth :: (since ++ [x])).foldl next s) = some a) :
    Since next entry s early birth (since ++ [x]) where
  absent := h.absent
  present xs hxs := by
    rcases List.prefix_concat_iff.mp hxs with rfl | hxs
    · rw [ha]
      rfl
    · exact h.present xs hxs

theorem outputs_since (s : σ) (early since : List ι) (birth x : ι) :
    outputs next out (early.foldl next s) (birth :: (since ++ [x])) =
      outputs next out (early.foldl next s) (birth :: since) ++ out ((early ++ birth :: since).foldl next s) x := by
  rw [← List.cons_append, outputs_snoc, List.foldl_append]

variable {I : σ → Prop} {P : α → List ι → ι → List ι → Prop}

/-- The rule for entries: `P` of an entry, the inputs before it, the input that
made it and the inputs since holds when it is made and survives each step. -/
theorem entry_lives {s : σ} (hI : ∀ s x, I s → I (next s x))
    (hborn : ∀ early x a, I (early.foldl next s) → entry (early.foldl next s) = none →
      entry (next (early.foldl next s) x) = some a → P a early x [])
    (hlives : ∀ a early birth since x a', I ((early ++ birth :: since).foldl next s) →
      entry ((early ++ birth :: since).foldl next s) = some a → P a early birth since →
      entry (next ((early ++ birth :: since).foldl next s) x) = some a' → P a' early birth (since ++ [x]))
    (hs : I s) (hnone : entry s = none) (inputs : List ι) {a : α} (ha : entry (inputs.foldl next s) = some a) :
    ∃ early birth since, inputs = early ++ birth :: since ∧ Since next entry s early birth since ∧
      P a early birth since := by
  induction inputs using List.reverseRecOn generalizing a with
  | nil =>
      rw [List.foldl_nil, hnone] at ha
      cases ha
  | append_singleton inputs x ih =>
      have hi : I (inputs.foldl next s) := run_preserves hI hs inputs
      have hstep : entry (next (inputs.foldl next s) x) = some a := by
        rwa [List.foldl_append, List.foldl_cons, List.foldl_nil] at ha
      cases hold : entry (inputs.foldl next s) with
      | none => exact ⟨inputs, x, [], rfl, .born hold ha, hborn inputs x a hi hold hstep⟩
      | some old =>
          obtain ⟨early, birth, since, rfl, hsince, hp⟩ := ih hold
          have hsplit : early ++ birth :: since ++ [x] = early ++ birth :: (since ++ [x]) := by
            rw [List.append_assoc, List.cons_append]
          exact ⟨early, birth, since ++ [x], hsplit, hsince.snoc (hsplit ▸ ha),
            hlives old early birth since x a hi hold hp hstep⟩

variable {τ : Type} {value : σ → Option τ} {sets : σ → ι → Option τ}

/-- The input `x` set the value to `v`, and it has stood since: no input of
`late` set it again. -/
structure LastSet (next : σ → ι → σ) (value : σ → Option τ) (sets : σ → ι → Option τ) (s : σ) (early : List ι) (x : ι)
    (late : List ι) (v : τ) : Prop where
  set : sets (early.foldl next s) x = some v
  stands : ∀ mid, mid <+: late → value ((early ++ x :: mid).foldl next s) = some v
  unset : ∀ mid y, mid ++ [y] <+: late → sets ((early ++ x :: mid).foldl next s) y = none

theorem LastSet.snoc {s : σ} {early late : List ι} {x y : ι} {v : τ} (h : LastSet next value sets s early x late v)
    (hnone : sets ((early ++ x :: late).foldl next s) y = none)
    (hv : value ((early ++ x :: (late ++ [y])).foldl next s) = some v) :
    LastSet next value sets s early x (late ++ [y]) v where
  set := h.set
  stands mid hmid := by
    rcases List.prefix_concat_iff.mp hmid with rfl | hmid
    · exact hv
    · exact h.stands mid hmid
  unset mid z hmid := by
    rcases List.prefix_concat_iff.mp hmid with heq | hmid
    · obtain ⟨rfl, hz⟩ := List.append_inj' heq rfl
      obtain rfl := List.singleton_inj.mp hz
      exact hnone
    · exact h.unset mid z hmid

theorem last_set (hI : ∀ s x, I s → I (next s x))
    (hstep : ∀ s x v, I s → value (next s x) = some v → sets s x = some v ∨ sets s x = none ∧ value s = some v)
    {s : σ} (hs : I s) (hnone : value s = none) (inputs : List ι) {v : τ}
      (hv : value (inputs.foldl next s) = some v) :
    ∃ early x late, inputs = early ++ x :: late ∧ LastSet next value sets s early x late v := by
  induction inputs using List.reverseRecOn generalizing v with
  | nil =>
      rw [List.foldl_nil, hnone] at hv
      cases hv
  | append_singleton inputs x ih =>
      have hi : I (inputs.foldl next s) := run_preserves hI hs inputs
      have hv' : value (next (inputs.foldl next s) x) = some v := by
        rwa [List.foldl_append, List.foldl_cons, List.foldl_nil] at hv
      rcases hstep _ x v hi hv' with hset | ⟨hunset, hold⟩
      · refine ⟨inputs, x, [], rfl, hset, fun mid hmid => ?_, fun mid y hmid => ?_⟩
        · rw [List.prefix_nil.mp hmid, hv]
        · exact absurd (List.prefix_nil.mp hmid) (List.append_ne_nil_of_right_ne_nil mid (List.cons_ne_nil y []))
      · obtain ⟨early, y, late, rfl, hlast⟩ := ih hold
        have hsplit : early ++ y :: late ++ [x] = early ++ y :: (late ++ [x]) := by
          rw [List.append_assoc, List.cons_append]
        exact ⟨early, y, late ++ [x], hsplit, hlast.snoc hunset (hsplit ▸ hv)⟩

end TcpStack.Lifetime
