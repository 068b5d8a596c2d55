import Mathlib.Order.Bounds.Basic
import Mathlib.Tactic.Common

/-!
# Monotone deques

A sliding maximum: a new sample evicts the samples at the back that are no
larger, and samples at the front go once they are stale. Along the deque times
do not fall and values do, so both loops stop where a filter over the whole
deque would leave nothing more out, and the front is the maximum.
-/
namespace TcpStack.MonotoneDeque

theorem dropWhile_eq_filter {α : Type} {p : α → Bool} {l : List α}
    (h : l.Pairwise fun a b => p b = true → p a = true) :
    l.dropWhile p = l.filter fun a => !p a := by
  induction l with
  | nil => rfl
  | cons a l ih =>
      obtain ⟨ha, hl⟩ := List.pairwise_cons.mp h
      cases hp : p a with
      | true =>
          rw [List.dropWhile_cons_of_pos hp, List.filter_cons_of_neg (by simp [hp])]
          exact ih hl
      | false =>
          rw [List.dropWhile_cons_of_neg (by simp [hp]), eq_comm, List.filter_eq_self]
          intro b hb
          rcases List.mem_cons.mp hb with rfl | hb
          · simp [hp]
          · cases hpb : p b with
            | true => exact absurd (ha b hb hpb) (by simp [hp])
            | false => rfl

variable {τ β : Type} [LE τ] [LinearOrder β]

/-- Evict from the back what the new value reaches, then push. -/
def push (dq : List (τ × β)) (s : τ × β) : List (τ × β) :=
  (dq.reverse.dropWhile fun d => decide (d.2 ≤ s.2)).reverse ++ [s]

/-- What is stale at one time stays so, and so is all before it; a new sample is not. -/
structure Expiry (stale : τ → τ → Bool) : Prop where
  later : ∀ {now now' t}, now ≤ now' → stale now t = true → stale now' t = true
  older : ∀ {now t t'}, t ≤ t' → stale now t' = true → stale now t = true
  fresh : ∀ t, stale t t = false

variable {stale : τ → τ → Bool}

def update (stale : τ → τ → Bool) (dq : List (τ × β)) (s : τ × β) : List (τ × β) :=
  (push dq s).dropWhile fun d => stale s.1 d.1

/-- Times do not fall along the deque, and values do. -/
structure Monotone (dq : List (τ × β)) : Prop where
  times : dq.Pairwise fun a b => a.1 ≤ b.1
  values : dq.Pairwise fun a b => b.2 < a.2

/-- The deque at `now` keeps live samples only, and for every live sample one
that is no older and no smaller. -/
structure Tracks (stale : τ → τ → Bool) (seen : List (τ × β)) (now : τ) (dq : List (τ × β)) : Prop where
  monotone : Monotone dq
  past : ∀ s ∈ seen, s.1 ≤ now
  mem : ∀ d ∈ dq, d ∈ seen
  live : ∀ d ∈ dq, stale now d.1 = false
  dominates : ∀ s ∈ seen, stale now s.1 = false → ∃ d ∈ dq, s.1 ≤ d.1 ∧ s.2 ≤ d.2

theorem push_eq_filter {dq : List (τ × β)} (h : Monotone dq) (s : τ × β) :
    push dq s = (dq.filter fun d => decide (s.2 < d.2)) ++ [s] := by
  have hback : dq.reverse.Pairwise fun a b => decide (b.2 ≤ s.2) = true → decide (a.2 ≤ s.2) = true := by
    refine (List.pairwise_reverse.mpr h.values).imp fun {a b} hlt hle => ?_
    exact decide_eq_true (hlt.le.trans (of_decide_eq_true hle))
  rw [push, dropWhile_eq_filter hback, List.filter_reverse, List.reverse_reverse]
  congr 2
  funext d
  rw [← decide_not, decide_eq_decide, not_le]

theorem Monotone.push {dq : List (τ × β)} (h : Monotone dq) {s : τ × β} (hpast : ∀ d ∈ dq, d.1 ≤ s.1) :
    Monotone (push dq s) := by
  rw [push_eq_filter h]
  constructor
  · refine List.pairwise_append.mpr ⟨h.times.filter _, List.pairwise_singleton _ _, fun d hd x hx => ?_⟩
    rw [List.mem_singleton.mp hx]
    exact hpast d (List.mem_filter.mp hd).1
  · refine List.pairwise_append.mpr ⟨h.values.filter _, List.pairwise_singleton _ _, fun d hd x hx => ?_⟩
    rw [List.mem_singleton.mp hx]
    exact of_decide_eq_true (List.mem_filter.mp hd).2

theorem update_eq_filter (he : Expiry stale) {dq : List (τ × β)} (h : Monotone dq) {s : τ × β}
    (hpast : ∀ d ∈ dq, d.1 ≤ s.1) :
    update stale dq s = (push dq s).filter fun d => !stale s.1 d.1 :=
  dropWhile_eq_filter ((h.push hpast).times.imp fun hle => he.older hle)

theorem mem_update (he : Expiry stale) {dq : List (τ × β)} (h : Monotone dq) {s : τ × β} (hpast : ∀ d ∈ dq, d.1 ≤ s.1)
    (d : τ × β) : d ∈ update stale dq s ↔ (d ∈ dq ∧ s.2 < d.2 ∨ d = s) ∧ stale s.1 d.1 = false := by
  rw [update_eq_filter he h hpast, push_eq_filter h]
  simp only [List.mem_filter, List.mem_append, List.mem_singleton, decide_eq_true_eq, Bool.not_eq_true']

theorem tracks_nil (now : τ) : Tracks stale ([] : List (τ × β)) now [] :=
  ⟨⟨.nil, .nil⟩, fun _ h => (by cases h), fun _ h => (by cases h), fun _ h => (by cases h), fun _ h => (by cases h)⟩

theorem Tracks.isGreatest {seen : List (τ × β)} {now : τ} {d : τ × β} {dq : List (τ × β)}
    (h : Tracks stale seen now (d :: dq)) :
    IsGreatest {v | ∃ s ∈ seen, stale now s.1 = false ∧ s.2 = v} d.2 := by
  have hd : d ∈ d :: dq := List.mem_cons_self
  refine ⟨⟨d, h.mem d hd, h.live d hd, rfl⟩, ?_⟩
  rintro v ⟨s, hs, hlive, rfl⟩
  obtain ⟨x, hx, -, hle⟩ := h.dominates s hs hlive
  rcases List.mem_cons.mp hx with rfl | hx
  · exact hle
  · exact hle.trans (List.rel_of_pairwise_cons h.monotone.values hx).le

variable [Std.IsPreorder τ]

theorem Tracks.update (he : Expiry stale) {seen : List (τ × β)} {now : τ} {dq : List (τ × β)}
    (h : Tracks stale seen now dq) {s : τ × β} (hs : now ≤ s.1) :
    Tracks stale (seen ++ [s]) s.1 (update stale dq s) := by
  have hpast : ∀ d ∈ dq, d.1 ≤ s.1 := fun d hd => Std.le_trans (h.past d (h.mem d hd)) hs
  have hmem := mem_update he h.monotone hpast
  constructor
  · rw [update_eq_filter he h.monotone hpast]
    exact ⟨(h.monotone.push hpast).times.filter _, (h.monotone.push hpast).values.filter _⟩
  · intro x hx
    rcases List.mem_append.mp hx with hx | hx
    · exact Std.le_trans (h.past x hx) hs
    · rw [List.mem_singleton.mp hx]
      exact Std.le_refl _
  · intro d hd
    rcases ((hmem d).mp hd).1 with ⟨hd, -⟩ | rfl
    · exact List.mem_append_left _ (h.mem d hd)
    · exact List.mem_append_right _ (List.mem_singleton_self d)
  · exact fun d hd => ((hmem d).mp hd).2
  · intro x hx hlive
    have hself : s ∈ MonotoneDeque.update stale dq s := (hmem s).mpr ⟨.inr rfl, he.fresh s.1⟩
    rcases List.mem_append.mp hx with hx | hx
    · have hbefore : stale now x.1 = false := by
        cases hb : stale now x.1 with
        | false => rfl
        | true => exact absurd (he.later hs hb) (by simp [hlive])
      obtain ⟨d, hd, htime, hvalue⟩ := h.dominates x hx hbefore
      -- the new sample stands in for what it evicts
      rcases lt_or_ge s.2 d.2 with hlt | hge
      · have hkept : stale s.1 d.1 = false := by
          cases hb : stale s.1 d.1 with
          | false => rfl
          | true => exact absurd (he.older htime hb) (by simp [hlive])
        exact ⟨d, (hmem d).mpr ⟨.inl ⟨hd, hlt⟩, hkept⟩, htime, hvalue⟩
      · exact ⟨s, hself, Std.le_trans (h.past x hx) hs, hvalue.trans hge⟩
    · rw [List.mem_singleton.mp hx]
      exact ⟨s, hself, Std.le_refl _, le_rfl⟩

theorem Tracks.run (he : Expiry stale) {seen : List (τ × β)} {now : τ} {dq : List (τ × β)}
    (h : Tracks stale seen now dq) {samples : List (τ × β)} (hnow : ∀ s ∈ samples, now ≤ s.1)
    (htimes : samples.Pairwise fun a b => a.1 ≤ b.1) :
    Tracks stale (seen ++ samples) ((samples.map Prod.fst).getLastD now)
      (samples.foldl (MonotoneDeque.update stale) dq) := by
  induction samples generalizing seen now dq with
  | nil =>
      rw [List.append_nil]
      exact h
  | cons s samples ih =>
      obtain ⟨hnext, hrest⟩ := List.pairwise_cons.mp htimes
      have hall := ih (h.update he (hnow s List.mem_cons_self)) hnext hrest
      rw [List.append_assoc] at hall
      rwa [List.map_cons, List.getLastD_cons]

end TcpStack.MonotoneDeque
