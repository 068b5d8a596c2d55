import Mathlib.Algebra.GroupWithZero.Nat
import Mathlib.Data.List.Basic
import Mathlib.Data.Nat.Basic
import Mathlib.Tactic.Common

/-!
# Pieces of a sequence

`PieceAt st off d` says that the list `d` is what the sequence `st` holds from
position `off` on. Pieces survive growth of the sequence at its end, can be
cut from the left, and glue when one ends where the next begins.
-/
namespace TcpStack

variable {α : Type}

def PieceAt (st : List α) (off : Nat) (d : List α) : Prop := d <+: st.drop off

namespace PieceAt

theorem nil (st : List α) (off : Nat) : PieceAt st off [] := List.nil_prefix

theorem mono {st st' d : List α} {off : Nat} (h : PieceAt st off d) (hst : st <+: st') :
    PieceAt st' off d := by
  obtain ⟨t, rfl⟩ := hst
  by_cases hle : off ≤ st.length
  · rw [PieceAt, List.drop_append_of_le_length hle]
    exact h.trans (List.prefix_append _ _)
  · have hnil : st.drop off = [] := List.drop_eq_nil_of_le (by omega)
    rw [PieceAt, hnil] at h
    rw [List.prefix_nil.mp h]
    exact nil _ _

theorem end_le {st d : List α} {off : Nat} (h : PieceAt st off d) (hd : d ≠ []) :
    off + d.length ≤ st.length := by
  have hlen := List.IsPrefix.length_le h
  have hpos := List.length_pos_iff.mpr hd
  rw [List.length_drop] at hlen
  omega

theorem drop {st d : List α} {off : Nat} (h : PieceAt st off d) (k : Nat) :
    PieceAt st (off + k) (d.drop k) := by
  obtain ⟨t, ht⟩ := h
  by_cases hle : k ≤ d.length
  · refine ⟨t, ?_⟩
    rw [← List.drop_drop, ← ht, List.drop_append_of_le_length hle]
  · rw [List.drop_eq_nil_of_le (by omega)]
    exact nil _ _

theorem append {st a b : List α} {off : Nat} (ha : PieceAt st off a)
    (hb : PieceAt st (off + a.length) b) : PieceAt st off (a ++ b) := by
  obtain ⟨t, ht⟩ := ha
  obtain ⟨t', ht'⟩ := hb
  refine ⟨t', ?_⟩
  rw [List.append_assoc, ht', ← List.drop_drop, ← ht, List.drop_left]

theorem right (p d t : List α) : PieceAt (p ++ d ++ t) p.length d := by
  rw [PieceAt, List.append_assoc, List.drop_left]
  exact List.prefix_append _ _

theorem eq_take {st d : List α} {off : Nat} (h : PieceAt st off d) :
    d = (st.drop off).take d.length := List.prefix_iff_eq_take.mp h

end PieceAt

/-- `d` is one of the pieces, and `off` is where it begins. -/
def PieceOf (ps : List (List α)) (off : Nat) (d : List α) : Prop :=
  ∃ pre post, ps = pre ++ d :: post ∧ off = pre.flatten.length

/-- `n` is where some piece ends and the next begins. -/
def CutAt (ps : List (List α)) (n : Nat) : Prop := ∃ pre post, ps = pre ++ post ∧ n = pre.flatten.length

namespace PieceOf

variable {ps ps' : List (List α)} {off off' : Nat} {d d' : List α}

theorem mem (h : PieceOf ps off d) : d ∈ ps := by
  obtain ⟨pre, post, rfl, -⟩ := h
  simp

theorem pieceAt (h : PieceOf ps off d) : PieceAt ps.flatten off d := by
  obtain ⟨pre, post, rfl, rfl⟩ := h
  have hr := PieceAt.right pre.flatten d post.flatten
  simpa using hr

theorem mono (h : PieceOf ps off d) (hp : ps <+: ps') : PieceOf ps' off d := by
  obtain ⟨pre, post, rfl, rfl⟩ := h
  obtain ⟨t, rfl⟩ := hp
  exact ⟨pre, post ++ t, by simp, rfl⟩

theorem last (ps : List (List α)) (d : List α) : PieceOf (ps ++ [d]) ps.flatten.length d :=
  ⟨ps, [], rfl, rfl⟩

theorem start (h : PieceOf ps off d) : CutAt ps off := by
  obtain ⟨pre, post, rfl, rfl⟩ := h
  exact ⟨pre, d :: post, rfl, rfl⟩

theorem stop (h : PieceOf ps off d) : CutAt ps (off + d.length) := by
  obtain ⟨pre, post, rfl, rfl⟩ := h
  exact ⟨pre ++ [d], post, by simp, by simp⟩

theorem cut (h : PieceOf ps off d) {n : Nat} (hn : CutAt ps n) : n ≤ off ∨ off + d.length ≤ n := by
  obtain ⟨pre, post, rfl, rfl⟩ := h
  obtain ⟨pre', post', heq, rfl⟩ := hn
  rcases List.append_eq_append_iff.mp heq with ⟨a, rfl, ha⟩ | ⟨a, rfl, ha⟩
  · rcases a with _ | ⟨x, a⟩
    · left
      simp
    · right
      rw [List.cons_append, List.cons.injEq] at ha
      obtain ⟨rfl, -⟩ := ha
      simp only [List.flatten_append, List.flatten_cons, List.length_append]
      omega
  · left
    simp

theorem disjoint (h : PieceOf ps off d) (h' : PieceOf ps off' d') (hlt : off < off') :
    off + d.length ≤ off' := by
  rcases h.cut h'.start with hle | hle
  · omega
  · exact hle

theorem unique (h : PieceOf ps off d) (h' : PieceOf ps off d') (hd : d ≠ []) (hd' : d' ≠ []) :
    d = d' := by
  have hpos := List.length_pos_iff.mpr hd
  have hpos' := List.length_pos_iff.mpr hd'
  have hlen : d.length = d'.length := by
    rcases h.cut h'.stop with h₁ | h₁ <;> rcases h'.cut h.stop with h₂ | h₂ <;> omega
  rw [h.pieceAt.eq_take, h'.pieceAt.eq_take, hlen]

end PieceOf

theorem CutAt.mono {ps ps' : List (List α)} {n : Nat} (h : CutAt ps n) (hp : ps <+: ps') :
    CutAt ps' n := by
  obtain ⟨pre, post, rfl, rfl⟩ := h
  obtain ⟨t, rfl⟩ := hp
  exact ⟨pre, post ++ t, by simp, rfl⟩

theorem CutAt.zero (ps : List (List α)) : CutAt ps 0 := ⟨[], ps, rfl, rfl⟩

end TcpStack
