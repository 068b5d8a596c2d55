import Mathlib.Data.List.Basic
import Mathlib.Order.Lattice
import Mathlib.Tactic.Common

/-!
# Finite maps with ordered keys

An ordered map as its ascending list of entries. The ascending order is a
field, so a map with a repeated or misplaced key cannot be built. The
operations are those of a search tree's interface: insertion that replaces,
removal, and the first entry at or above a key.
-/
namespace TcpStack

/-- Entries in strictly ascending key order. -/
@[ext] structure SortedMap (κ α : Type) [LinearOrder κ] where
  entries : List (κ × α)
  sorted : entries.Pairwise (fun a b => a.1 < b.1)

namespace SortedMap

variable {κ α : Type} [LinearOrder κ]

def empty : SortedMap κ α := ⟨[], .nil⟩

def insertEntry (k : κ) (v : α) : List (κ × α) → List (κ × α)
  | [] => [(k, v)]
  | e :: es =>
      if k < e.1 then (k, v) :: e :: es
      else if k = e.1 then (k, v) :: es
      else e :: insertEntry k v es

theorem mem_insertEntry {k : κ} {v : α} {es : List (κ × α)}
    (hs : es.Pairwise (fun a b => a.1 < b.1)) {e : κ × α} :
    e ∈ insertEntry k v es ↔ e = (k, v) ∨ (e.1 ≠ k ∧ e ∈ es) := by
  induction es with
  | nil => simp [insertEntry]
  | cons d es ih =>
      obtain ⟨hd, hes⟩ := List.pairwise_cons.mp hs
      simp only [insertEntry]
      split_ifs with hlt heq
      · -- every present key lies above the new one
        have hne : ∀ x ∈ d :: es, x.1 ≠ k := by
          intro x hx
          rcases List.mem_cons.mp hx with rfl | hx
          · exact ne_of_gt hlt
          · exact ne_of_gt (lt_trans hlt (hd x hx))
        simp only [List.mem_cons] at hne ⊢
        grind
      · have hne : ∀ x ∈ es, x.1 ≠ k := by
          intro x hx
          rw [heq]
          exact ne_of_gt (hd x hx)
        simp only [List.mem_cons]
        grind
      · simp only [List.mem_cons, ih hes]
        grind

theorem insertEntry_sorted {k : κ} {v : α} {es : List (κ × α)}
    (hs : es.Pairwise (fun a b => a.1 < b.1)) :
    (insertEntry k v es).Pairwise (fun a b => a.1 < b.1) := by
  induction es with
  | nil => simp [insertEntry]
  | cons d es ih =>
      obtain ⟨hd, hes⟩ := List.pairwise_cons.mp hs
      simp only [insertEntry]
      split_ifs with hlt heq
      · refine List.pairwise_cons.mpr ⟨?_, hs⟩
        intro x hx
        rcases List.mem_cons.mp hx with rfl | hx
        · exact hlt
        · exact lt_trans hlt (hd x hx)
      · refine List.pairwise_cons.mpr ⟨?_, hes⟩
        intro x hx
        rw [heq]
        exact hd x hx
      · refine List.pairwise_cons.mpr ⟨?_, ih hes⟩
        intro x hx
        rcases (mem_insertEntry hes).mp hx with rfl | ⟨_, hx⟩
        · exact lt_of_le_of_ne (not_lt.mp hlt) (Ne.symm heq)
        · exact hd x hx

/-- Insert, replacing the value of a key that is already present. -/
def insert (m : SortedMap κ α) (k : κ) (v : α) : SortedMap κ α :=
  ⟨insertEntry k v m.entries, insertEntry_sorted m.sorted⟩

def erase (m : SortedMap κ α) (k : κ) : SortedMap κ α :=
  ⟨m.entries.filter (fun e => e.1 ≠ k), m.sorted.filter _⟩

/-- The first entry whose key is at or above `k`. -/
def firstGE (m : SortedMap κ α) (k : κ) : Option (κ × α) :=
  m.entries.find? (fun e => decide (k ≤ e.1))

instance : Membership (κ × α) (SortedMap κ α) := ⟨fun m e => e ∈ m.entries⟩

theorem mem_def {m : SortedMap κ α} {e : κ × α} : e ∈ m ↔ e ∈ m.entries := Iff.rfl

@[simp] theorem not_mem_empty {e : κ × α} : e ∉ (empty : SortedMap κ α) := by
  simp [mem_def, empty]

@[simp] theorem mem_insert {m : SortedMap κ α} {k : κ} {v : α} {e : κ × α} :
    e ∈ m.insert k v ↔ e = (k, v) ∨ (e.1 ≠ k ∧ e ∈ m) := mem_insertEntry m.sorted

@[simp] theorem mem_erase {m : SortedMap κ α} {k : κ} {e : κ × α} :
    e ∈ m.erase k ↔ e ∈ m ∧ e.1 ≠ k := by
  simp [mem_def, erase]

theorem firstGE_mem {m : SortedMap κ α} {k : κ} {e : κ × α} (h : m.firstGE k = some e) :
    e ∈ m ∧ k ≤ e.1 := by
  refine ⟨List.mem_of_find?_eq_some h, ?_⟩
  simpa using List.find?_some h

/-- The entry at `k` itself, when there is one, is the first at or above `k`. -/
theorem firstGE_of_mem {m : SortedMap κ α} {k : κ} {v : α} (h : (k, v) ∈ m) :
    m.firstGE k = some (k, v) := by
  obtain ⟨es, hs⟩ := m
  simp only [mem_def, firstGE] at h ⊢
  induction es with
  | nil => simp at h
  | cons d es ih =>
      obtain ⟨hd, hes⟩ := List.pairwise_cons.mp hs
      rcases List.mem_cons.mp h with rfl | hmem
      · simp
      · have hlt : d.1 < k := hd _ hmem
        rw [List.find?_cons_of_neg (by simpa using hlt)]
        exact ih hes hmem

theorem value_unique {m : SortedMap κ α} {k : κ} {v v' : α} (h : (k, v) ∈ m) (h' : (k, v') ∈ m) :
    v = v' := by
  have heq := (firstGE_of_mem h).symm.trans (firstGE_of_mem h')
  simpa using heq

theorem ext_of_mem {m m' : SortedMap κ α} (h : ∀ e, e ∈ m ↔ e ∈ m') : m = m' := by
  have hnodup : ∀ n : SortedMap κ α, n.entries.Nodup := fun n =>
    n.sorted.imp fun hlt heq => ne_of_lt hlt (congrArg Prod.fst heq)
  have hperm : m.entries.Perm m'.entries := (List.perm_ext_iff_of_nodup (hnodup m) (hnodup m')).mpr h
  refine SortedMap.ext (hperm.eq_of_pairwise ?_ m.sorted m'.sorted)
  intro a b _ _ hab hba
  exact absurd (lt_trans hab hba) (lt_irrefl _)

theorem insertEntry_of_mem {k : κ} {v : α} {es : List (κ × α)} (hs : es.Pairwise (fun a b => a.1 < b.1))
    (h : (k, v) ∈ es) : insertEntry k v es = es := by
  induction es with
  | nil => cases h
  | cons d es ih =>
      obtain ⟨hd, hes⟩ := List.pairwise_cons.mp hs
      rcases List.mem_cons.mp h with rfl | hmem
      · simp [insertEntry]
      · have hlt : d.1 < k := hd _ hmem
        rw [insertEntry, if_neg (not_lt.mpr (le_of_lt hlt)), if_neg (ne_of_gt hlt), ih hes hmem]

theorem insert_of_mem {m : SortedMap κ α} {k : κ} {v : α} (h : (k, v) ∈ m) : m.insert k v = m :=
  SortedMap.ext (insertEntry_of_mem m.sorted h)

theorem length_erase_lt {m : SortedMap κ α} {k : κ} {v : α} (h : (k, v) ∈ m) :
    (m.erase k).entries.length < m.entries.length :=
  List.length_filter_lt_length_iff_exists.mpr ⟨(k, v), h, by simp⟩

end SortedMap
end TcpStack
