import Mathlib.Data.List.AList

/-!
# Tables visited in an unspecified order

A hash map as an association list with distinct keys. A loop over a hash map
sees its entries in an order that is nobody's business, so each loop takes the
order as an argument and the results about a loop hold for every order.
-/
namespace TcpStack

abbrev Table (κ α : Type) := AList (fun _ : κ => α)

namespace Table

variable {κ α β : Type}

/-- An order of iteration: any rearrangement of the entries. -/
structure Order (κ α : Type) where
  arrange : List (Σ _ : κ, α) → List (Σ _ : κ, α)
  perm : ∀ entries, (arrange entries).Perm entries

def Order.stored : Order κ α := ⟨id, fun _ => .refl _⟩

def reorder (o : Order κ α) (t : Table κ α) : Table κ α :=
  ⟨o.arrange t.entries, (List.perm_nodupKeys (o.perm t.entries)).mpr t.nodupKeys⟩

/-- Update every entry with `f`, and collect what `f` puts out under the key it
was put out for. -/
def visit (f : κ → α → α × List β) (t : Table κ α) : Table κ α × List (κ × β) :=
  (⟨t.entries.map (.map id fun k v => (f k v).1), t.nodupKeys.map₂ _ _⟩,
    t.entries.flatMap (fun e => (f e.1 e.2).2.map (Prod.mk e.1)))

/-- Keep the entries that meet `p`. -/
def retain (p : κ → α → Bool) (t : Table κ α) : Table κ α :=
  ⟨t.entries.filter (fun e => p e.1 e.2), t.nodupKeys.sublist List.filter_sublist⟩

variable [DecidableEq κ]

/-- What was put out under one key. -/
def select (k : κ) (out : List (κ × β)) : List β :=
  out.filterMap (fun e => if e.1 = k then some e.2 else none)

@[simp] theorem lookup_reorder (o : Order κ α) (t : Table κ α) (k : κ) : (t.reorder o).lookup k = t.lookup k :=
  AList.perm_lookup (o.perm t.entries)

@[simp] theorem lookup_visit (f : κ → α → α × List β) (t : Table κ α) (k : κ) :
    (t.visit f).1.lookup k = (t.lookup k).map (fun v => (f k v).1) :=
  List.dlookup_map₂ k

@[simp] theorem select_append (k : κ) (xs ys : List (κ × β)) : select k (xs ++ ys) = select k xs ++ select k ys :=
  List.filterMap_append

@[simp] theorem select_tag (k : κ) (xs : List β) : select k (xs.map (Prod.mk k)) = xs := by
  simp [select, List.filterMap_map]

theorem mem_select {k : κ} {out : List (κ × β)} {b : β} : b ∈ select k out ↔ (k, b) ∈ out := by
  simp only [select, List.mem_filterMap, Option.ite_none_right_eq_some, Option.some.injEq]
  constructor
  · rintro ⟨⟨k', b'⟩, hmem, rfl, rfl⟩
    exact hmem
  · exact fun h => ⟨(k, b), h, rfl, rfl⟩

theorem select_tag_ne {k k' : κ} (h : k' ≠ k) (xs : List β) : select k (xs.map (Prod.mk k')) = [] := by
  simp [select, h]

theorem select_visit (f : κ → α → α × List β) (t : Table κ α) (k : κ) :
    select k (t.visit f).2 = ((t.lookup k).map (fun v => (f k v).2)).getD [] := by
  obtain ⟨entries, hnodup⟩ := t
  simp only [visit, AList.lookup]
  induction entries with
  | nil => rfl
  | cons e entries ih =>
      obtain ⟨hout, hrest⟩ := List.nodupKeys_cons.mp hnodup
      rw [List.flatMap_cons, select_append, ih hrest]
      by_cases hk : e.1 = k
      · obtain ⟨k', v⟩ := e
        subst hk
        rw [select_tag, List.dlookup_cons_eq, List.dlookup_eq_none.mpr hout]
        simp
      · rw [select_tag_ne hk, List.dlookup_cons_ne _ _ (Ne.symm hk), List.nil_append]

@[simp] theorem lookup_retain (p : κ → α → Bool) (t : Table κ α) (k : κ) :
    (t.retain p).lookup k = (t.lookup k).filter (p k) := by
  ext v
  rw [← Option.mem_def, ← Option.mem_def, AList.mem_lookup_iff, Option.mem_filter_iff, AList.mem_lookup_iff, retain,
    List.mem_filter]

/-- The keys of the entries that meet `p` are distinct, so a table counts no more
of them than another that has such an entry under each of these keys. -/
theorem countP_le {p : α → Bool} {t t' : Table κ α}
    (h : ∀ k, ∀ v' ∈ t'.lookup k, p v' = true → ∃ v ∈ t.lookup k, p v = true) :
    t'.entries.countP (fun e => p e.2) ≤ t.entries.countP (fun e => p e.2) := by
  have hkeys : (t'.entries.filter fun e => p e.2).keys ⊆ (t.entries.filter fun e => p e.2).keys := by
    intro k hk
    obtain ⟨v', hmem⟩ := List.exists_of_mem_keys hk
    obtain ⟨hmem, hp'⟩ := List.mem_filter.mp hmem
    obtain ⟨v, hv, hp⟩ := h k v' (AList.mem_lookup_iff.mpr hmem) hp'
    exact List.mem_keys_of_mem (List.mem_filter.mpr ⟨AList.mem_lookup_iff.mp hv, hp⟩)
  have hnodup : (t'.entries.filter fun e => p e.2).keys.Nodup := t'.nodupKeys.sublist List.filter_sublist
  have hle := (List.subperm_of_subset hnodup hkeys).length_le
  rw [List.countP_eq_length_filter, List.countP_eq_length_filter]
  simpa only [List.keys, List.length_map] using hle

theorem countP_insert_new (p : α → Bool) {t : Table κ α} {k : κ} (hk : t.lookup k = none) {v : α} (hv : p v = true) :
    (t.insert k v).entries.countP (fun e => p e.2) = t.entries.countP (fun e => p e.2) + 1 := by
  rw [AList.entries_insert_of_notMem (AList.lookup_eq_none.mp hk), List.countP_cons, if_pos hv]

theorem countP_insert_le (p : α → Bool) (t : Table κ α) (k : κ) (v : α) :
    (t.insert k v).entries.countP (fun e => p e.2) ≤ t.entries.countP (fun e => p e.2) + 1 := by
  have hrest : (t.entries.kerase k).countP (fun e => p e.2) ≤ t.entries.countP (fun e => p e.2) :=
    (List.kerase_sublist k t.entries).countP_le
  rw [AList.entries_insert, List.countP_cons]
  split_ifs <;> omega

end Table
end TcpStack
