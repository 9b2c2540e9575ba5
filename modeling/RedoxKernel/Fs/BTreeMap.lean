import RedoxKernel.Machine

/-!
# `BTreeMap<usize, V>`

`scheme.rs` keeps its pending and completed requests in `BTreeMap<usize, (usize, usize, usize,
usize)>` and uses four of its operations: `insert`, `remove`, `keys().next()` (the least key) and
the map's order. The model is the map's entries in ascending key order, with the order as a field
of the structure, so no map can be built whose entries are out of order or repeat a key.

`get` is the lookup every statement is written in. `get_insert`, `get_remove` and
`remove_fst` say what `insert` and `remove` do to it, whatever the keys, and `firstKey?_eq_some`
and `firstKey?_eq_none` that `firstKey?` is the least key present, or `none` on an empty map.
`head_entry`, `entries_of_firstKey` and `insert_entries_of_lt` say the same of the entries in
order: the least key heads them, and a key above all others is appended. Later modules use only
these.
-/

set_option autoImplicit false
set_option relaxedAutoImplicit false

namespace RedoxKernel.Fs

/-- `BTreeMap<usize, V>`: its entries, in strictly ascending key order. -/
structure BTreeMap (β : Type) where
  entries : List (Nat × β)
  sorted : entries.Pairwise fun a b => a.1 < b.1

namespace BTreeMap

variable {β : Type}

/-- The entry for `k` in a list of entries. -/
def find? (k : Nat) : List (Nat × β) → Option β
  | [] => none
  | (k', v) :: rest => if k = k' then some v else find? k rest

/-- Insertion into a key-ordered list of entries, replacing the entry for `k`. -/
def insertEntry (k : Nat) (v : β) : List (Nat × β) → List (Nat × β)
  | [] => [(k, v)]
  | (k', v') :: rest =>
    if k < k' then (k, v) :: (k', v') :: rest
    else if k = k' then (k, v) :: rest
    else (k', v') :: insertEntry k v rest

theorem mem_insertEntry {k : Nat} {v : β} {e : Nat × β} :
    ∀ {l : List (Nat × β)}, e ∈ insertEntry k v l → e = (k, v) ∨ e ∈ l
  | [], h => by simpa [insertEntry] using h
  | (k', v') :: rest, h => by
    unfold insertEntry at h
    split_ifs at h
    · simpa using h
    · simp only [List.mem_cons] at h; rcases h with h | h <;> simp [h]
    · simp only [List.mem_cons] at h
      rcases h with h | h
      · simp [h]
      · rcases mem_insertEntry h with h | h <;> simp [h]

theorem insertEntry_sorted (k : Nat) (v : β) :
    ∀ {l : List (Nat × β)}, l.Pairwise (fun a b => a.1 < b.1) →
      (insertEntry k v l).Pairwise fun a b => a.1 < b.1
  | [], _ => by simp [insertEntry]
  | (k', v') :: rest, h => by
    rw [List.pairwise_cons] at h
    unfold insertEntry
    split_ifs with hlt heq
    · exact List.Pairwise.cons (fun e he => by
        rcases List.mem_cons.mp he with rfl | he
        · exact hlt
        · exact hlt.trans (h.1 e he)) (List.Pairwise.cons h.1 h.2)
    · subst heq; exact List.Pairwise.cons h.1 h.2
    · refine List.Pairwise.cons (fun e he => ?_) (insertEntry_sorted k v h.2)
      rcases mem_insertEntry he with rfl | he
      · show k' < k; omega
      · exact h.1 e he

/-- The empty map. -/
def empty : BTreeMap β := ⟨[], List.Pairwise.nil⟩

/-- The value stored under `k`. -/
def get (m : BTreeMap β) (k : Nat) : Option β := find? k m.entries

/-- `BTreeMap::insert`: store `v` under `k`, replacing what was there. -/
def insert (m : BTreeMap β) (k : Nat) (v : β) : BTreeMap β :=
  ⟨insertEntry k v m.entries, insertEntry_sorted k v m.sorted⟩

/-- `BTreeMap::remove`: take out the value stored under `k`. -/
def remove (m : BTreeMap β) (k : Nat) : Option β × BTreeMap β :=
  (m.get k, ⟨m.entries.filter (fun e => e.1 ≠ k), m.sorted.sublist (List.filter_sublist _)⟩)

/-- `keys().next()`: the least key. -/
def firstKey? (m : BTreeMap β) : Option Nat := m.entries.head?.map Prod.fst

/-! ### Lookup -/

theorem find?_insertEntry (k k' : Nat) (v : β) :
    ∀ l : List (Nat × β), find? k' (insertEntry k v l) = if k' = k then some v else find? k' l
  | [] => by simp [insertEntry, find?]
  | (j, u) :: rest => by
    have ih := find?_insertEntry k k' v rest
    unfold insertEntry
    by_cases hk : k' = k <;> by_cases hj : k' = j
    · subst hk; subst hj; split_ifs <;> simp_all [find?]
    · subst hk; split_ifs <;> simp_all [find?]
    · subst hj; split_ifs <;> simp_all [find?]
    · split_ifs <;> simp_all [find?]

theorem find?_filter (k k' : Nat) :
    ∀ l : List (Nat × β),
      find? k' (l.filter fun e => e.1 ≠ k) = if k' = k then none else find? k' l
  | [] => by simp [find?]
  | (j, u) :: rest => by
    have ih := find?_filter k k' rest
    by_cases hj : j = k
    · subst hj
      by_cases hk : k' = j <;> simp_all [find?]
    · by_cases hk : k' = k
      · subst hk; simp_all [find?, Ne.symm hj]
      · by_cases hk' : k' = j <;> simp_all [find?]

theorem find?_eq_some_mem {k : Nat} {v : β} :
    ∀ {l : List (Nat × β)}, find? k l = some v → (k, v) ∈ l
  | [], h => by simp [find?] at h
  | (j, u) :: rest, h => by
    unfold find? at h
    split_ifs at h with hk
    · cases h; simp [hk]
    · exact List.mem_cons_of_mem _ (find?_eq_some_mem h)

@[simp] theorem get_empty (k : Nat) : (empty : BTreeMap β).get k = none := rfl

@[simp] theorem get_insert (m : BTreeMap β) (k k' : Nat) (v : β) :
    (m.insert k v).get k' = if k' = k then some v else m.get k' :=
  find?_insertEntry k k' v m.entries

@[simp] theorem remove_fst (m : BTreeMap β) (k : Nat) : (m.remove k).1 = m.get k := rfl

@[simp] theorem get_remove (m : BTreeMap β) (k k' : Nat) :
    (m.remove k).2.get k' = if k' = k then none else m.get k' :=
  find?_filter k k' m.entries

/-! ### The least key -/

/-- `firstKey?` names a key present in the map, and no key present is smaller. -/
theorem firstKey?_eq_some {m : BTreeMap β} {k : Nat} (h : m.firstKey? = some k) :
    (m.get k).isSome ∧ ∀ k', (m.get k').isSome → k ≤ k' := by
  obtain ⟨entries, sorted⟩ := m
  cases entries with
  | nil => simp [firstKey?] at h
  | cons e rest =>
    obtain ⟨j, u⟩ := e
    simp only [firstKey?, List.head?_cons, Option.map_some', Option.some.injEq] at h
    subst h
    refine ⟨by simp [get, find?], fun k' hk' => ?_⟩
    obtain ⟨v, hv⟩ := Option.isSome_iff_exists.mp hk'
    rcases List.mem_cons.mp (find?_eq_some_mem hv) with he | he
    · cases he; exact Nat.le_refl _
    · exact Nat.le_of_lt ((List.pairwise_cons.mp sorted).1 _ he)

/-- `firstKey?` is `none` exactly on the empty map. -/
theorem firstKey?_eq_none {m : BTreeMap β} : m.firstKey? = none ↔ ∀ k, m.get k = none := by
  obtain ⟨entries, sorted⟩ := m
  cases entries with
  | nil => simp [firstKey?, get, find?]
  | cons e rest =>
    obtain ⟨j, u⟩ := e
    simp only [firstKey?, List.head?_cons, Option.map_some', reduceCtorEq, false_iff, not_forall]
    exact ⟨j, by simp [get, find?]⟩

/-! ### The entries one by one -/

theorem find?_isSome_of_mem {e : Nat × β} :
    ∀ {l : List (Nat × β)}, e ∈ l → (find? e.1 l).isSome
  | [], h => absurd h (List.not_mem_nil _)
  | (k, v) :: rest, h => by
    unfold find?
    split_ifs with hk
    · rfl
    · exact find?_isSome_of_mem ((List.mem_cons.mp h).resolve_left fun he => hk (by rw [he]))

/-- Every entry's key has a value in the map. -/
theorem get_isSome_of_mem {m : BTreeMap β} {e : Nat × β} (h : e ∈ m.entries) :
    (m.get e.1).isSome :=
  find?_isSome_of_mem h

/-- The first entry is the least key with its value, and removing that key leaves the entries
after it. -/
theorem head_entry {m : BTreeMap β} {k : Nat} {v : β} {rest : List (Nat × β)}
    (h : m.entries = (k, v) :: rest) :
    m.firstKey? = some k ∧ m.get k = some v ∧ (m.remove k).2.entries = rest := by
  obtain ⟨entries, sorted⟩ := m
  dsimp only at h
  subst h
  have habove := (List.pairwise_cons.mp sorted).1
  refine ⟨rfl, by simp [get, find?], ?_⟩
  simp only [remove, List.filter_cons, ne_eq, not_true_eq_false, decide_False]
  exact List.filter_eq_self.mpr fun e he => by simpa using (habove e he).ne'

theorem insertEntry_of_lt {k : Nat} {v : β} :
    ∀ {l : List (Nat × β)}, (∀ e ∈ l, e.1 < k) → insertEntry k v l = l ++ [(k, v)]
  | [], _ => rfl
  | (k', v') :: rest, h => by
    have hk : k' < k := h _ (List.mem_cons_self _ _)
    rw [insertEntry, if_neg (by omega), if_neg (by omega),
      insertEntry_of_lt fun e he => h e (List.mem_cons_of_mem _ he)]
    rfl

/-- Inserting a key above every key present appends its entry. -/
theorem insert_entries_of_lt {m : BTreeMap β} {k : Nat} (v : β) (h : ∀ e ∈ m.entries, e.1 < k) :
    (m.insert k v).entries = m.entries ++ [(k, v)] :=
  insertEntry_of_lt h

/-- The least key, with its value, is the first entry. -/
theorem entries_of_firstKey {m : BTreeMap β} {k : Nat} {v : β} (hk : m.firstKey? = some k)
    (hv : m.get k = some v) : ∃ rest, m.entries = (k, v) :: rest := by
  obtain ⟨entries, sorted⟩ := m
  cases entries with
  | nil => simp [firstKey?] at hk
  | cons e rest =>
    obtain ⟨j, u⟩ := e
    simp only [firstKey?, List.head?_cons, Option.map_some', Option.some.injEq] at hk
    subst hk
    simp only [get, find?, if_true, Option.some.injEq] at hv
    subst hv
    exact ⟨rest, rfl⟩

/-- `insert` as an update of the lookup function. -/
theorem get_insert_eq (m : BTreeMap β) (k : Nat) (v : β) :
    (m.insert k v).get = Function.update m.get k (some v) := by
  funext k'
  rw [get_insert, Function.update_apply]

/-- `remove` as an update of the lookup function. -/
theorem get_remove_eq (m : BTreeMap β) (k : Nat) :
    (m.remove k).2.get = Function.update m.get k none := by
  funext k'
  rw [get_remove, Function.update_apply]

/-- A map with no entries is the empty map. -/
theorem eq_empty_of_entries {m : BTreeMap β} (h : m.entries = []) : m = empty := by
  obtain ⟨entries, sorted⟩ := m
  dsimp only at h
  subst h
  rfl

/-- Removing the only key of a map empties it. -/
theorem remove_insert_empty (k : Nat) (v : β) : ((empty.insert k v).remove k).2 = empty :=
  eq_empty_of_entries (by simp [insert, remove, insertEntry, empty])

end BTreeMap

end RedoxKernel.Fs
