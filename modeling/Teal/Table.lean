/-!
# Tables

A finite map kept as the list of its entries, in ascending order of their keys. The order is
what documents and reports show, so it is part of the data and not of a printing step.

## Main definitions

* `Table.get?`, `Table.insert`, `Table.erase`: look up, write and remove one key.
* `Table.Ordered`: the entries stand in ascending order, no key twice.

## Main statements

* `Table.get?_insert`: a write is seen at its own key and nowhere else.
* `Table.ordered_insert`, `Table.ordered_erase`: writes and removals keep the order.
* `Table.ofEntries_eq`: a table is determined by its entries, in whatever order they come.
-/

namespace Teal

/-- A finite map, listed in ascending order of its keys. -/
abbrev Table (κ ν : Type) := List (κ × ν)

namespace Table

variable {κ ν μ : Type}

def get? [DecidableEq κ] : Table κ ν → κ → Option ν
  | [], _ => none
  | (k, v) :: rest, key => if k = key then some v else get? rest key

def contains [DecidableEq κ] (t : Table κ ν) (key : κ) : Bool :=
  (get? t key).isSome

/-- Writes a key: an old value is replaced in place, a new key goes to its place in the order. -/
def insert [DecidableEq κ] [LT κ] [DecidableLT κ] (key : κ) (value : ν) : Table κ ν → Table κ ν
  | [] => [(key, value)]
  | (k, v) :: rest =>
    if key < k then (key, value) :: (k, v) :: rest
    else if k = key then (key, value) :: rest
    else (k, v) :: insert key value rest

def erase [DecidableEq κ] (key : κ) (t : Table κ ν) : Table κ ν :=
  t.filter fun entry => entry.1 ≠ key

/-- The table of the given entries, the last of two entries with one key counting. -/
def ofEntries [DecidableEq κ] [LT κ] [DecidableLT κ] (entries : List (κ × ν)) : Table κ ν :=
  entries.foldl (fun t entry => insert entry.1 entry.2 t) []

/-- The entries stand in ascending order of their keys, no key twice. -/
def Ordered [LT κ] (t : Table κ ν) : Prop :=
  t.Pairwise fun a b => a.1 < b.1

@[simp] theorem get?_nil [DecidableEq κ] (key : κ) : get? ([] : Table κ ν) key = none := rfl

@[simp] theorem get?_cons [DecidableEq κ] (k : κ) (v : ν) (rest : Table κ ν) (key : κ) :
    get? ((k, v) :: rest) key = if k = key then some v else get? rest key := rfl

/-- A write is seen at its own key, and at no other. -/
theorem get?_insert [DecidableEq κ] [LT κ] [DecidableLT κ] (t : Table κ ν) (key : κ) (value : ν)
    (other : κ) :
    get? (insert key value t) other = if key = other then some value else get? t other := by
  induction t with
  | nil => rfl
  | cons entry rest ih =>
    obtain ⟨k, v⟩ := entry
    simp only [insert]
    split
    · rfl
    · split
      · next h => subst h; by_cases e : k = other <;> simp [e]
      · next h =>
        by_cases e : k = other
        · subst e; simp [Ne.symm h]
        · simp [e, ih]

@[simp] theorem get?_insert_self [DecidableEq κ] [LT κ] [DecidableLT κ] (t : Table κ ν) (key : κ)
    (value : ν) : get? (insert key value t) key = some value := by
  simp [get?_insert]

/-- Removing a key leaves every other key as it was. -/
theorem get?_erase [DecidableEq κ] (t : Table κ ν) (key other : κ) :
    get? (erase key t) other = if key = other then none else get? t other := by
  induction t with
  | nil => simp [erase]
  | cons entry rest ih =>
    obtain ⟨k, v⟩ := entry
    by_cases h : k = key
    · subst h
      have step : erase k ((k, v) :: rest) = erase k rest := by simp [erase]
      rw [step, ih]
      by_cases e : k = other <;> simp [e]
    · have step : erase key ((k, v) :: rest) = (k, v) :: erase key rest := by simp [erase, h]
      rw [step, get?_cons, get?_cons, ih]
      by_cases e : k = other
      · subst e; simp [Ne.symm h]
      · simp [e]

/-- Every key after a write is the written one or was there before. -/
theorem mem_keys_insert [DecidableEq κ] [LT κ] [DecidableLT κ] {t : Table κ ν} {key : κ}
    {value : ν} {entry : κ × ν} (h : entry ∈ insert key value t) :
    entry = (key, value) ∨ entry ∈ t := by
  induction t with
  | nil => simpa [insert] using h
  | cons head rest ih =>
    obtain ⟨k, v⟩ := head
    simp only [insert] at h
    split at h
    · simpa using h
    · split at h
      · rcases List.mem_cons.mp h with h | h
        · exact .inl h
        · exact .inr (List.mem_cons_of_mem _ h)
      · rcases List.mem_cons.mp h with h | h
        · exact .inr (h ▸ List.mem_cons_self)
        · exact (ih h).imp_right (List.mem_cons_of_mem _)

/-- What is found at a key is an entry. -/
theorem mem_of_get? [DecidableEq κ] {t : Table κ ν} {key : κ} {value : ν}
    (h : get? t key = some value) : (key, value) ∈ t := by
  induction t with
  | nil => cases h
  | cons entry rest ih =>
    obtain ⟨k, v⟩ := entry
    rw [get?_cons] at h
    split at h
    · next e =>
      cases h
      exact e ▸ List.mem_cons_self
    · exact List.mem_cons_of_mem _ (ih h)

section Entries

variable [DecidableEq κ] [LT κ] [DecidableLT κ] {t : Table κ ν} {entries : List (κ × ν)}
  {entry : κ × ν}

theorem mem_foldl_insert
    (h : entry ∈ entries.foldl (fun t entry => insert entry.1 entry.2 t) t) :
    entry ∈ t ∨ entry ∈ entries := by
  induction entries generalizing t with
  | nil => exact .inl h
  | cons first rest ih =>
    rcases ih h with h | h
    · rcases mem_keys_insert h with h | h
      · exact .inr (h ▸ List.mem_cons_self)
      · exact .inl h
    · exact .inr (List.mem_cons_of_mem _ h)

/-- The table of some entries has no others. -/
theorem mem_ofEntries (h : entry ∈ ofEntries entries) : entry ∈ entries :=
  (mem_foldl_insert h).resolve_left (by simp)

theorem isSome_get?_foldl_insert (h : (get? t entry.1).isSome ∨ entry ∈ entries) :
    (get? (entries.foldl (fun t entry => insert entry.1 entry.2 t) t) entry.1).isSome := by
  induction entries generalizing t with
  | nil => simpa using h
  | cons first rest ih =>
    refine ih ?_
    rw [get?_insert]
    by_cases e : first.1 = entry.1
    · simp [e]
    · rcases h with h | h
      · simp [e, h]
      · rcases List.mem_cons.mp h with rfl | h
        · exact absurd rfl e
        · exact .inr h

/-- Every key of some entries is a key of their table. -/
theorem isSome_get?_ofEntries (h : entry ∈ entries) :
    (get? (ofEntries entries) entry.1).isSome :=
  isSome_get?_foldl_insert (.inr h)

/-- A new key is added to the entries. -/
theorem perm_insert {key : κ} (h : key ∉ t.map Prod.fst) (value : ν) :
    (insert key value t).Perm ((key, value) :: t) := by
  induction t with
  | nil => exact .refl _
  | cons entry rest ih =>
    obtain ⟨k, v⟩ := entry
    simp only [List.map_cons, List.mem_cons, not_or] at h
    simp only [insert]
    split
    · exact .refl _
    · rw [if_neg (Ne.symm h.1)]
      exact ((ih h.2).cons _).trans (.swap _ _ _)

theorem perm_foldl_insert (h : ((t ++ entries).map Prod.fst).Nodup) :
    (entries.foldl (fun t entry => insert entry.1 entry.2 t) t).Perm (t ++ entries) := by
  induction entries generalizing t with
  | nil => simp
  | cons first rest ih =>
    have moved : (t ++ first :: rest).Perm ((first :: t) ++ rest) := List.perm_middle
    have hnew : first.1 ∉ t.map Prod.fst := by
      have := (moved.map Prod.fst).nodup_iff.mp h
      simp only [List.cons_append, List.map_cons, List.map_append, List.nodup_cons] at this
      exact fun hm => this.1 (List.mem_append_left _ hm)
    have inserted := ((perm_insert hnew first.2).append_right rest).trans moved.symm
    exact (ih ((inserted.map Prod.fst).nodup_iff.mpr h)).trans inserted

/-- Where no two entries have one key, the table has them all. -/
theorem perm_ofEntries (h : (entries.map Prod.fst).Nodup) : (ofEntries entries).Perm entries :=
  perm_foldl_insert h

end Entries

/-! ## Order -/

/-- A removal keeps the entries in ascending order. -/
theorem ordered_erase [DecidableEq κ] [LT κ] {t : Table κ ν} {key : κ} (h : t.Ordered) :
    (erase key t).Ordered :=
  List.Pairwise.filter _ h

/-- No key of a table stands twice. -/
theorem nodup_keys [LT κ] [Std.Irrefl fun a b : κ => a < b] {t : Table κ ν} (h : t.Ordered) :
    (t.map Prod.fst).Nodup := by
  refine List.pairwise_map.mpr (List.Pairwise.imp ?_ h)
  intro a b hlt heq
  exact Std.lt_irrefl (heq ▸ hlt)

/-- An entry is found at its key. -/
theorem get?_of_mem [DecidableEq κ] [LT κ] [Std.Irrefl fun a b : κ => a < b] {t : Table κ ν}
    {entry : κ × ν} (h : t.Ordered) (hmem : entry ∈ t) : get? t entry.1 = some entry.2 := by
  induction t with
  | nil => cases hmem
  | cons head rest ih =>
    obtain ⟨hfirst, hrest⟩ := List.pairwise_cons.mp h
    rw [show head = (head.1, head.2) from rfl, get?_cons]
    rcases List.mem_cons.mp hmem with rfl | hmem
    · simp
    · rw [if_neg fun e => Std.lt_irrefl (e ▸ hfirst entry hmem), ih hrest hmem]

/-- Tables with the same entries are equal. -/
theorem eq_of_perm [LE κ] [LT κ] [Std.IsLinearOrder κ] [Std.LawfulOrderLT κ] {s t : Table κ ν}
    (hs : s.Ordered) (ht : t.Ordered) (h : s.Perm t) : s = t := by
  have asymm (a b : κ × ν) (_ : a ∈ s) (_ : b ∈ t) (hab : a.1 < b.1) (hba : b.1 < a.1) : a = b :=
    absurd (Std.lt_trans hab hba) Std.lt_irrefl
  exact List.Perm.eq_of_pairwise asymm hs ht h

section Order

variable [DecidableEq κ] [LE κ] [LT κ] [DecidableLT κ] [Std.IsLinearOrder κ] [Std.LawfulOrderLT κ]
  {s t : Table κ ν}

/-- A write keeps the entries in ascending order. -/
theorem ordered_insert (h : t.Ordered) (key : κ) (value : ν) : (insert key value t).Ordered := by
  induction t with
  | nil => simp [insert, Ordered]
  | cons entry rest ih =>
    obtain ⟨k, v⟩ := entry
    obtain ⟨hfirst, hrest⟩ := List.pairwise_cons.mp h
    simp only [insert]
    split
    · next hlt =>
      refine List.pairwise_cons.mpr ⟨fun e he => ?_, h⟩
      rcases List.mem_cons.mp he with rfl | he
      · exact hlt
      · exact Std.lt_trans hlt (hfirst e he)
    · split
      · next e =>
        subst e
        exact List.pairwise_cons.mpr ⟨hfirst, hrest⟩
      · next hlt hne =>
        refine List.pairwise_cons.mpr ⟨fun e he => ?_, ih hrest⟩
        rcases mem_keys_insert he with rfl | he
        · exact Std.lt_of_le_of_ne (Std.not_lt.mp hlt) hne
        · exact hfirst e he

theorem ordered_foldl_insert {entries : List (κ × ν)} (h : t.Ordered) :
    (entries.foldl (fun t entry => insert entry.1 entry.2 t) t).Ordered := by
  induction entries generalizing t with
  | nil => exact h
  | cons first rest ih => exact ih (ordered_insert h _ _)

theorem ordered_ofEntries (entries : List (κ × ν)) : (ofEntries entries).Ordered :=
  ordered_foldl_insert .nil

/-- A table is determined by its entries, in whatever order they come. -/
theorem ofEntries_eq {entries : List (κ × ν)} (ht : t.Ordered) (h : entries.Perm t) :
    ofEntries entries = t :=
  eq_of_perm (ordered_ofEntries entries) ht
    ((perm_ofEntries ((h.map Prod.fst).nodup_iff.mpr (nodup_keys ht))).trans h)

end Order

end Table

end Teal
