/-!
# Tables

A table maps keys to values whose type may depend on the key.  It is a list of entries in the order
in which their keys were first set, and no key occurs twice; the latter is part of the type, so the
number of entries is the number of keys ever set.

The two laws that everything else uses are `get?_set_self` and `get?_set_of_ne`.
-/

namespace ShaderLowering.Construction

/-- Values by key, in the order in which the keys were first set. -/
structure Table (κ : Type) (β : κ → Type) where
  entries : List (Sigma β)
  nodup : (entries.map Sigma.fst).Nodup

namespace Table

variable {κ : Type} {β : κ → Type} [DecidableEq κ]

/-- The value of a key among entries. -/
def find? (k : κ) : List (Sigma β) → Option (β k)
  | [] => none
  | ⟨k', v⟩ :: rest => if h : k' = k then some (h ▸ v) else find? k rest

/-- Replaces the value of a key where it stands, or appends it. -/
def replace (k : κ) (v : β k) : List (Sigma β) → List (Sigma β)
  | [] => [⟨k, v⟩]
  | e :: rest => if e.1 = k then ⟨k, v⟩ :: rest else e :: replace k v rest

theorem mem_keys_replace {k : κ} {v : β k} {entries : List (Sigma β)} {k' : κ} :
    k' ∈ (replace k v entries).map Sigma.fst ↔ k' = k ∨ k' ∈ entries.map Sigma.fst := by
  induction entries with
  | nil => simp [replace]
  | cons e rest ih =>
    by_cases h : e.1 = k
    · simp [replace, h]
    · simp only [replace, if_neg h, List.map_cons, List.mem_cons, ih]
      exact ⟨fun m => m.elim (fun x => .inr (.inl x)) (fun m => m.imp id .inr),
        fun m => m.elim (fun x => .inr (.inl x)) (fun m => m.imp id .inr)⟩

theorem nodup_replace {k : κ} {v : β k} {entries : List (Sigma β)}
    (h : (entries.map Sigma.fst).Nodup) : ((replace k v entries).map Sigma.fst).Nodup := by
  induction entries with
  | nil => simp [replace]
  | cons e rest ih =>
    rw [List.map_cons, List.nodup_cons] at h
    by_cases same : e.1 = k
    · rw [replace, if_pos same, List.map_cons, List.nodup_cons]
      exact ⟨same ▸ h.1, h.2⟩
    · rw [replace, if_neg same, List.map_cons, List.nodup_cons, mem_keys_replace]
      exact ⟨fun m => m.elim same h.1, ih h.2⟩

def empty : Table κ β :=
  ⟨[], List.nodup_nil⟩

def get? (t : Table κ β) (k : κ) : Option (β k) :=
  find? k t.entries

/-- Gives a key a value, over the one it may have had. -/
def set (t : Table κ β) (k : κ) (v : β k) : Table κ β :=
  ⟨replace k v t.entries, nodup_replace t.nodup⟩

/-- The keys in the order in which they were first set. -/
def keys (t : Table κ β) : List κ :=
  t.entries.map Sigma.fst

def size (t : Table κ β) : Nat :=
  t.entries.length

@[simp] theorem get?_empty (k : κ) : (empty : Table κ β).get? k = none := rfl

theorem find?_replace_self (k : κ) (v : β k) (entries : List (Sigma β)) :
    find? k (replace k v entries) = some v := by
  induction entries with
  | nil => simp [replace, find?]
  | cons e rest ih =>
    by_cases h : e.1 = k
    · simp [replace, find?, h]
    · simp [replace, find?, h, ih]

theorem find?_replace_of_ne {k k' : κ} (ne : k' ≠ k) (v : β k) (entries : List (Sigma β)) :
    find? k' (replace k v entries) = find? k' entries := by
  induction entries with
  | nil => simp [replace, find?, ne.symm]
  | cons e rest ih =>
    obtain ⟨k'', w⟩ := e
    by_cases h : k'' = k
    · subst h
      simp [replace, find?, ne.symm]
    · simp [replace, find?, h, ih]

@[simp] theorem get?_set_self (t : Table κ β) (k : κ) (v : β k) : (t.set k v).get? k = some v :=
  find?_replace_self k v t.entries

theorem get?_set_of_ne {k k' : κ} (ne : k' ≠ k) (t : Table κ β) (v : β k) :
    (t.set k v).get? k' = t.get? k' :=
  find?_replace_of_ne ne v t.entries

theorem mem_keys_iff {t : Table κ β} {k : κ} : k ∈ t.keys ↔ (t.get? k).isSome := by
  obtain ⟨entries, nodup⟩ := t
  show k ∈ entries.map Sigma.fst ↔ (find? k entries).isSome
  clear nodup
  induction entries with
  | nil => simp [find?]
  | cons e rest ih =>
    by_cases h : e.1 = k
    · simp [find?, h]
    · simp [find?, h, ih, Ne.symm h]

theorem keys_set_of_some {t : Table κ β} {k : κ} (v : β k) (h : (t.get? k).isSome) :
    (t.set k v).keys = t.keys := by
  obtain ⟨entries, nodup⟩ := t
  change (find? k entries).isSome at h
  show (replace k v entries).map Sigma.fst = entries.map Sigma.fst
  clear nodup
  induction entries with
  | nil => simp [find?] at h
  | cons e rest ih =>
    by_cases same : e.1 = k
    · simp [replace, same]
    · simp only [find?, same, dite_false] at h
      simp [replace, same, ih h]

theorem keys_set_of_none {t : Table κ β} {k : κ} (v : β k) (h : t.get? k = none) :
    (t.set k v).keys = t.keys ++ [k] := by
  obtain ⟨entries, nodup⟩ := t
  change find? k entries = none at h
  show (replace k v entries).map Sigma.fst = entries.map Sigma.fst ++ [k]
  clear nodup
  induction entries with
  | nil => rfl
  | cons e rest ih =>
    by_cases same : e.1 = k
    · simp [find?, same] at h
    · simp only [find?, same, dite_false] at h
      simp [replace, same, ih h]

end Table

end ShaderLowering.Construction
