import Mathlib.Logic.Function.Basic
import Mathlib.Data.List.Basic

/-!
# Hash maps that move what they find

Buckets of key-value pairs.  A lookup moves the pair it finds to the front of
its bucket, and adding a pair does not look for older pairs under its key, which
become visible again when the newer one is erased.

Main results:

- Theorem `find_some`: what is found is in the map.
- Theorems `mem_find`, `mem_add` and `mem_erase`: no operation makes up a pair.
-/

/-- The buckets, by the value of the hash function. -/
abbrev MruMap (α β : Type) := Nat → List (α × β)

namespace MruMap

variable {α β : Type} (hash : α → Nat) (m : MruMap α β)

/-- A pair is somewhere in the map. -/
def Mem (k : α) (v : β) : Prop :=
  ∃ i, (k, v) ∈ m i

def empty : MruMap α β :=
  fun _ => []

def add (k : α) (v : β) : MruMap α β :=
  Function.update m (hash k) ((k, v) :: m (hash k))

variable {hash m} {k k' : α} {v v' : β}

theorem not_mem_empty : ¬(empty : MruMap α β).Mem k v := by
  rintro ⟨i, hi⟩
  cases hi

/-- Changing a bucket changes what is in the map as it does in the bucket. -/
theorem mem_of_update {i : Nat} {l : List (α × β)}
    (h : Mem (Function.update m i l) k v) : (k, v) ∈ l ∨ m.Mem k v := by
  obtain ⟨j, hj⟩ := h
  by_cases heq : j = i
  · rw [heq, Function.update_self] at hj
    exact Or.inl hj
  · rw [Function.update_of_ne heq] at hj
    exact Or.inr ⟨j, hj⟩

theorem mem_add (h : (m.add hash k v).Mem k' v') : k' = k ∧ v' = v ∨ m.Mem k' v' := by
  rcases mem_of_update h with hmem | hmem
  · rcases List.mem_cons.mp hmem with heq | hrest
    · exact Or.inl (Prod.mk.inj heq)
    · exact Or.inr ⟨hash k, hrest⟩
  · exact Or.inr hmem

variable [DecidableEq α] (hash m)

/-- The value under a key, and the map in which its pair comes first. -/
def find (k : α) : Option β × MruMap α β :=
  match (m (hash k)).find? (·.1 = k) with
  | none => (none, m)
  | some p => (some p.2, Function.update m (hash k) (p :: (m (hash k)).eraseP (·.1 = k)))

/-- Erase the first pair under a key. -/
def erase (k : α) : MruMap α β :=
  Function.update m (hash k) ((m (hash k)).eraseP (·.1 = k))

variable {hash m}

@[simp]
theorem find_empty : (empty : MruMap α β).find hash k = (none, empty) :=
  rfl

/-- What is found under a key is in the map under it. -/
theorem find_some (h : (m.find hash k).1 = some v) : m.Mem k v := by
  unfold find at h
  split at h
  · cases h
  · next p hp =>
      obtain rfl := Option.some.inj h
      have hkey : p.1 = k := by simpa using List.find?_some hp
      have hmem := List.mem_of_find?_eq_some hp
      subst hkey
      exact ⟨hash p.1, hmem⟩

theorem mem_find (h : (m.find hash k).2.Mem k' v') : m.Mem k' v' := by
  unfold find at h
  split at h
  · exact h
  · next p hp =>
      rcases mem_of_update h with hmem | hmem
      · rcases List.mem_cons.mp hmem with heq | hrest
        · exact ⟨hash k, heq ▸ List.mem_of_find?_eq_some hp⟩
        · exact ⟨hash k, List.mem_of_mem_eraseP hrest⟩
      · exact hmem

theorem mem_erase (h : (m.erase hash k).Mem k' v') : m.Mem k' v' := by
  rcases mem_of_update h with hmem | hmem
  · exact ⟨hash k, List.mem_of_mem_eraseP hmem⟩
  · exact hmem

end MruMap
