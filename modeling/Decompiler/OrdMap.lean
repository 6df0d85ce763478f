/-!
# Insertion-ordered maps

`OrdMap κ ν` is a finite map that remembers the order in which its keys were first put in. Putting a
value under a key that is already there keeps the key's place; erasing a key and putting it back
moves it to the end. Symbol listings, colour tables and edge lists show this order, so the list of
entries is the view of the map, and the lemmas below say what each operation does to look-ups.
-/

namespace Decompiler

/-- A finite map that lists its entries in the order in which their keys were first inserted. -/
structure OrdMap (κ ν : Type) where
  entries : List (κ × ν)
  deriving DecidableEq, Repr

namespace OrdMap

variable {κ ν : Type}

/-- The map without entries. -/
def empty : OrdMap κ ν := ⟨[]⟩

instance : EmptyCollection (OrdMap κ ν) := ⟨empty⟩

instance : Inhabited (OrdMap κ ν) := ⟨empty⟩

/-- The keys, oldest first. -/
def keys (m : OrdMap κ ν) : List κ := m.entries.map Prod.fst

/-- The values, in the order of their keys. -/
def values (m : OrdMap κ ν) : List ν := m.entries.map Prod.snd

/-- The number of entries. -/
def size (m : OrdMap κ ν) : Nat := m.entries.length

def isEmpty (m : OrdMap κ ν) : Bool := m.entries.isEmpty

variable [DecidableEq κ]

/-- The value stored under a key in a list of entries. -/
def lookup (k : κ) : List (κ × ν) → Option ν
  | [] => none
  | (k', v) :: rest => if k' = k then some v else lookup k rest

/-- Replaces the value of a key in place, or appends a new entry. -/
def put (k : κ) (v : ν) : List (κ × ν) → List (κ × ν)
  | [] => [(k, v)]
  | (k', v') :: rest => if k' = k then (k', v) :: rest else (k', v') :: put k v rest

/-- The value stored under a key. -/
def get? (m : OrdMap κ ν) (k : κ) : Option ν := lookup k m.entries

/-- The value stored under a key, or a value for a missing one. -/
def getD (m : OrdMap κ ν) (k : κ) (v : ν) : ν := (m.get? k).getD v

def contains (m : OrdMap κ ν) (k : κ) : Bool := (m.get? k).isSome

/-- Stores a value under a key; the key keeps its place if it was there. -/
def insert (m : OrdMap κ ν) (k : κ) (v : ν) : OrdMap κ ν := ⟨put k v m.entries⟩

/-- Forgets a key. -/
def erase (m : OrdMap κ ν) (k : κ) : OrdMap κ ν := ⟨m.entries.filter (fun e => e.1 ≠ k)⟩

/-- Changes the value under a key, starting from `v` for a missing one. -/
def upsert (m : OrdMap κ ν) (k : κ) (v : ν) (f : ν → ν) : OrdMap κ ν :=
  m.insert k (f (m.getD k v))

/-- Builds a map from entries; a later entry of the same key wins and keeps the first one's
place. -/
def ofList (l : List (κ × ν)) : OrdMap κ ν := l.foldl (fun m e => m.insert e.1 e.2) empty

/-! ## Look-ups after each operation -/

@[simp] theorem get?_empty (k : κ) : (empty : OrdMap κ ν).get? k = none := rfl

theorem lookup_put_self (k : κ) (v : ν) (l : List (κ × ν)) : lookup k (put k v l) = some v := by
  induction l with
  | nil => simp [put, lookup]
  | cons e rest ih =>
    by_cases h : e.1 = k
    · simp [put, lookup, h]
    · simp [put, lookup, h, ih]

theorem lookup_put_of_ne {k k' : κ} (h : k ≠ k') (v : ν) (l : List (κ × ν)) :
    lookup k' (put k v l) = lookup k' l := by
  induction l with
  | nil => simp [put, lookup, h]
  | cons e rest ih =>
    by_cases he : e.1 = k
    · have hk : e.1 ≠ k' := by rw [he]; exact h
      simp [put, lookup, he, h]
    · simp [put, lookup, he, ih]

@[simp] theorem get?_insert_self (m : OrdMap κ ν) (k : κ) (v : ν) :
    (m.insert k v).get? k = some v :=
  lookup_put_self k v m.entries

theorem get?_insert_of_ne (m : OrdMap κ ν) {k k' : κ} (h : k ≠ k') (v : ν) :
    (m.insert k v).get? k' = m.get? k' :=
  lookup_put_of_ne h v m.entries

theorem get?_insert (m : OrdMap κ ν) (k k' : κ) (v : ν) :
    (m.insert k v).get? k' = if k = k' then some v else m.get? k' := by
  by_cases h : k = k'
  · subst h; simp
  · simp [h, get?_insert_of_ne m h v]

theorem lookup_filter_self (k : κ) (l : List (κ × ν)) :
    lookup k (l.filter (fun e => e.1 ≠ k)) = none := by
  induction l with
  | nil => rfl
  | cons e rest ih => by_cases h : e.1 = k <;> simp_all [lookup]

theorem lookup_filter_of_ne {k k' : κ} (h : k ≠ k') (l : List (κ × ν)) :
    lookup k' (l.filter (fun e => e.1 ≠ k)) = lookup k' l := by
  induction l with
  | nil => rfl
  | cons e rest ih => by_cases he : e.1 = k <;> simp_all [lookup]

@[simp] theorem get?_erase_self (m : OrdMap κ ν) (k : κ) : (m.erase k).get? k = none :=
  lookup_filter_self k m.entries

theorem get?_erase_of_ne (m : OrdMap κ ν) {k k' : κ} (h : k ≠ k') :
    (m.erase k).get? k' = m.get? k' :=
  lookup_filter_of_ne h m.entries

end OrdMap

end Decompiler
