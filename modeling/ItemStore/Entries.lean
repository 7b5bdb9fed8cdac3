/-
Association lists with one entry for a key.

Items and maps keep their entries in the order in which they were put in, and a
key that is put in again keeps its place. Token tables and stored items are kept
in ascending order of their keys instead. Both are plain lists of pairs, looked
up from the front; what tells them apart is how an entry is put in.
-/
set_option autoImplicit false

namespace ItemStore.Entries

variable {κ α : Type} [DecidableEq κ]

/-- What is stored under a key. Repeated keys would hide each other here; the lists of
this library are built by `insert` and `insertSorted`, which never repeat one. -/
def get? (key : κ) : List (κ × α) → Option α
  | [] => none
  | (k, a) :: entries => if k = key then some a else get? key entries

/-- Whether something is stored under a key. -/
def has (key : κ) (entries : List (κ × α)) : Bool := (get? key entries).isSome

/-- Stores under a key. A key that is present keeps its place, a new one comes last. So
the order of an item is the order in which its attributes first appeared, as a request
shows it on the wire. -/
def insert (key : κ) (value : α) : List (κ × α) → List (κ × α)
  | [] => [(key, value)]
  | (k, a) :: entries =>
    if k = key then (k, value) :: entries else (k, a) :: insert key value entries

/-- Removes what is stored under a key. -/
def erase (key : κ) : List (κ × α) → List (κ × α)
  | [] => []
  | (k, a) :: entries => if k = key then entries else (k, a) :: erase key entries

/-- The keys in order. -/
def keys (entries : List (κ × α)) : List κ := entries.map Prod.fst

/-- Stores one pair after the other: a repeated key keeps its first place and takes its
last value. This is how a JSON object becomes a map. -/
def ofList (pairs : List (κ × α)) : List (κ × α) :=
  pairs.foldl (fun entries (k, a) => insert k a entries) []

/-- Stores under a key in a list with ascending keys, which it stays. Tables of tokens
and stored items are kept this way, which makes two tables with the same tokens equal as
lists. -/
def insertSorted [LT κ] [DecidableLT κ] (key : κ) (value : α) : List (κ × α) → List (κ × α)
  | [] => [(key, value)]
  | (k, a) :: entries =>
    if key < k then (key, value) :: (k, a) :: entries
    else if k = key then (k, value) :: entries
    else (k, a) :: insertSorted key value entries

/-- Stores one pair after the other in ascending order; the last value of a key wins.
This is how a JSON object becomes a table of tokens. -/
def ofListSorted [LT κ] [DecidableLT κ] (pairs : List (κ × α)) : List (κ × α) :=
  pairs.foldl (fun entries (k, a) => insertSorted k a entries) []

/-! ## What an operation does to a look-up -/

theorem get?_insert (key k : κ) (value : α) (entries : List (κ × α)) :
    get? k (insert key value entries) = if k = key then some value else get? k entries := by
  induction entries with
  | nil => simp only [insert, get?, eq_comm]
  | cons e entries ih =>
    simp only [insert]
    split <;> simp only [get?] <;> grind

theorem get?_insertSorted [LT κ] [DecidableLT κ] (key k : κ) (value : α)
    (entries : List (κ × α)) :
    get? k (insertSorted key value entries) =
      if k = key then some value else get? k entries := by
  induction entries with
  | nil => simp only [insertSorted, get?, eq_comm]
  | cons e entries ih =>
    simp only [insertSorted]
    split
    · simp only [get?]; grind
    · split <;> simp only [get?] <;> grind

theorem get?_insertSorted_self [LT κ] [DecidableLT κ] (key : κ) (value : α)
    (entries : List (κ × α)) : get? key (insertSorted key value entries) = some value := by
  rw [get?_insertSorted, if_pos rfl]

theorem get?_erase_of_ne {key k : κ} (h : k ≠ key) (entries : List (κ × α)) :
    get? k (erase key entries) = get? k entries := by
  induction entries with
  | nil => rfl
  | cons e entries ih =>
    simp only [erase]
    split <;> simp only [get?] <;> grind

end ItemStore.Entries
