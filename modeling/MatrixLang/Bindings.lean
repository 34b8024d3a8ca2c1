/-!
# Names and what they are bound to

`Bindings α` is a finite map from names to values, kept as a list of pairs in
the order in which the names were first bound. A name is bound at most once as
long as the map is built by `insert`.
-/

namespace MatrixLang

/-- A finite map from names. -/
structure Bindings (α : Type) where
  entries : List (String × α)
deriving Repr

namespace Bindings

variable {α : Type}

def empty : Bindings α := ⟨[]⟩

/-- What a name is bound to in a list of pairs: its first pair counts. -/
def lookupIn (name : String) : List (String × α) → Option α
  | [] => none
  | (n, a) :: rest => if n = name then some a else lookupIn name rest

/-- Rebinds a name where it stands, or binds it at the end. -/
def insertIn (name : String) (value : α) : List (String × α) → List (String × α)
  | [] => [(name, value)]
  | (n, a) :: rest =>
      if n = name then (n, value) :: rest else (n, a) :: insertIn name value rest

def get? (b : Bindings α) (name : String) : Option α := lookupIn name b.entries

def insert (b : Bindings α) (name : String) (value : α) : Bindings α :=
  ⟨insertIn name value b.entries⟩

def contains (b : Bindings α) (name : String) : Bool := (b.get? name).isSome

def size (b : Bindings α) : Nat := b.entries.length

/-- The bound names, in the order of their first binding. -/
def names (b : Bindings α) : List String := b.entries.map Prod.fst

@[simp] theorem get?_empty (name : String) :
    (empty : Bindings α).get? name = none := rfl

theorem lookupIn_insertIn (name other : String) (value : α)
    (l : List (String × α)) :
    lookupIn other (insertIn name value l) =
      if name = other then some value else lookupIn other l := by
  induction l with
  | nil => simp [insertIn, lookupIn]
  | cons e rest ih =>
      obtain ⟨n, a⟩ := e
      by_cases hn : n = name <;> by_cases ho : n = other <;> grind [insertIn, lookupIn]

/-- A name is bound to what was last inserted under it. -/
theorem get?_insert (b : Bindings α) (name other : String) (value : α) :
    (b.insert name value).get? other
      = if name = other then some value else b.get? other :=
  lookupIn_insertIn name other value b.entries

@[simp] theorem get?_insert_self (b : Bindings α) (name : String) (value : α) :
    (b.insert name value).get? name = some value := by
  simp [get?_insert]

end Bindings

end MatrixLang
