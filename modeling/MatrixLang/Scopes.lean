import MatrixLang.Bindings

/-!
# Nested scopes

A stack of named scopes over one that is never taken away. Names are looked up
from the innermost scope outwards. There are two ways to write a name: `define`
always writes the innermost scope, `assign` overwrites the binding that a look
up would find. The checker keeps its symbols in such a stack and the running
program its variables; neither opens a scope for a block, a branch or a loop.
-/

namespace MatrixLang

/-- One level of bindings. -/
structure Scope (α : Type) where
  name : String
  bindings : Bindings α
deriving Repr

/-- The scopes, innermost first, over the outermost one. That there is one is
part of the type. -/
structure Scopes (α : Type) where
  inner : List (Scope α)
  outermost : Scope α
deriving Repr

namespace Scope

variable {α : Type}

def empty (name : String) : Scope α := ⟨name, .empty⟩

def get? (s : Scope α) (name : String) : Option α := s.bindings.get? name

def insert (s : Scope α) (name : String) (value : α) : Scope α :=
  { s with bindings := s.bindings.insert name value }

def contains (s : Scope α) (name : String) : Bool := s.bindings.contains name

def size (s : Scope α) : Nat := s.bindings.size

end Scope

namespace Scopes

variable {α : Type}

def empty (name : String) : Scopes α := ⟨[], .empty name⟩

def toList (s : Scopes α) : List (Scope α) := s.inner ++ [s.outermost]

def depth (s : Scopes α) : Nat := s.inner.length + 1

/-! ## Looking up -/

def lookupIn (name : String) : List (Scope α) → Option α
  | [] => none
  | s :: rest =>
      match s.get? name with
      | some a => some a
      | none => lookupIn name rest

/-- What a name means here: the innermost binding counts. -/
def get? (s : Scopes α) (name : String) : Option α := lookupIn name s.toList

def innermost (s : Scopes α) : Scope α := s.inner.headD s.outermost

def enclosing? (s : Scopes α) : Option (Scope α) :=
  match s.inner with
  | [] => none
  | _ :: rest => some (rest.headD s.outermost)

/-! ## Writing -/

/-- Binds a name in the innermost scope, whatever it means further out. -/
def define (s : Scopes α) (name : String) (value : α) : Scopes α :=
  match s.inner with
  | [] => { s with outermost := s.outermost.insert name value }
  | top :: rest => { s with inner := top.insert name value :: rest }

def overwriteIn (name : String) (value : α) :
    List (Scope α) → Option (List (Scope α))
  | [] => none
  | s :: rest =>
      if s.contains name then some (s.insert name value :: rest)
      else (overwriteIn name value rest).map (s :: ·)

def overwrite? (s : Scopes α) (name : String) (value : α) : Option (Scopes α) :=
  match overwriteIn name value s.inner with
  | some inner => some { s with inner := inner }
  | none =>
      if s.outermost.contains name then
        some { s with outermost := s.outermost.insert name value }
      else none

/-- Overwrites the innermost binding of a name; a name bound nowhere is bound in
the innermost scope. -/
def assign (s : Scopes α) (name : String) (value : α) : Scopes α :=
  (s.overwrite? name value).getD (s.define name value)

/-! ## Opening and closing -/

def push (s : Scopes α) (scope : Scope α) : Scopes α :=
  { s with inner := scope :: s.inner }

/-- Takes the innermost scope away, but never the outermost one. -/
def pop (s : Scopes α) : Option (Scope α × Scopes α) :=
  match s.inner with
  | [] => none
  | top :: rest => some (top, { s with inner := rest })

/-! ## First laws -/

@[simp] theorem length_toList (s : Scopes α) : s.toList.length = s.depth := by
  simp [toList, depth]

@[simp] theorem pop_push (s : Scopes α) (scope : Scope α) :
    (s.push scope).pop = some (scope, s) := rfl

theorem get?_define_self (s : Scopes α) (name : String) (value : α) :
    (s.define name value).get? name = some value := by
  cases h : s.inner <;>
    simp [define, get?, toList, lookupIn, Scope.get?, Scope.insert, h]

end Scopes

end MatrixLang
