import Lox.Execution.Fault
import Lox.Value

/-!
# Scopes

Bindings of names, a scope for each open block around the scope of the program. A name means its
innermost binding. The outermost scope is never left.
-/

namespace Lox

/-- The bindings of one block, each name bound once. -/
abbrev Scope := List (String × Value)

namespace Scope

def binds (scope : Scope) (name : String) : Bool := (scope.lookup name).isSome

/-- Binds a name, in place of an earlier binding if there is one. -/
def insert (scope : Scope) (name : String) (value : Value) : Scope :=
  if scope.binds name then
    scope.map fun binding => if binding.1 == name then (name, value) else binding
  else (name, value) :: scope

theorem lookup_replace (scope : Scope) (name other : String) (value : Value) :
    (scope.map fun binding => if binding.1 == name then (name, value) else binding).lookup other =
      if other = name then (scope.lookup name).map fun _ => value else scope.lookup other := by
  induction scope with
  | nil => simp
  | cons binding rest ih =>
      obtain ⟨n, v⟩ := binding
      by_cases hn : n = name
      · subst hn
        by_cases ho : other = n
        · simp [ho]
        · simp only [List.map_cons, beq_self_eq_true, ↓reduceIte, List.lookup_cons,
            show (other == n) = false from beq_false_of_ne ho]
          simpa [ho] using ih
      · by_cases ho : other = n
        · simp [ho, hn]
        · have hfalse : (other == n) = false := beq_false_of_ne ho
          simp only [List.map_cons, show (n == name) = false from beq_false_of_ne hn,
            Bool.false_eq_true, ↓reduceIte, List.lookup_cons, hfalse]
          rw [ih]
          by_cases hname : other = name
          · simp [hname, show (name == n) = false from beq_false_of_ne (Ne.symm hn)]
          · simp [hname]

/-- A name that is inserted has the new value, all others keep theirs. -/
theorem lookup_insert (scope : Scope) (name other : String) (value : Value) :
    (scope.insert name value).lookup other =
      if other = name then some value else scope.lookup other := by
  unfold insert
  split
  next h =>
    obtain ⟨old, hold⟩ := Option.isSome_iff_exists.mp h
    rw [lookup_replace, hold]
    rfl
  next h =>
    by_cases ho : other = name
    · simp [ho]
    · simp [List.lookup_cons, beq_false_of_ne ho, ho]

end Scope

structure Scopes where
  inner : Scope
  outer : List Scope

namespace Scopes

def empty : Scopes := { inner := [], outer := [] }

/-- All scopes, the innermost first. -/
def toList (s : Scopes) : List Scope := s.inner :: s.outer

def depth (s : Scopes) : Nat := s.outer.length + 1

def enter (s : Scopes) : Scopes := { inner := [], outer := s.toList }

def leave (s : Scopes) : Scopes :=
  match s.outer with
  | [] => s
  | inner :: outer => { inner, outer }

def leaveMany (s : Scopes) : Nat → Scopes
  | 0 => s
  | n + 1 => s.leave.leaveMany n

def define (s : Scopes) (name : String) (value : Value) : Scopes :=
  { s with inner := s.inner.insert name value }

/-- The value of the innermost binding of a name. -/
def get? (s : Scopes) (name : String) : Option Value :=
  s.toList.findSome? (·.lookup name)

/-- Gives a name a new value in the first of the scopes that binds it. -/
def assignIn (name : String) (value : Value) : List Scope → Option (List Scope)
  | [] => none
  | scope :: rest =>
      if scope.binds name then some (scope.insert name value :: rest)
      else (assignIn name value rest).map (scope :: ·)

def assign? (s : Scopes) (name : String) (value : Value) : Option Scopes :=
  if s.inner.binds name then some (s.define name value)
  else (assignIn name value s.outer).map fun outer => { s with outer }

def load (s : Scopes) (name : Token) : Except RuntimeError Value :=
  match s.get? name.lexeme with
  | some value => .ok value
  | none => .error ⟨name, .undefined name.lexeme⟩

def store (s : Scopes) (name : Token) (value : Value) : Except RuntimeError Scopes :=
  match s.assign? name.lexeme value with
  | some s => .ok s
  | none => .error ⟨name, .undefined name.lexeme⟩

theorem depth_pos (s : Scopes) : 0 < s.depth := Nat.succ_pos _

end Scopes

end Lox
