import Lox.Proofs.Execution.Order

/-!
# Resolution of names

A name is resolved without running the program, by a walk over its trees that keeps the names of
each open block. A block has no name at first and gets those that are declared in it, each behind
its initial value.
-/

namespace Lox

/-- A name in one block of a program. Blocks are numbered in the order in which they open, and `0`
stands for the program around them. -/
structure Slot where
  block : Nat
  name : String
deriving DecidableEq

structure NameSet where
  block : Nat
  names : List String

namespace NameSet

def slot (set : NameSet) (name : String) : Slot := { block := set.block, name }

def add (set : NameSet) (name : String) : NameSet := { set with names := set.names.insert name }

end NameSet

/-- The innermost set with a name decides. -/
def resolveIn (name : String) : List NameSet → Option Slot
  | [] => none
  | set :: rest => if name ∈ set.names then some (set.slot name) else resolveIn name rest

/-- The names of the open blocks, and how many blocks have been opened. -/
structure Resolver where
  inner : NameSet
  outer : List NameSet
  blocks : Nat

namespace Resolver

def ofNames (names : List String) : Resolver :=
  { inner := { block := 0, names }, outer := [], blocks := 0 }

def sets (r : Resolver) : List NameSet := r.inner :: r.outer

def resolve (r : Resolver) (name : Token) : Option Slot := resolveIn name.lexeme r.sets

def declare (r : Resolver) (name : Token) : Resolver := { r with inner := r.inner.add name.lexeme }

def push (r : Resolver) : Resolver :=
  { inner := { block := r.blocks + 1, names := [] }, outer := r.sets, blocks := r.blocks + 1 }

def pop (r : Resolver) : Resolver :=
  match r.outer with
  | [] => r
  | inner :: outer => { r with inner, outer }

end Resolver

/-- The steps of an expression, and the slots of the names that they look up. -/
def Expr.resolved (r : Resolver) : Expr → List (Step × Option Slot)
  | literal value => [(.push value, none)]
  | group inner => inner.resolved r
  | unary op operand => operand.resolved r ++ [(.unary op, none)]
  | binary op left right => left.resolved r ++ (right.resolved r ++ [(.binary op, none)])
  | var name => [(.load name, r.resolve name)]
  | assign name value => value.resolved r ++ [(.store name, r.resolve name)]

mutual

/-- The steps of a statement with their slots, and the names behind it. -/
def Stmt.resolved (r : Resolver) : Stmt → List (Step × Option Slot) × Resolver
  | .expression e => (e.resolved r ++ [(.drop, none)], r)
  | .print keyword e => (e.resolved r ++ [(.print keyword, none)], r)
  | .declare name none =>
      ([(.push .nil, none), (.define name, some (r.inner.slot name.lexeme))], r.declare name)
  | .declare name (some e) =>
      (e.resolved r ++ [(.define name, some (r.inner.slot name.lexeme))], r.declare name)
  | .block body =>
      let inside := Stmt.resolvedAll r.push body
      ((.enter, none) :: (inside.1 ++ [(.leave, none)]), inside.2.pop)

def Stmt.resolvedAll (r : Resolver) : List Stmt → List (Step × Option Slot) × Resolver
  | [] => ([], r)
  | s :: program =>
      let first := s.resolved r
      let rest := Stmt.resolvedAll first.2 program
      (first.1 ++ rest.1, rest.2)

end

/-! ## The walk along the steps -/

namespace Resolver

def after (r : Resolver) : Step → Resolver
  | .define name => r.declare name
  | .enter => r.push
  | .leave => r.pop
  | _ => r

def slot? (r : Resolver) : Step → Option Slot
  | .load name | .store name => r.resolve name
  | .define name => some (r.inner.slot name.lexeme)
  | _ => none

@[simp] theorem slot?_load (r : Resolver) (name : Token) : r.slot? (.load name) = r.resolve name :=
  rfl

@[simp] theorem slot?_store (r : Resolver) (name : Token) :
    r.slot? (.store name) = r.resolve name := rfl

def walk (r : Resolver) : List Step → List (Step × Option Slot)
  | [] => []
  | step :: rest => (step, r.slot? step) :: (r.after step).walk rest

@[simp] theorem walk_nil (r : Resolver) : r.walk [] = [] := rfl

@[simp] theorem walk_cons (r : Resolver) (step : Step) (rest : List Step) :
    r.walk (step :: rest) = (step, r.slot? step) :: (r.after step).walk rest := rfl

theorem walk_append (r : Resolver) (front rest : List Step) :
    r.walk (front ++ rest) = r.walk front ++ (front.foldl after r).walk rest := by
  induction front generalizing r with
  | nil => rfl
  | cons step front ih => rw [List.cons_append, walk_cons, walk_cons, ih]; rfl

@[simp] theorem map_fst_walk (r : Resolver) (steps : List Step) :
    (r.walk steps).map Prod.fst = steps := by
  induction steps generalizing r with
  | nil => rfl
  | cons step rest ih => rw [walk_cons, List.map_cons, ih]

/-- A step behind others has the slot that they leave it. -/
theorem walk_eq_append {r : Resolver} {steps : List Step} {front rest : List (Step × Option Slot)}
    {step : Step} {slot? : Option Slot} (h : r.walk steps = front ++ (step, slot?) :: rest) :
    steps = front.map Prod.fst ++ step :: rest.map Prod.fst ∧
      r.walk (front.map Prod.fst) = front ∧
        slot? = ((front.map Prod.fst).foldl after r).slot? step := by
  induction front generalizing r steps with
  | nil =>
      cases steps with
      | nil => cases h
      | cons first steps =>
          cases h
          simp
  | cons pair front ih =>
      cases steps with
      | nil => cases h
      | cons first steps =>
          rw [walk_cons, List.cons_append, List.cons.injEq] at h
          obtain ⟨rfl, htail⟩ := h
          obtain ⟨hsteps, hfront, hslot⟩ := ih htail
          exact ⟨congrArg (first :: ·) hsteps, congrArg (_ :: ·) hfront, hslot⟩

end Resolver

namespace Expr

theorem foldl_after_postOrder (r : Resolver) (e : Expr) :
    e.postOrder.foldl Resolver.after r = r := by
  induction e with
  | literal value | var name => rfl
  | group inner ih => exact ih
  | unary op operand ih | assign name operand ih =>
      rw [postOrder, List.foldl_append, ih]
      rfl
  | binary op left right ihl ihr =>
      rw [postOrder, List.foldl_append, List.foldl_append, ihl, ihr]
      rfl

theorem resolved_eq_walk (r : Resolver) (e : Expr) : e.resolved r = r.walk e.postOrder := by
  induction e with
  | literal value | var name => rfl
  | group inner ih => exact ih
  | unary op operand ih | assign name operand ih =>
      rw [resolved, postOrder, Resolver.walk_append, ih, foldl_after_postOrder]
      rfl
  | binary op left right ihl ihr =>
      rw [resolved, postOrder, Resolver.walk_append, Resolver.walk_append, ihl, ihr,
        foldl_after_postOrder, foldl_after_postOrder]
      rfl

end Expr

namespace Stmt

mutual

theorem resolved_eq_walk (r : Resolver) (s : Stmt) :
    s.resolved r = (r.walk s.postOrder, s.postOrder.foldl Resolver.after r) := by
  match s with
  | .expression e | .print _ e | .declare _ (some e) =>
      rw [resolved, postOrder, Resolver.walk_append, List.foldl_append, e.resolved_eq_walk,
        e.foldl_after_postOrder]
      rfl
  | .declare name none => rfl
  | .block body =>
      rw [resolved, postOrder, Resolver.walk_cons, List.foldl_cons, Resolver.walk_append,
        List.foldl_append]
      rw [resolvedAll_eq_walk r.push body]
      rfl

theorem resolvedAll_eq_walk (r : Resolver) (program : List Stmt) :
    resolvedAll r program =
      (r.walk (postOrderAll program), (postOrderAll program).foldl Resolver.after r) := by
  match program with
  | [] => rfl
  | s :: program =>
      rw [resolvedAll, postOrderAll, Resolver.walk_append, List.foldl_append]
      rw [resolved_eq_walk r s, resolvedAll_eq_walk _ program]

end

end Stmt

/-- The initial value of `var a = a;` in a block still means the name around it. -/
example :
    let a : Token := .plain .identifier "a" 1
    let word : Token := .plain (.keyword .printWord) "print" 1
    let body : List Stmt := [.print word (.var a), .declare a (some (.var a)), .print word (.var a)]
    (Stmt.resolvedAll (.ofNames ["a"]) [.block body]).1.map Prod.snd =
      [none, some ⟨0, "a"⟩, none, some ⟨0, "a"⟩, some ⟨1, "a"⟩, some ⟨1, "a"⟩, none, none] := by
  decide

end Lox
