import Lox.Syntax.Tree
import Lox.Syntax.Unfolding

/-!
# Steps of a program

A program runs as a list of steps on a stack of operands. The steps of the operands of a node come
before its own step, from left to right; those of a block stand between entering and leaving it.
-/

namespace Lox

inductive Step where
  | push (value : Value)
  | load (name : Token)
  /-- Gives a name the value on top, which stays there. -/
  | store (name : Token)
  | unary (op : Token)
  | binary (op : Token)
  | drop
  | print (keyword : Token)
  | define (name : Token)
  | enter
  | leave

def Expr.stepParts : Expr → List (Tree ⊕ Step)
  | literal value => [.inr (.push value)]
  | group inner => [.inl (.expr inner)]
  | unary op operand => [.inl (.expr operand), .inr (.unary op)]
  | binary op left right => [.inl (.expr left), .inl (.expr right), .inr (.binary op)]
  | var name => [.inr (.load name)]
  | assign name value => [.inl (.expr value), .inr (.store name)]

def Stmt.stepParts : Stmt → List (Tree ⊕ Step)
  | expression expr => [.inl (.expr expr), .inr .drop]
  | print keyword expr => [.inl (.expr expr), .inr (.print keyword)]
  | declare name none => [.inr (.push .nil), .inr (.define name)]
  | declare name (some initial) => [.inl (.expr initial), .inr (.define name)]
  | block body => .inr .enter :: (body.map fun s => .inl (.stmt s)) ++ [.inr .leave]

def Tree.stepParts : Tree → List (Tree ⊕ Step)
  | expr e => e.stepParts
  | stmt s => s.stepParts

theorem Stmt.weightOfParts_map_le (body : List Stmt) :
    weightOfParts Tree.weight (body.map fun s => (.inl (.stmt s) : Tree ⊕ Step)) ≤
      Stmt.weightOfAll body := by
  induction body with
  | nil => exact Nat.le_refl _
  | cons s rest ih =>
      simp only [List.map_cons, weightOfParts, Tree.weight, Stmt.weightOfAll]
      omega

theorem Expr.weight_stepParts (e : Expr) : weightOfParts Tree.weight e.stepParts < e.weight := by
  cases e <;> simp only [stepParts, weightOfParts, Tree.weight, weight] <;> omega

theorem Stmt.weight_stepParts (s : Stmt) : weightOfParts Tree.weight s.stepParts < s.weight := by
  cases s with
  | expression e => simp [stepParts, weightOfParts, Tree.weight, weight]
  | print keyword e => simp [stepParts, weightOfParts, Tree.weight, weight]
  | declare name initial =>
      cases initial <;> simp [stepParts, weightOfParts, Tree.weight, weight]
  | block body =>
      have h := weightOfParts_map_le body
      simp only [stepParts, List.cons_append, weightOfParts, weightOfParts_append, weight]
      omega

def Tree.stepping : Unfolding Tree Step where
  parts := Tree.stepParts
  weight := Tree.weight
  weight_parts
    | .expr e => e.weight_stepParts
    | .stmt s => s.weight_stepParts

def Expr.steps (e : Expr) : List Step := Tree.stepping.leaves [.inl (.expr e)]

def Stmt.steps (s : Stmt) : List Step := Tree.stepping.leaves [.inl (.stmt s)]

def Stmt.stepsOfAll (program : List Stmt) : List Step :=
  Tree.stepping.leaves (program.map fun s => .inl (.stmt s))

theorem Tree.stepping_leaves_expr (e : Expr) (rest : List (Tree ⊕ Step)) :
    Tree.stepping.leaves (.inl (.expr e) :: rest) = e.steps ++ Tree.stepping.leaves rest :=
  Tree.stepping.leaves_cons _ _

theorem Tree.stepping_leaves_stmt (s : Stmt) (rest : List (Tree ⊕ Step)) :
    Tree.stepping.leaves (.inl (.stmt s) :: rest) = s.steps ++ Tree.stepping.leaves rest :=
  Tree.stepping.leaves_cons _ _

namespace Expr

theorem steps_eq (e : Expr) : e.steps = Tree.stepping.leaves e.stepParts :=
  Tree.stepping.leaves_singleton _

@[simp] theorem steps_literal (value : Value) : (literal value).steps = [.push value] := by
  simp [steps_eq, stepParts]

@[simp] theorem steps_group (inner : Expr) : (group inner).steps = inner.steps := by
  simp [steps_eq (group inner), stepParts, Tree.stepping_leaves_expr]

@[simp] theorem steps_unary (op : Token) (operand : Expr) :
    (unary op operand).steps = operand.steps ++ [.unary op] := by
  simp [steps_eq (unary op operand), stepParts, Tree.stepping_leaves_expr]

@[simp] theorem steps_binary (op : Token) (left right : Expr) :
    (binary op left right).steps = left.steps ++ (right.steps ++ [.binary op]) := by
  simp [steps_eq (binary op left right), stepParts, Tree.stepping_leaves_expr]

@[simp] theorem steps_var (name : Token) : (var name).steps = [.load name] := by
  simp [steps_eq, stepParts]

@[simp] theorem steps_assign (name : Token) (value : Expr) :
    (assign name value).steps = value.steps ++ [.store name] := by
  simp [steps_eq (assign name value), stepParts, Tree.stepping_leaves_expr]

end Expr

namespace Stmt

@[simp] theorem stepsOfAll_nil : stepsOfAll [] = [] := Tree.stepping.leaves_nil

@[simp] theorem stepsOfAll_cons (s : Stmt) (rest : List Stmt) :
    stepsOfAll (s :: rest) = s.steps ++ stepsOfAll rest :=
  Tree.stepping_leaves_stmt _ _

theorem steps_eq (s : Stmt) : s.steps = Tree.stepping.leaves s.stepParts :=
  Tree.stepping.leaves_singleton _

@[simp] theorem steps_expression (e : Expr) : (expression e).steps = e.steps ++ [.drop] := by
  simp [steps_eq, stepParts, Tree.stepping_leaves_expr]

@[simp] theorem steps_print (keyword : Token) (e : Expr) :
    (print keyword e).steps = e.steps ++ [.print keyword] := by
  simp [steps_eq, stepParts, Tree.stepping_leaves_expr]

@[simp] theorem steps_declare_none (name : Token) :
    (declare name none).steps = [.push .nil, .define name] := by
  simp [steps_eq, stepParts]

@[simp] theorem steps_declare_some (name : Token) (e : Expr) :
    (declare name (some e)).steps = e.steps ++ [.define name] := by
  simp [steps_eq, stepParts, Tree.stepping_leaves_expr]

@[simp] theorem steps_block (body : List Stmt) :
    (block body).steps = .enter :: (stepsOfAll body ++ [.leave]) := by
  simp [steps_eq, stepParts, stepsOfAll, Unfolding.leaves_append]

end Stmt

end Lox
