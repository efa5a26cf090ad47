import Lox.Syntax.Tree
import Lox.Syntax.Unfolding

/-!
# Dumping syntax trees

A tree is shown fully parenthesised, the operator first. The keyword or operator of a node is
written as it stands in the source.
-/

namespace Lox

def Expr.dumpParts : Expr → List (Tree ⊕ String)
  | literal value => [.inr value.text]
  | group inner => [.inr "(group ", .inl (.expr inner), .inr ")"]
  | unary op operand => [.inr ("(" ++ op.lexeme ++ " "), .inl (.expr operand), .inr ")"]
  | binary op left right =>
      [.inr ("(" ++ op.lexeme ++ " "), .inl (.expr left), .inr " ", .inl (.expr right), .inr ")"]
  | var name => [.inr name.lexeme]
  | assign name value => [.inr ("(= " ++ name.lexeme ++ " "), .inl (.expr value), .inr ")"]

def Stmt.dumpParts : Stmt → List (Tree ⊕ String)
  | expression expr => [.inr "(; ", .inl (.expr expr), .inr ")"]
  | print _ expr => [.inr "(print ", .inl (.expr expr), .inr ")"]
  | declare name none => [.inr ("(var " ++ name.lexeme ++ ")")]
  | declare name (some initial) =>
      [.inr ("(var " ++ name.lexeme ++ " "), .inl (.expr initial), .inr ")"]
  | block body =>
      .inr "(block" :: (body.flatMap fun s => [.inr " ", .inl (.stmt s)]) ++ [.inr ")"]

def Tree.dumpParts : Tree → List (Tree ⊕ String)
  | expr e => e.dumpParts
  | stmt s => s.dumpParts

theorem Stmt.weightOfParts_spaced (body : List Stmt) :
    weightOfParts Tree.weight (body.flatMap fun s => [(.inr " " : Tree ⊕ String), .inl (.stmt s)]) =
      Stmt.weightOfAll body := by
  induction body with
  | nil => rfl
  | cons s rest ih =>
      simp only [List.flatMap_cons, weightOfParts_append, ih, weightOfParts, Stmt.weightOfAll,
        Tree.weight]
      omega

theorem Expr.weight_dumpParts (e : Expr) : weightOfParts Tree.weight e.dumpParts < e.weight := by
  cases e <;> simp only [dumpParts, weightOfParts, Tree.weight, weight] <;> omega

theorem Stmt.weight_dumpParts (s : Stmt) : weightOfParts Tree.weight s.dumpParts < s.weight := by
  cases s with
  | expression e =>
      simp only [dumpParts, weightOfParts, Tree.weight, weight]
      omega
  | print keyword e =>
      simp only [dumpParts, weightOfParts, Tree.weight, weight]
      omega
  | declare name initial =>
      cases initial with
      | none => simp [dumpParts, weightOfParts, weight]
      | some e =>
          simp only [dumpParts, weightOfParts, Tree.weight, weight]
          omega
  | block body =>
      simp only [dumpParts, List.cons_append, weightOfParts, weightOfParts_append,
        weightOfParts_spaced, weight]
      omega

def Tree.dumping : Unfolding Tree String where
  parts := Tree.dumpParts
  weight := Tree.weight
  weight_parts
    | .expr e => e.weight_dumpParts
    | .stmt s => s.weight_dumpParts

def Tree.textOfParts (parts : List (Tree ⊕ String)) : String :=
  String.join (Tree.dumping.leaves parts)

def Expr.dump (e : Expr) : String := Tree.textOfParts [.inl (.expr e)]

def Stmt.dump (s : Stmt) : String := Tree.textOfParts [.inl (.stmt s)]

namespace Tree

@[simp] theorem textOfParts_nil : textOfParts [] = "" := by simp [textOfParts]

@[simp] theorem textOfParts_text (text : String) (rest : List (Tree ⊕ String)) :
    textOfParts (.inr text :: rest) = text ++ textOfParts rest := by
  simp [textOfParts, String.join_cons]

@[simp] theorem textOfParts_expr (e : Expr) (rest : List (Tree ⊕ String)) :
    textOfParts (.inl (.expr e) :: rest) = e.dump ++ textOfParts rest := by
  rw [textOfParts, Unfolding.leaves_cons, String.join_append]
  rfl

@[simp] theorem textOfParts_stmt (s : Stmt) (rest : List (Tree ⊕ String)) :
    textOfParts (.inl (.stmt s) :: rest) = s.dump ++ textOfParts rest := by
  rw [textOfParts, Unfolding.leaves_cons, String.join_append]
  rfl

theorem textOfParts_append (a b : List (Tree ⊕ String)) :
    textOfParts (a ++ b) = textOfParts a ++ textOfParts b := by
  simp [textOfParts, Unfolding.leaves_append, String.join_append]

end Tree

namespace Expr

theorem dump_eq (e : Expr) : e.dump = Tree.textOfParts e.dumpParts :=
  congrArg String.join (Tree.dumping.leaves_singleton _)

@[simp] theorem dump_literal (value : Value) : (literal value).dump = value.text := by
  simp [dump_eq, dumpParts]

@[simp] theorem dump_group (inner : Expr) :
    (group inner).dump = "(group " ++ (inner.dump ++ ")") := by
  simp [dump_eq (group inner), dumpParts]

@[simp] theorem dump_unary (op : Token) (operand : Expr) :
    (unary op operand).dump = "(" ++ op.lexeme ++ " " ++ (operand.dump ++ ")") := by
  simp [dump_eq (unary op operand), dumpParts]

@[simp] theorem dump_binary (op : Token) (left right : Expr) :
    (binary op left right).dump =
      "(" ++ op.lexeme ++ " " ++ (left.dump ++ (" " ++ (right.dump ++ ")"))) := by
  simp [dump_eq (binary op left right), dumpParts]

@[simp] theorem dump_var (name : Token) : (var name).dump = name.lexeme := by
  simp [dump_eq, dumpParts]

@[simp] theorem dump_assign (name : Token) (value : Expr) :
    (assign name value).dump = "(= " ++ name.lexeme ++ " " ++ (value.dump ++ ")") := by
  simp [dump_eq (assign name value), dumpParts]

end Expr

namespace Stmt

/-- Statements as they stand in a block, each behind a space. -/
def dumpSpaced (body : List Stmt) : String := String.join (body.map fun s => " " ++ s.dump)

theorem dump_eq (s : Stmt) : s.dump = Tree.textOfParts s.dumpParts :=
  congrArg String.join (Tree.dumping.leaves_singleton _)

@[simp] theorem dump_expression (e : Expr) : (expression e).dump = "(; " ++ (e.dump ++ ")") := by
  simp [dump_eq, dumpParts]

@[simp] theorem dump_print (keyword : Token) (e : Expr) :
    (print keyword e).dump = "(print " ++ (e.dump ++ ")") := by
  simp [dump_eq, dumpParts]

@[simp] theorem dump_declare_none (name : Token) :
    (declare name none).dump = "(var " ++ name.lexeme ++ ")" := by
  simp [dump_eq, dumpParts]

@[simp] theorem dump_declare_some (name : Token) (e : Expr) :
    (declare name (some e)).dump = "(var " ++ name.lexeme ++ " " ++ (e.dump ++ ")") := by
  simp [dump_eq, dumpParts]

theorem textOfParts_spaced (body : List Stmt) :
    Tree.textOfParts (body.flatMap fun s => [.inr " ", .inl (.stmt s)]) = dumpSpaced body := by
  induction body with
  | nil => simp [dumpSpaced]
  | cons s rest ih =>
      rw [List.flatMap_cons, Tree.textOfParts_append, ih]
      simp [dumpSpaced, String.join_cons]

@[simp] theorem dump_block (body : List Stmt) :
    (block body).dump = "(block" ++ (dumpSpaced body ++ ")") := by
  rw [dump_eq, dumpParts, List.cons_append, Tree.textOfParts_text, Tree.textOfParts_append,
    textOfParts_spaced]
  simp

end Stmt

end Lox
