import Lox.Syntax.Program

/-!
# Derivations

The grammar of programs. A derivation spells a list of tokens and builds a tree. Expressions have
the levels `0` expression, `1` equality, `2` comparison, `3` term, `4` factor, `5` unary and
`6` primary. At most one derivation spells given tokens and builds a given tree.
-/

namespace Lox

abbrev Terminal (kind : Kind) := { token : Token // token.kind = kind }

def Kind.operatorsAt : Nat → List Kind
  | 1 => [.bangEqual, .equalEqual]
  | 2 => [.greater, .greaterEqual, .less, .lessEqual]
  | 3 => [.minus, .plus]
  | 4 => [.slash, .star]
  | _ => []

theorem Kind.precedence_lt (kind : Kind) : kind.precedence < 5 := by
  cases kind <;> simp [precedence]

theorem Kind.mem_operatorsAt_iff {kind : Kind} {level : Nat} :
    kind ∈ operatorsAt level ↔ level ≠ 0 ∧ kind.precedence = level := by
  unfold operatorsAt
  split
  · cases kind <;> simp [precedence]
  · cases kind <;> simp [precedence]
  · cases kind <;> simp [precedence]
  · cases kind <;> simp [precedence]
  next h₁ h₂ h₃ h₄ =>
    constructor
    · intro h
      cases h
    rintro ⟨hne, hlevel⟩
    have hlt := kind.precedence_lt
    obtain _ | _ | _ | _ | _ | level := level
    · exact absurd rfl hne
    · exact absurd rfl h₁
    · exact absurd rfl h₂
    · exact absurd rfl h₃
    · exact absurd rfl h₄
    · omega

/-- What a token is as an operand of its own. -/
inductive Token.Denotes (token : Token) : Expr → Prop
  | yes (h : token.kind = .keyword .trueWord) : Denotes token (.literal (.boolean true))
  | no (h : token.kind = .keyword .falseWord) : Denotes token (.literal (.boolean false))
  | nothing (h : token.kind = .keyword .nilWord) : Denotes token (.literal .nil)
  | constant (value : Literal) (h : token.kind = .number ∨ token.kind = .string)
      (hvalue : token.literal = some value) : Denotes token (.literal (.ofLiteral value))
  | name (h : token.kind = .identifier) : Denotes token (.var token)

theorem Token.operand?_eq_some_iff {token : Token} {e : Expr} :
    token.operand? = some e ↔ token.Denotes e := by
  constructor
  · intro h
    rw [operand?] at h
    split at h
    next hkind => exact Option.some.inj h ▸ .yes hkind
    next hkind => exact Option.some.inj h ▸ .no hkind
    next hkind => exact Option.some.inj h ▸ .nothing hkind
    next hkind =>
      obtain ⟨value, hvalue, rfl⟩ := Option.map_eq_some_iff.mp h
      exact .constant value (.inl hkind) hvalue
    next hkind =>
      obtain ⟨value, hvalue, rfl⟩ := Option.map_eq_some_iff.mp h
      exact .constant value (.inr hkind) hvalue
    next hkind => exact Option.some.inj h ▸ .name hkind
    · simp at h
  · intro h
    cases h with
    | yes h => simp [operand?, h]
    | no h => simp [operand?, h]
    | nothing h => simp [operand?, h]
    | constant value h hvalue => rcases h with h | h <;> simp [operand?, h, hvalue]
    | name h => simp [operand?, h]

/-- The derivations of expressions at a level. -/
inductive Phrase : Nat → Type
  | assignment (name : Terminal .identifier) (equals : Terminal .equal) (value : Phrase 0) :
      Phrase 0
  | chain {n : Nat} (left : Phrase n) (op : { token : Token // token.kind ∈ Kind.operatorsAt n })
      (right : Phrase (n + 1)) : Phrase n
  | unary (op : { token : Token // token.kind = .bang ∨ token.kind = .minus })
      (operand : Phrase 5) : Phrase 5
  | group (opening : Terminal .leftParen) (inner : Phrase 0) (closing : Terminal .rightParen) :
      Phrase 6
  | atom {e : Expr} (token : Token) (h : token.Denotes e) : Phrase 6
  /-- A phrase of the next level. -/
  | tighter {n : Nat} (phrase : Phrase (n + 1)) : Phrase n

/-- The derivations of declarations. -/
inductive Declaration
  | bare (word : Terminal (.keyword .varWord)) (name : Terminal .identifier)
      (semicolon : Terminal .semicolon)
  | initialized (word : Terminal (.keyword .varWord)) (name : Terminal .identifier)
      (equals : Terminal .equal) (initial : Phrase 0) (semicolon : Terminal .semicolon)
  | print (word : Terminal (.keyword .printWord)) (value : Phrase 0)
      (semicolon : Terminal .semicolon)
  | block (opening : Terminal .leftBrace) (body : List Declaration)
      (closing : Terminal .rightBrace)
  | expression (value : Phrase 0) (semicolon : Terminal .semicolon)

/-! ## Spelling and trees -/

namespace Phrase

def tokens {n : Nat} : Phrase n → List Token
  | assignment name equals value => name.1 :: equals.1 :: value.tokens
  | chain left op right => left.tokens ++ op.1 :: right.tokens
  | unary op operand => op.1 :: operand.tokens
  | group opening inner closing => opening.1 :: (inner.tokens ++ [closing.1])
  | atom token _ => [token]
  | tighter phrase => phrase.tokens

def expr {n : Nat} : Phrase n → Expr
  | assignment name _ value => .assign name.1 value.expr
  | chain left op right => .binary op.1 left.expr right.expr
  | unary op operand => .unary op.1 operand.expr
  | group _ inner _ => .group inner.expr
  | @atom e _ _ => e
  | tighter phrase => phrase.expr

end Phrase

mutual

def Declaration.tokens : Declaration → List Token
  | .bare word name semicolon => [word.1, name.1, semicolon.1]
  | .initialized word name equals initial semicolon =>
      word.1 :: name.1 :: equals.1 :: (initial.tokens ++ [semicolon.1])
  | .print word value semicolon => word.1 :: (value.tokens ++ [semicolon.1])
  | .block opening body closing => opening.1 :: (Declaration.tokensOfAll body ++ [closing.1])
  | .expression value semicolon => value.tokens ++ [semicolon.1]

def Declaration.tokensOfAll : List Declaration → List Token
  | [] => []
  | d :: rest => d.tokens ++ Declaration.tokensOfAll rest

end

mutual

def Declaration.stmt : Declaration → Stmt
  | .bare _ name _ => .declare name.1 none
  | .initialized _ name _ initial _ => .declare name.1 (some initial.expr)
  | .print word value _ => .print word.1 value.expr
  | .block _ body _ => .block (Declaration.stmtsOfAll body)
  | .expression value _ => .expression value.expr

def Declaration.stmtsOfAll : List Declaration → List Stmt
  | [] => []
  | d :: rest => d.stmt :: Declaration.stmtsOfAll rest

end

/-! ## Levels -/

/-- The tightest level at which a tree can be derived. -/
def Expr.level : Expr → Nat
  | assign _ _ => 0
  | binary op _ _ => op.kind.precedence
  | unary _ _ => 5
  | group _ | var _ | literal _ => 6

namespace Phrase

theorem precedence_of_mem {n : Nat} (op : { token : Token // token.kind ∈ Kind.operatorsAt n }) :
    op.1.kind.precedence = n :=
  (Kind.mem_operatorsAt_iff.mp op.2).2

theorem level_binary_le {n : Nat} (op : { token : Token // token.kind ∈ Kind.operatorsAt n })
    (left right : Expr) : (Expr.binary op.1 left right).level ≤ n :=
  Nat.le_of_eq (precedence_of_mem op)

theorem le_level_expr {n : Nat} (d : Phrase n) : n ≤ d.expr.level := by
  induction d with
  | assignment => exact Nat.zero_le _
  | chain left op right => exact Nat.le_of_eq (precedence_of_mem op).symm
  | unary | group => exact Nat.le_refl _
  | atom token h => cases h <;> exact Nat.le_refl _
  | tighter phrase ih => exact Nat.le_of_succ_le ih

end Phrase

/-! ## Unambiguity -/

def Expr.width : Expr → Nat
  | literal _ => 1
  | group inner => inner.width + 2
  | unary _ operand => operand.width + 1
  | binary _ left right => left.width + 1 + right.width
  | var _ => 1
  | assign _ value => value.width + 2

namespace Phrase

theorem length_tokens {n : Nat} (d : Phrase n) : d.tokens.length = d.expr.width := by
  induction d with
  | assignment name equals value ih => simp [tokens, expr, Expr.width, ih]
  | chain left op right ihl ihr =>
      simp [tokens, expr, Expr.width, ihl, ihr, Nat.add_assoc, Nat.add_comm 1]
  | unary op operand ih => simp [tokens, expr, Expr.width, ih]
  | group opening inner closing ih => simp [tokens, expr, Expr.width, ih]
  | atom token h => cases h <;> rfl
  | tighter phrase ih => exact ih

theorem length_tokens_eq {n : Nat} {c d : Phrase n} (h : c.expr = d.expr) :
    c.tokens.length = d.tokens.length := by
  rw [length_tokens, length_tokens, h]

/-- A phrase of the next level builds no tree whose level is the current one. -/
theorem expr_tighter_ne {n : Nat} (d : Phrase (n + 1)) {e : Expr} (h : e.level ≤ n) :
    d.expr ≠ e := by
  intro heq
  have hle := d.le_level_expr
  rw [heq] at hle
  omega

theorem eq_of_expr_eq {n : Nat} (c d : Phrase n) (hexpr : c.expr = d.expr)
    (htokens : c.tokens = d.tokens) : c = d := by
  induction c with
  | assignment name equals value ih =>
      cases d with
      | assignment name' equals' value' =>
          simp only [expr, Expr.assign.injEq] at hexpr
          simp only [tokens, List.cons.injEq] at htokens
          rw [ih value' hexpr.2 htokens.2.2, Subtype.ext htokens.1, Subtype.ext htokens.2.1]
      | chain left op right => simp [expr] at hexpr
      | tighter d =>
          apply absurd hexpr.symm
          exact d.expr_tighter_ne (Nat.le_refl _)
  | @chain n left op right ihl ihr =>
      cases d with
      | assignment name equals value => simp [expr] at hexpr
      | chain left' op' right' =>
          simp only [expr, Expr.binary.injEq] at hexpr
          obtain ⟨hop, hl, hr⟩ := hexpr
          obtain ⟨htl, htr⟩ := List.append_inj htokens (length_tokens_eq hl)
          rw [ihl left' hl htl, ihr right' hr (List.cons.inj htr).2, Subtype.ext hop]
      | unary op' operand => simp [expr] at hexpr
      | group opening inner closing => simp [expr] at hexpr
      | atom token h => cases h <;> simp [expr] at hexpr
      | tighter d =>
          apply absurd hexpr.symm
          exact d.expr_tighter_ne (level_binary_le op _ _)
  | unary op operand ih =>
      cases d with
      | chain left op' right => simp [expr] at hexpr
      | unary op' operand' =>
          simp only [expr, Expr.unary.injEq] at hexpr
          rw [ih operand' hexpr.2 (List.cons.inj htokens).2, Subtype.ext hexpr.1]
      | tighter d =>
          apply absurd hexpr.symm
          exact d.expr_tighter_ne (Nat.le_refl _)
  | group opening inner closing ih =>
      cases d with
      | chain left op right => simp [expr] at hexpr
      | group opening' inner' closing' =>
          simp only [expr, Expr.group.injEq] at hexpr
          obtain ⟨hopening, hrest⟩ := List.cons.inj htokens
          obtain ⟨hinner, hclosing⟩ := List.append_inj hrest (length_tokens_eq hexpr)
          rw [ih inner' hexpr hinner, Subtype.ext hopening,
            Subtype.ext (List.cons.inj hclosing).1]
      | atom token h => cases h <;> simp [expr] at hexpr
      | tighter d =>
          apply absurd hexpr.symm
          exact d.expr_tighter_ne (Nat.le_refl _)
  | atom token h =>
      cases d with
      | chain left op right => cases h <;> simp [expr] at hexpr
      | group opening inner closing => cases h <;> simp [expr] at hexpr
      | atom token' h' =>
          obtain rfl := (List.cons.inj htokens).1
          cases hexpr
          rfl
      | tighter d =>
          apply absurd hexpr.symm
          apply d.expr_tighter_ne
          cases h <;> exact Nat.le_refl _
  | tighter c ih =>
      cases d with
      | assignment name equals value =>
          apply absurd hexpr
          exact c.expr_tighter_ne (Nat.le_refl _)
      | chain left op right =>
          apply absurd hexpr
          exact c.expr_tighter_ne (level_binary_le op _ _)
      | unary op operand =>
          apply absurd hexpr
          exact c.expr_tighter_ne (Nat.le_refl _)
      | group opening inner closing =>
          apply absurd hexpr
          exact c.expr_tighter_ne (Nat.le_refl _)
      | atom token h =>
          apply absurd hexpr
          apply c.expr_tighter_ne
          cases h <;> exact Nat.le_refl _
      | tighter d => rw [ih d hexpr htokens]

end Phrase

mutual

def Stmt.width : Stmt → Nat
  | .expression e => e.width + 1
  | .print _ e => e.width + 2
  | .declare _ none => 3
  | .declare _ (some e) => e.width + 4
  | .block body => Stmt.widthOfAll body + 2

def Stmt.widthOfAll : List Stmt → Nat
  | [] => 0
  | s :: rest => s.width + Stmt.widthOfAll rest

end

namespace Declaration

mutual

theorem length_tokens (d : Declaration) : d.tokens.length = d.stmt.width := by
  match d with
  | .bare word name semicolon => rfl
  | .initialized word name equals initial semicolon =>
      simp [tokens, stmt, Stmt.width, initial.length_tokens]
  | .print word value semicolon => simp [tokens, stmt, Stmt.width, value.length_tokens]
  | .block opening body closing =>
      simp [tokens, stmt, Stmt.width, length_tokensOfAll body]
  | .expression value semicolon => simp [tokens, stmt, Stmt.width, value.length_tokens]

theorem length_tokensOfAll (p : List Declaration) :
    (tokensOfAll p).length = Stmt.widthOfAll (stmtsOfAll p) := by
  match p with
  | [] => rfl
  | d :: rest =>
      simp [tokensOfAll, stmtsOfAll, Stmt.widthOfAll, length_tokens d, length_tokensOfAll rest]

end

theorem length_tokens_eq {c d : Declaration} (h : c.stmt = d.stmt) :
    c.tokens.length = d.tokens.length := by
  rw [length_tokens, length_tokens, h]

mutual

theorem eq_of_stmt_eq (c d : Declaration) (hstmt : c.stmt = d.stmt)
    (htokens : c.tokens = d.tokens) : c = d := by
  match c with
  | .bare word name semicolon =>
      cases d with
      | bare word' name' semicolon' =>
          simp only [tokens, List.cons.injEq] at htokens
          rw [Subtype.ext htokens.1, Subtype.ext htokens.2.1, Subtype.ext htokens.2.2.1]
      | _ => simp [stmt] at hstmt
  | .initialized word name equals initial semicolon =>
      cases d with
      | initialized word' name' equals' initial' semicolon' =>
          simp only [stmt, Stmt.declare.injEq, Option.some.injEq] at hstmt
          simp only [tokens, List.cons.injEq] at htokens
          obtain ⟨hword, hname, hequals, hrest⟩ := htokens
          obtain ⟨hinitial, hend⟩ := List.append_inj hrest (Phrase.length_tokens_eq hstmt.2)
          rw [Phrase.eq_of_expr_eq initial initial' hstmt.2 hinitial, Subtype.ext hword,
            Subtype.ext hname, Subtype.ext hequals, Subtype.ext (List.cons.inj hend).1]
      | _ => simp [stmt] at hstmt
  | .print word value semicolon =>
      cases d with
      | print word' value' semicolon' =>
          simp only [stmt, Stmt.print.injEq] at hstmt
          obtain ⟨hword, hrest⟩ := List.cons.inj htokens
          obtain ⟨hvalue, hend⟩ := List.append_inj hrest (Phrase.length_tokens_eq hstmt.2)
          rw [Phrase.eq_of_expr_eq value value' hstmt.2 hvalue, Subtype.ext hword,
            Subtype.ext (List.cons.inj hend).1]
      | _ => simp [stmt] at hstmt
  | .block opening body closing =>
      cases d with
      | block opening' body' closing' =>
          simp only [stmt, Stmt.block.injEq] at hstmt
          obtain ⟨hopening, hrest⟩ := List.cons.inj htokens
          have hlength : (tokensOfAll body).length = (tokensOfAll body').length := by
            rw [length_tokensOfAll, length_tokensOfAll, hstmt]
          obtain ⟨hbody, hclosing⟩ := List.append_inj hrest hlength
          rw [eq_of_stmtsOfAll_eq body body' hstmt hbody, Subtype.ext hopening,
            Subtype.ext (List.cons.inj hclosing).1]
      | _ => simp [stmt] at hstmt
  | .expression value semicolon =>
      cases d with
      | expression value' semicolon' =>
          simp only [stmt, Stmt.expression.injEq] at hstmt
          obtain ⟨hvalue, hend⟩ := List.append_inj htokens (Phrase.length_tokens_eq hstmt)
          rw [Phrase.eq_of_expr_eq value value' hstmt hvalue,
            Subtype.ext (List.cons.inj hend).1]
      | _ => simp [stmt] at hstmt

theorem eq_of_stmtsOfAll_eq (p q : List Declaration) (hstmts : stmtsOfAll p = stmtsOfAll q)
    (htokens : tokensOfAll p = tokensOfAll q) : p = q := by
  match p with
  | [] =>
      cases q with
      | nil => rfl
      | cons d q => simp [stmtsOfAll] at hstmts
  | c :: p =>
      cases q with
      | nil => simp [stmtsOfAll] at hstmts
      | cons d q =>
          obtain ⟨hstmt, hrest⟩ := List.cons.inj hstmts
          obtain ⟨hc, hp⟩ := List.append_inj htokens (length_tokens_eq hstmt)
          rw [eq_of_stmt_eq c d hstmt hc, eq_of_stmtsOfAll_eq p q hrest hp]

end

end Declaration

end Lox
