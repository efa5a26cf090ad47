import Lox.Proofs.Grammar.Context

/-!
# Accepted programs

A token list is read without an error exactly if it derives from the grammar, and then the program
that is read is the tree of its only derivation.
-/

namespace Lox

/-! ## Programs -/

namespace Declaration

theorem tokensOfAll_append (p q : List Declaration) :
    tokensOfAll (p ++ q) = tokensOfAll p ++ tokensOfAll q := by
  induction p with
  | nil => rfl
  | cons d p ih => simp [tokensOfAll, ih]

theorem stmtsOfAll_append (p q : List Declaration) :
    stmtsOfAll (p ++ q) = stmtsOfAll p ++ stmtsOfAll q := by
  induction p with
  | nil => rfl
  | cons d p ih => simp [stmtsOfAll, ih]

theorem tokensOfAll_snoc (p : List Declaration) (d : Declaration) :
    tokensOfAll (p ++ [d]) = tokensOfAll p ++ d.tokens := by
  simp [tokensOfAll_append, tokensOfAll]

theorem stmtsOfAll_snoc (p : List Declaration) (d : Declaration) :
    stmtsOfAll (p ++ [d]) = stmtsOfAll p ++ [d.stmt] := by
  simp [stmtsOfAll_append, stmtsOfAll]

end Declaration

namespace Unfinished

open Declaration

/-- The tokens of complete statements in the open blocks. -/
inductive Layers : List Stmt → List (List Stmt) → List Token → Prop
  | base (p : List Declaration) : Layers (stmtsOfAll p).reverse [] (tokensOfAll p)
  | nest {body : List Stmt} {outer : List (List Stmt)} {tokens : List Token} {opening : Token}
      (h : Layers body outer tokens) (hopening : opening.kind = .leftBrace)
      (p : List Declaration) :
      Layers (stmtsOfAll p).reverse (body :: outer) (tokens ++ opening :: tokensOfAll p)

theorem Layers.add {body : List Stmt} {outer : List (List Stmt)} {tokens : List Token}
    (h : Layers body outer tokens) (d : Declaration) :
    Layers (d.stmt :: body) outer (tokens ++ d.tokens) := by
  cases h with
  | base p => simpa [stmtsOfAll_snoc, tokensOfAll_snoc] using Layers.base (p ++ [d])
  | nest h hopening p =>
      simpa [stmtsOfAll_snoc, tokensOfAll_snoc] using h.nest hopening (p ++ [d])

/-- The tokens of all that is kept. -/
inductive Spelled (s : Unfinished) : List Token → Prop
  | between {tokens : List Token} (h : s.position = .between)
      (hlayers : Layers s.body s.outer tokens) : Spelled s tokens
  | within {stmt : PartialStmt} {front rest : List Token} (h : s.position = .within stmt)
      (hlayers : Layers s.body s.outer front) (hstmt : stmt.Spelled rest) :
      Spelled s (front ++ rest)

theorem readWithin_spelled {s : Unfinished} {stmt : PartialStmt} {front rest : List Token}
    (hlayers : Layers s.body s.outer front) (hstmt : stmt.Spelled rest) (token : Token) :
    (s.readWithin stmt token).Spelled (front ++ (rest ++ [token])) ∨
      (s.readWithin stmt token).Faulty := by
  have hreaction := hstmt.read token
  rw [readWithin]
  dsimp only
  split
  next next hmore =>
    rw [hmore] at hreaction
    rcases hreaction with hnext | hfaulty
    · exact .inl (.within rfl hlayers hnext)
    · exact .inr (.inr ⟨next, rfl, hfaulty⟩)
  next hcomplete =>
    rw [hcomplete] at hreaction
    obtain ⟨d, htokens, hd⟩ := hreaction
    have hnext := hlayers.add d
    rw [hd, htokens] at hnext
    exact .inl (.between rfl hnext)
  · exact .inr (.inl (by simp [refuse]))

theorem readBetween_spelled {s : Unfinished} {tokens : List Token} (h : s.position = .between)
    (hlayers : Layers s.body s.outer tokens) (token : Token) :
    (s.readBetween token).Spelled (tokens ++ [token]) ∨ (s.readBetween token).Faulty := by
  rw [readBetween]
  split
  next hkind => exact .inl (.within rfl hlayers (.unnamed hkind))
  next hkind =>
    have hstmt := PartialStmt.Spelled.waiting (.print hkind) .nil
    rw [List.append_nil] at hstmt
    exact .inl (.within rfl hlayers hstmt)
  next hkind => exact .inl (.between h (hlayers.nest hkind []))
  next body outer hkind houter =>
    rw [houter] at hlayers
    generalize hbody : s.body = inner at hlayers
    cases hlayers with
    | @nest _ _ front opening hlayers hopening p =>
        have hnext := hlayers.add (.block ⟨opening, hopening⟩ p ⟨token, hkind⟩)
        refine .inl (.between h ?_)
        simpa [stmt, tokens, hbody] using hnext
  · exact readWithin_spelled hlayers (.waiting .expression .nil) token

theorem Spelled.read {s : Unfinished} {tokens : List Token} (h : s.Spelled tokens)
    (token : Token) : (s.read token).Spelled (tokens ++ [token]) ∨ (s.read token).Faulty := by
  cases h with
  | between hposition hlayers =>
      rw [read_of_between hposition]
      exact readBetween_spelled hposition hlayers token
  | within hposition hlayers hstmt =>
      rw [read_of_within hposition, List.append_assoc]
      exact readWithin_spelled hlayers hstmt token

/-- Tokens in a row are spelled by what is kept of them, unless an error comes to light. -/
theorem foldl_read_spelled (tokens : List Token) {s : Unfinished} {front : List Token}
    (h : s.Spelled front ∨ s.Faulty) :
    (tokens.foldl read s).Spelled (front ++ tokens) ∨ (tokens.foldl read s).Faulty := by
  induction tokens generalizing s front with
  | nil => simpa using h
  | cons token rest ih =>
      have hnext : (s.read token).Spelled (front ++ [token]) ∨ (s.read token).Faulty := by
        rcases h with hspelled | hfaulty
        · exact hspelled.read token
        · exact .inr (hfaulty.read token)
      simpa using ih hnext

theorem Spelled.exists_declarations {s : Unfinished} {tokens : List Token} {ending : Token}
    (h : s.Spelled tokens) (hending : ending.kind = .eof)
    (herrors : (s.finish ending).errors = []) :
    ∃ p : List Declaration, tokensOfAll p = tokens := by
  obtain ⟨-, houter, hposition⟩ := (finish_errors_eq_nil_iff hending).mp herrors
  cases h with
  | between _ hlayers =>
      generalize s.body = body at hlayers
      rw [houter] at hlayers
      cases hlayers with
      | base p => exact ⟨p, rfl⟩
  | within hwithin => exact absurd hwithin (hposition _)

end Unfinished

theorem Parsed.ofTokens_append_end {body : List Token} {ending : Token}
    (hbody : ∀ token ∈ body, token.kind ≠ .eof) (hending : ending.kind = .eof)
    (rest : List Token) :
    ofTokens (body ++ ending :: rest) = (body.foldl Unfinished.read .start).finish ending := by
  have hnone : body.find? Token.isEnd = none := by
    simpa [Token.isEnd] using hbody
  have hwhile : (body ++ ending :: rest).takeWhile (fun token ↦ !token.isEnd) = body := by
    rw [List.takeWhile_append_of_pos (by simpa [Token.isEnd] using hbody)]
    simp [Token.isEnd, hending]
  obtain ⟨last, hlast⟩ : ∃ last, (body ++ ending :: rest).getLast? = some last :=
    Option.isSome_iff_exists.mp (by simp)
  rw [ofTokens]
  rw [hlast, hwhile]
  simp [hnone, Token.isEnd, hending]

theorem Parsed.ofTokens_declarations {p : List Declaration} {ending : Token}
    (hp : ∀ token ∈ Declaration.tokensOfAll p, token.kind ≠ .eof) (hending : ending.kind = .eof)
    (rest : List Token) :
    ofTokens (Declaration.tokensOfAll p ++ ending :: rest) =
      { program := Declaration.stmtsOfAll p, errors := [] } := by
  rw [ofTokens_append_end hp hending, Unfinished.foldl_read_declarations p .start rfl]
  simp [Unfinished.finish, Unfinished.start]

theorem Parsed.exists_declarations {body : List Token} {ending : Token}
    (hbody : ∀ token ∈ body, token.kind ≠ .eof) (hending : ending.kind = .eof)
    {rest : List Token} (herrors : (ofTokens (body ++ ending :: rest)).errors = []) :
    ∃ p : List Declaration, Declaration.tokensOfAll p = body := by
  have hstart : Unfinished.start.Spelled [] := .between rfl (.base [])
  rw [ofTokens_append_end hbody hending rest] at herrors
  rcases Unfinished.foldl_read_spelled body (.inl hstart) with hspelled | hfaulty
  · exact hspelled.exists_declarations hending herrors
  · exact absurd herrors (hfaulty.finish_errors_ne_nil hending)

/-- A program that is read without an error is that of declarations with its tokens. -/
theorem Parsed.ofTokens_eq_iff {body : List Token} {ending : Token}
    (hbody : ∀ token ∈ body, token.kind ≠ .eof) (hending : ending.kind = .eof)
    {rest : List Token} {program : List Stmt} :
    ofTokens (body ++ ending :: rest) = { program, errors := [] } ↔
      ∃ p : List Declaration, Declaration.tokensOfAll p = body ∧
        Declaration.stmtsOfAll p = program := by
  constructor
  · intro h
    obtain ⟨p, rfl⟩ := exists_declarations hbody hending (congrArg errors h)
    rw [ofTokens_declarations hbody hending rest] at h
    exact ⟨p, rfl, congrArg Parsed.program h⟩
  · rintro ⟨p, rfl, rfl⟩
    exact ofTokens_declarations hbody hending rest

/-! ## Tokens in the tree -/

/-- Names, operators and the word `print` stay in the tree. -/
def Token.isStored (token : Token) : Bool :=
  match token.kind with
  | .identifier | .bang | .keyword .printWord => true
  | kind => kind.precedence != 0

def Expr.stored : Expr → List Token
  | literal _ => []
  | group inner => inner.stored
  | unary op operand => op :: operand.stored
  | binary op left right => left.stored ++ op :: right.stored
  | var name => [name]
  | assign name value => name :: value.stored

mutual

def Stmt.stored : Stmt → List Token
  | .expression e => e.stored
  | .print word e => word :: e.stored
  | .declare name none => [name]
  | .declare name (some e) => name :: e.stored
  | .block body => Stmt.storedOfAll body

def Stmt.storedOfAll : List Stmt → List Token
  | [] => []
  | s :: rest => s.stored ++ Stmt.storedOfAll rest

end

theorem Token.isStored_of_precedence {token : Token} (h : token.kind.precedence ≠ 0) :
    token.isStored = true := by
  rw [isStored]
  split <;> simp_all

theorem Phrase.stored_expr {n : Nat} (d : Phrase n) :
    d.expr.stored = d.tokens.filter Token.isStored := by
  induction d with
  | assignment name equals value ih =>
      simp [expr, tokens, Expr.stored, ih, Token.isStored, name.2, equals.2, Kind.precedence]
  | chain left op right ihl ihr =>
      have hop := Token.isStored_of_precedence fun h ↦
        (Kind.mem_operatorsAt_iff.mp op.2).1 ((precedence_of_mem op).symm.trans h)
      simp [expr, tokens, Expr.stored, ihl, ihr, hop]
  | unary op operand ih =>
      have hop : op.1.isStored = true := by
        rcases op.2 with h | h <;> simp [Token.isStored, h, Kind.precedence]
      simp [expr, tokens, Expr.stored, ih, hop]
  | group opening inner closing ih =>
      simp [expr, tokens, Expr.stored, ih, Token.isStored, opening.2, closing.2, Kind.precedence]
  | atom token h =>
      cases h with
      | yes h | no h | nothing h | name h =>
          simp [expr, tokens, Expr.stored, Token.isStored, h, Kind.precedence]
      | constant value h =>
          rcases h with h | h <;>
            simp [expr, tokens, Expr.stored, Token.isStored, h, Kind.precedence]
  | tighter phrase ih => exact ih

namespace Declaration

mutual

theorem stored_stmt (d : Declaration) : d.stmt.stored = d.tokens.filter Token.isStored := by
  match d with
  | .bare word name semicolon =>
      simp [stmt, tokens, Stmt.stored, Token.isStored, word.2, name.2, semicolon.2,
        Kind.precedence]
  | .initialized word name equals initial semicolon =>
      simp [stmt, tokens, Stmt.stored, Token.isStored, word.2, name.2, equals.2, semicolon.2,
        Kind.precedence, initial.stored_expr]
  | .print word value semicolon =>
      simp [stmt, tokens, Stmt.stored, Token.isStored, word.2, semicolon.2, Kind.precedence,
        value.stored_expr]
  | .block opening body closing =>
      simp [stmt, tokens, Stmt.stored, Token.isStored, opening.2, closing.2, Kind.precedence,
        storedOfAll_stmtsOfAll body]
  | .expression value semicolon =>
      simp [stmt, tokens, Stmt.stored, Token.isStored, semicolon.2, Kind.precedence,
        value.stored_expr]

theorem storedOfAll_stmtsOfAll (p : List Declaration) :
    Stmt.storedOfAll (stmtsOfAll p) = (tokensOfAll p).filter Token.isStored := by
  match p with
  | [] => rfl
  | d :: rest =>
      simp [stmtsOfAll, tokensOfAll, Stmt.storedOfAll, stored_stmt d, storedOfAll_stmtsOfAll rest]

end

end Declaration

/-! ## Acceptance -/

/-- Tokens up to the end of input are read without an error exactly if they derive from the
grammar. Then there is one derivation, its tree is the program, and the tokens in the tree are
those of the input in their order. -/
theorem Parsed.errors_eq_nil_iff_derivation {body : List Token} {ending : Token}
    (hbody : ∀ token ∈ body, token.kind ≠ .eof) (hending : ending.kind = .eof)
    (rest : List Token) :
    let parsed := Parsed.ofTokens (body ++ ending :: rest)
    (parsed.errors = [] ↔ ∃ p : List Declaration, Declaration.tokensOfAll p = body) ∧
      ∀ p : List Declaration, Declaration.tokensOfAll p = body →
        parsed.program = Declaration.stmtsOfAll p ∧
          Stmt.storedOfAll parsed.program = body.filter Token.isStored ∧
          ∀ q : List Declaration, Declaration.tokensOfAll q = body → q = p := by
  intro parsed
  have hparsed : ∀ p : List Declaration, Declaration.tokensOfAll p = body →
      parsed = { program := Declaration.stmtsOfAll p, errors := [] } := by
    rintro p rfl
    exact ofTokens_declarations hbody hending rest
  constructor
  · constructor
    · exact exists_declarations hbody hending
    · rintro ⟨p, hp⟩
      rw [hparsed p hp]
  intro p hp
  refine ⟨?_, ?_, ?_⟩
  · rw [hparsed p hp]
  · rw [hparsed p hp, Declaration.storedOfAll_stmtsOfAll, hp]
  · intro q hq
    have hprogram := congrArg Parsed.program ((hparsed q hq).symm.trans (hparsed p hp))
    exact Declaration.eq_of_stmtsOfAll_eq q p hprogram (hq.trans hp.symm)

/-- The tokens of `a = b - c;`, with a token behind the end of input that is not read. -/
theorem Parsed.assigned_difference_accepted :
    (∀ token ∈ [Token.plain .identifier "a" 1, .plain .equal "=" 1, .plain .identifier "b" 1,
        .plain .minus "-" 1, .plain .identifier "c" 1, .plain .semicolon ";" 1],
      token.kind ≠ .eof) ∧
    (Token.endOfInput 1).kind = .eof ∧
    (Parsed.ofTokens ([.plain .identifier "a" 1, .plain .equal "=" 1, .plain .identifier "b" 1,
        .plain .minus "-" 1, .plain .identifier "c" 1, .plain .semicolon ";" 1] ++
      .endOfInput 1 :: [.plain .minus "-" 2])).errors = [] ∧
    (Parsed.ofTokens ([.plain .identifier "a" 1, .plain .equal "=" 1, .plain .identifier "b" 1,
        .plain .minus "-" 1, .plain .identifier "c" 1, .plain .semicolon ";" 1] ++
      .endOfInput 1 :: [.plain .minus "-" 2])).program =
      [.expression (.assign (.plain .identifier "a" 1) (.binary (.plain .minus "-" 1)
        (.var (.plain .identifier "b" 1)) (.var (.plain .identifier "c" 1))))] := by
  have hbody : ∀ token ∈ [Token.plain .identifier "a" 1, .plain .equal "=" 1,
      .plain .identifier "b" 1, .plain .minus "-" 1, .plain .identifier "c" 1,
      .plain .semicolon ";" 1], token.kind ≠ .eof := by
    decide
  have hend : (Token.endOfInput 1).kind = .eof := rfl
  have h := Parsed.errors_eq_nil_iff_derivation hbody hend [.plain .minus "-" 2]
  let b : Phrase 6 := .atom (.plain .identifier "b" 1) (.name rfl)
  let c : Phrase 6 := .atom (.plain .identifier "c" 1) (.name rfl)
  let difference : Phrase 3 :=
    .chain b.tighter.tighter.tighter ⟨.plain .minus "-" 1, by decide⟩ c.tighter.tighter
  let p : List Declaration := [.expression (.assignment ⟨.plain .identifier "a" 1, rfl⟩
    ⟨.plain .equal "=" 1, rfl⟩ difference.tighter.tighter.tighter) ⟨.plain .semicolon ";" 1, rfl⟩]
  exact ⟨hbody, hend, h.1.mpr ⟨p, rfl⟩, (h.2 p rfl).1⟩

end Lox
