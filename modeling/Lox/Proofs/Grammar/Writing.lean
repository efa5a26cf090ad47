import Mathlib.Data.List.TakeWhile
import Lox.Proofs.Grammar.Recovery

/-!
# Programs as tokens

A program can be read off its tree in source order, each literal as some token that denotes it, and
it can be written as tokens. What is read from any tokens is read off in their order, and reading
what is written of it gives the same program, without an error.
-/

namespace Lox

open scoped List

/-! ## The tokens that a tree cites -/

/-- The tokens of an expression in source order, without those that only hold it together. -/
inductive Expr.Cites : Expr → List Token → Prop
  | literal {value : Value} {token : Token} (h : token.Denotes (.literal value)) :
      Cites (.literal value) [token]
  | group {inner : Expr} {tokens : List Token} (h : Cites inner tokens) :
      Cites (.group inner) tokens
  | unary (op : Token) {operand : Expr} {tokens : List Token} (h : Cites operand tokens) :
      Cites (.unary op operand) (op :: tokens)
  | binary (op : Token) {left right : Expr} {front rest : List Token} (hleft : Cites left front)
      (hright : Cites right rest) : Cites (.binary op left right) (front ++ op :: rest)
  | var (name : Token) : Cites (.var name) [name]
  | assign (name : Token) {value : Expr} {tokens : List Token} (h : Cites value tokens) :
      Cites (.assign name value) (name :: tokens)

mutual

inductive Stmt.Cites : Stmt → List Token → Prop
  | expression {e : Expr} {tokens : List Token} (h : e.Cites tokens) :
      Stmt.Cites (.expression e) tokens
  | print (word : Token) {e : Expr} {tokens : List Token} (h : e.Cites tokens) :
      Stmt.Cites (.print word e) (word :: tokens)
  | bare (name : Token) : Stmt.Cites (.declare name none) [name]
  | initialized (name : Token) {e : Expr} {tokens : List Token} (h : e.Cites tokens) :
      Stmt.Cites (.declare name (some e)) (name :: tokens)
  | block {body : List Stmt} {tokens : List Token} (h : Stmt.CitesAll body tokens) :
      Stmt.Cites (.block body) tokens

inductive Stmt.CitesAll : List Stmt → List Token → Prop
  | nil : Stmt.CitesAll [] []
  | cons {s : Stmt} {rest : List Stmt} {front tokens : List Token} (h : s.Cites front)
      (hrest : Stmt.CitesAll rest tokens) : Stmt.CitesAll (s :: rest) (front ++ tokens)

end

theorem Phrase.exists_cites {n : Nat} (d : Phrase n) :
    ∃ cited, d.expr.Cites cited ∧ cited <+ d.tokens := by
  induction d with
  | assignment name equals value ih =>
      obtain ⟨cited, hcites, hsub⟩ := ih
      exact ⟨_, .assign name.1 hcites, (hsub.cons equals.1).cons_cons name.1⟩
  | chain left op right ihl ihr =>
      obtain ⟨front, hfront, hleft⟩ := ihl
      obtain ⟨rest, hrest, hright⟩ := ihr
      exact ⟨_, .binary op.1 hfront hrest, hleft.append (hright.cons_cons op.1)⟩
  | unary op operand ih =>
      obtain ⟨cited, hcites, hsub⟩ := ih
      exact ⟨_, .unary op.1 hcites, hsub.cons_cons op.1⟩
  | group opening inner closing ih =>
      obtain ⟨cited, hcites, hsub⟩ := ih
      exact ⟨_, .group hcites, (hsub.trans (List.sublist_append_left _ _)).cons opening.1⟩
  | atom token h =>
      refine ⟨[token], ?_, List.Sublist.refl _⟩
      cases h with
      | yes h => exact .literal (.yes h)
      | no h => exact .literal (.no h)
      | nothing h => exact .literal (.nothing h)
      | constant value h hvalue => exact .literal (.constant value h hvalue)
      | name h => exact .var token
  | tighter phrase ih => exact ih

namespace Declaration

mutual

theorem exists_cites (d : Declaration) : ∃ cited, d.stmt.Cites cited ∧ cited <+ d.tokens := by
  match d with
  | .bare word name semicolon =>
      exact ⟨_, .bare name.1, (List.sublist_append_left [name.1] [semicolon.1]).cons word.1⟩
  | .initialized word name equals initial semicolon =>
      obtain ⟨cited, hcites, hsub⟩ := initial.exists_cites
      have hfront := hsub.trans (List.sublist_append_left initial.tokens [semicolon.1])
      exact ⟨_, .initialized name.1 hcites, ((hfront.cons equals.1).cons_cons name.1).cons word.1⟩
  | .print word value semicolon =>
      obtain ⟨cited, hcites, hsub⟩ := value.exists_cites
      have hfront := hsub.trans (List.sublist_append_left value.tokens [semicolon.1])
      exact ⟨_, .print word.1 hcites, hfront.cons_cons word.1⟩
  | .block opening body closing =>
      obtain ⟨cited, hcites, hsub⟩ := exists_citesAll body
      have hfront := hsub.trans (List.sublist_append_left (tokensOfAll body) [closing.1])
      exact ⟨_, .block hcites, hfront.cons opening.1⟩
  | .expression value semicolon =>
      obtain ⟨cited, hcites, hsub⟩ := value.exists_cites
      exact ⟨_, .expression hcites, hsub.trans (List.sublist_append_left _ _)⟩

theorem exists_citesAll (p : List Declaration) :
    ∃ cited, Stmt.CitesAll (stmtsOfAll p) cited ∧ cited <+ tokensOfAll p := by
  match p with
  | [] => exact ⟨[], .nil, List.Sublist.refl []⟩
  | d :: rest =>
      obtain ⟨front, hfront, hfrontSub⟩ := exists_cites d
      obtain ⟨later, hlater, hlaterSub⟩ := exists_citesAll rest
      exact ⟨_, .cons hfront hlater, hfrontSub.append hlaterSub⟩

end

end Declaration

/-! ## Writing -/

section

variable (line : Nat)

/-- A token that denotes the value, on a line. -/
def Value.token : Value → Token
  | nil => .plain (.keyword .nilWord) "nil" line
  | boolean true => .plain (.keyword .trueWord) "true" line
  | boolean false => .plain (.keyword .falseWord) "false" line
  | number x => ⟨.number, (number x).text, some (.number x), line⟩
  | string s => ⟨.string, "\"" ++ s ++ "\"", some (.string s), line⟩

theorem Value.token_denotes (value : Value) : (value.token line).Denotes (.literal value) := by
  match value with
  | nil => exact .nothing rfl
  | boolean true => exact .yes rfl
  | boolean false => exact .no rfl
  | number x => exact .constant (.number x) (.inl rfl) rfl
  | string s => exact .constant (.string s) (.inr rfl) rfl

/-- The tokens of an expression. Those that its tree holds are used again, all others stand on the
given line. Only groups have parentheses. -/
def Expr.written : Expr → List Token
  | literal value => [value.token line]
  | group inner =>
      .plain .leftParen "(" line :: (inner.written ++ [.plain .rightParen ")" line])
  | unary op operand => op :: operand.written
  | binary op left right => left.written ++ op :: right.written
  | var name => [name]
  | assign name value => name :: .plain .equal "=" line :: value.written

mutual

def Stmt.written : Stmt → List Token
  | .expression e => e.written line ++ [.plain .semicolon ";" line]
  | .print word e => word :: (e.written line ++ [.plain .semicolon ";" line])
  | .declare name none =>
      [.plain (.keyword .varWord) "var" line, name, .plain .semicolon ";" line]
  | .declare name (some e) =>
      .plain (.keyword .varWord) "var" line :: name :: .plain .equal "=" line ::
        (e.written line ++ [.plain .semicolon ";" line])
  | .block body =>
      .plain .leftBrace "\x7b" line ::
        (Stmt.writtenInAll body ++ [.plain .rightBrace "\x7d" line])

def Stmt.writtenInAll : List Stmt → List Token
  | [] => []
  | s :: rest => s.written ++ Stmt.writtenInAll rest

end

def Terminal.plain (kind : Kind) (lexeme : String) : Terminal kind :=
  ⟨.plain kind lexeme line, rfl⟩

open Phrase (Derives)

theorem Phrase.derives_written {n : Nat} (d : Phrase n) :
    Derives n (d.expr.written line) d.expr := by
  induction d with
  | assignment name equals value ih => exact ih.assignment name.2 rfl
  | chain left op right ihl ihr =>
      obtain ⟨c, hc, hcexpr⟩ := ihl
      obtain ⟨d, hd, hdexpr⟩ := ihr
      refine ⟨.chain c op d, ?_, ?_⟩
      · rw [tokens, hc, hd, expr, Expr.written]
      · rw [expr, hcexpr, hdexpr, expr]
  | unary op operand ih => exact ih.unary op.2
  | group opening inner closing ih => exact ih.group rfl rfl
  | atom token h =>
      cases h with
      | yes => exact ⟨.atom _ (Value.token_denotes line (.boolean true)), rfl, rfl⟩
      | no => exact ⟨.atom _ (Value.token_denotes line (.boolean false)), rfl, rfl⟩
      | nothing => exact ⟨.atom _ (Value.token_denotes line .nil), rfl, rfl⟩
      | constant value =>
          exact ⟨.atom _ (Value.token_denotes line (.ofLiteral value)), rfl, rfl⟩
      | name h => exact ⟨.atom token (.name h), rfl, rfl⟩
  | tighter phrase ih => exact ih.mono (Nat.le_succ _)

namespace Declaration

mutual

theorem exists_written (d : Declaration) :
    ∃ w : Declaration, w.tokens = d.stmt.written line ∧ w.stmt = d.stmt := by
  let var := Terminal.plain line (.keyword .varWord) "var"
  let equal := Terminal.plain line .equal "="
  let stop := Terminal.plain line .semicolon ";"
  match d with
  | .bare word name semicolon => exact ⟨.bare var name stop, rfl, rfl⟩
  | .initialized word name equals initial semicolon =>
      obtain ⟨e, htokens, hexpr⟩ := initial.derives_written line
      refine ⟨.initialized var name equal e stop, ?_, ?_⟩
      · rw [tokens, htokens]
        rfl
      · rw [stmt, hexpr, stmt]
  | .print word value semicolon =>
      obtain ⟨e, htokens, hexpr⟩ := value.derives_written line
      refine ⟨.print word e stop, ?_, ?_⟩
      · rw [tokens, htokens]
        rfl
      · rw [stmt, hexpr, stmt]
  | .block opening body closing =>
      obtain ⟨w, htokens, hstmts⟩ := exists_writtenInAll body
      refine ⟨.block (.plain line .leftBrace "\x7b") w (.plain line .rightBrace "\x7d"), ?_, ?_⟩
      · rw [tokens, htokens]
        rfl
      · rw [stmt, hstmts, stmt]
  | .expression value semicolon =>
      obtain ⟨e, htokens, hexpr⟩ := value.derives_written line
      refine ⟨.expression e stop, ?_, ?_⟩
      · rw [tokens, htokens]
        rfl
      · rw [stmt, hexpr, stmt]

theorem exists_writtenInAll (p : List Declaration) :
    ∃ w : List Declaration, tokensOfAll w = Stmt.writtenInAll line (stmtsOfAll p) ∧
      stmtsOfAll w = stmtsOfAll p := by
  match p with
  | [] => exact ⟨[], rfl, rfl⟩
  | d :: rest =>
      obtain ⟨first, htokens, hstmt⟩ := exists_written d
      obtain ⟨later, htokensOfAll, hstmts⟩ := exists_writtenInAll rest
      refine ⟨first :: later, ?_, ?_⟩
      · rw [tokensOfAll, htokens, htokensOfAll]
        rfl
      · rw [stmtsOfAll, hstmt, hstmts, stmtsOfAll]

end

end Declaration

end

/-! ## Reading what is written -/

theorem Phrase.tokens_kind_ne_eof {n : Nat} (d : Phrase n) :
    ∀ token ∈ d.tokens, token.kind ≠ .eof := by
  induction d with
  | assignment name equals value ih => simpa [tokens, name.2, equals.2] using ih
  | chain left op right ihl ihr =>
      have hop : op.1.kind ≠ .eof := by
        intro h
        have hmem := op.2
        rw [h, Kind.mem_operatorsAt_iff] at hmem
        exact hmem.1 hmem.2.symm
      exact List.forall_mem_append.mpr ⟨ihl, List.forall_mem_cons.mpr ⟨hop, ihr⟩⟩
  | unary op operand ih =>
      have hop : op.1.kind ≠ .eof := by
        rcases op.2 with h | h <;> simp [h]
      exact List.forall_mem_cons.mpr ⟨hop, ih⟩
  | group opening inner closing ih =>
      simpa [tokens, opening.2, closing.2, or_imp, forall_and] using ih
  | atom token h =>
      have hkind : token.kind ≠ .eof := by
        cases h with
        | yes h | no h | nothing h | name h => simp [h]
        | constant value h => rcases h with h | h <;> simp [h]
      exact List.forall_mem_singleton.mpr hkind
  | tighter phrase ih => exact ih

namespace Declaration

mutual

theorem tokens_kind_ne_eof (d : Declaration) : ∀ token ∈ d.tokens, token.kind ≠ .eof := by
  match d with
  | .bare word name semicolon => simp [tokens, word.2, name.2, semicolon.2]
  | .initialized word name equals initial semicolon =>
      have hinitial := initial.tokens_kind_ne_eof
      simpa [tokens, word.2, name.2, equals.2, semicolon.2, or_imp, forall_and] using hinitial
  | .print word value semicolon =>
      have hvalue := value.tokens_kind_ne_eof
      simpa [tokens, word.2, semicolon.2, or_imp, forall_and] using hvalue
  | .block opening body closing =>
      have hbody := tokensOfAll_kind_ne_eof body
      simpa [tokens, opening.2, closing.2, or_imp, forall_and] using hbody
  | .expression value semicolon =>
      have hvalue := value.tokens_kind_ne_eof
      simpa [tokens, semicolon.2, or_imp, forall_and] using hvalue

theorem tokensOfAll_kind_ne_eof (p : List Declaration) :
    ∀ token ∈ tokensOfAll p, token.kind ≠ .eof := by
  match p with
  | [] => exact nofun
  | d :: rest =>
      exact List.forall_mem_append.mpr ⟨tokens_kind_ne_eof d, tokensOfAll_kind_ne_eof rest⟩

end

end Declaration

namespace Parsed

/-- No end of input has to stand behind the last declaration. -/
theorem ofTokens_tokensOfAll (p : List Declaration) :
    ofTokens (Declaration.tokensOfAll p) =
      { program := Declaration.stmtsOfAll p, errors := [] } := by
  have hp := Declaration.tokensOfAll_kind_ne_eof p
  have hwhile : (Declaration.tokensOfAll p).takeWhile (fun token ↦ !token.isEnd) =
      Declaration.tokensOfAll p :=
    List.takeWhile_eq_self_iff.mpr (by simpa [Token.isEnd] using hp)
  have hread := Unfinished.foldl_read_declarations p .start rfl
  rw [ofTokens]
  cases hlast : (Declaration.tokensOfAll p).getLast? with
  | none =>
      -- Reading no tokens adds no statement, so there are no declarations.
      rw [List.getLast?_eq_none_iff.mp hlast] at hread
      have hnone : [] = (Declaration.stmtsOfAll p).reverse ++ [] := congrArg Unfinished.body hread
      rw [List.append_nil] at hnone
      rw [List.reverse_eq_nil_iff.mp hnone.symm]
  | some last =>
      dsimp only
      rw [hwhile, hread]
      simp [Unfinished.finish, Unfinished.start]

/-- The statements that are kept next to any errors show tokens in front of the end of input, in
their order, and when they are written as tokens they are read again without an error. -/
theorem program_cites_and_rereads (tokens : List Token) (line : Nat) :
    let program := (ofTokens tokens).program
    (∃ cited, Stmt.CitesAll program cited ∧
      cited <+ tokens.takeWhile fun token ↦ !token.isEnd) ∧
    ofTokens (Stmt.writtenInAll line program) = { program, errors := [] } ∧
    ∀ (ending : Token) (rest : List Token), ending.kind = .eof →
      ofTokens (Stmt.writtenInAll line program ++ ending :: rest) = { program, errors := [] } := by
  intro program
  obtain ⟨p, hstmts, htokens⟩ := exists_kept_declarations tokens
  obtain ⟨cited, hcites, hsub⟩ := Declaration.exists_citesAll p
  obtain ⟨w, hwritten, hagain⟩ := Declaration.exists_writtenInAll line p
  rw [hstmts] at hcites hwritten hagain
  refine ⟨⟨cited, hcites, hsub.trans htokens⟩, ?_, ?_⟩
  · rw [← hwritten, ofTokens_tokensOfAll, hagain]
  · intro ending rest hending
    rw [← hwritten, ofTokens_declarations (Declaration.tokensOfAll_kind_ne_eof w) hending, hagain]

/-- Of `nil = true; print a` only the left side of the assignment is kept. -/
example : (ofTokens [.plain (.keyword .nilWord) "nil" 1, .plain .equal "=" 1,
    .plain (.keyword .trueWord) "true" 1, .plain .semicolon ";" 1,
    .plain (.keyword .printWord) "print" 1, .plain .identifier "a" 1]).program =
      [.expression (.literal .nil)] := rfl

end Parsed

end Lox
