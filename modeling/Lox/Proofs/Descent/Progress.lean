import Lox.Proofs.Descent.Statements

/-!
# A cursor that always moves on

Up to the first end of input all walks of a reader by descent come to an end, and their cursor moves
forward, as far as that end and no further. So the reader has a result for all tokens: it is the
program read token by token, and no token behind the first end of input has any part in it.
-/

namespace Lox.Descent

variable {α : Type} {stop : Nat}

/-- Wherever the cursor is up to `stop` when the walk begins, the walk comes to an end, and the
cursor has moved forward as far as `stop` at most. It has moved on if `gains` holds. -/
def Forward (stop : Nat) (walk : Walk α) (gains : State → α → Prop) : Prop :=
  ∀ s, s.current ≤ stop → Ends walk s fun a t ↦ Moves stop s t ∧ (gains s a → s.current < t.current)

/-- The walk of a rule moves on if it does not break off. -/
def RuleForward (stop : Nat) (walk : Walk (Except SyntaxError α)) : Prop :=
  Forward stop walk fun _ result ↦ ∃ a, result = .ok a

theorem Moves.forward {result : Except SyntaxError α} {s t : State} (h : Moves stop s t)
    (hadvances : ∀ a, result = .ok a → s.current < t.current) :
    Moves stop s t ∧ ((∃ a, result = .ok a) → s.current < t.current) :=
  ⟨h, fun hok ↦ hok.elim hadvances⟩

/-- All walks of the reader. A loop does not move on if it ends at once, and nothing moves on at the
end of input. -/
structure AllForward (tokens : Tokens) (stop : Nat) : Prop where
  assignment : RuleForward stop tokens.assignment.run
  binary : ∀ level, 0 < level → level < 5 → RuleForward stop (tokens.binary level).run
  operators : ∀ level left, 0 < level → level < 5 →
    Forward stop (tokens.operators level left).run fun _ _ ↦ False
  unary : RuleForward stop tokens.unary.run
  primary : RuleForward stop tokens.primary.run
  ended : ∀ clause, RuleForward stop (tokens.ended clause).run
  variableDeclaration : RuleForward stop tokens.variableDeclaration.run
  seekBoundary : Forward stop tokens.seekBoundary fun _ _ ↦ False
  synchronize : Forward stop tokens.synchronize fun s _ ↦ s.current < stop
  declaration : Forward stop tokens.declaration fun s _ ↦ s.current < stop
  statement : RuleForward stop tokens.statement
  block : RuleForward stop tokens.block
  blockBody : ∀ body, Forward stop (tokens.blockBody body) fun _ _ ↦ False
  declarations : ∀ body, Forward stop (tokens.declarations body) fun s _ ↦ s.current < stop

/-- An access in front of `stop` or at it. The cursor stands at a token, so it is never taken back
to the last one, and the index that is read is one of a token. -/
structure Access.Within (tokens : Tokens) (stop : Nat) (a : Access) : Prop where
  current_le : a.current ≤ stop
  at_cursor : min a.current (tokens.length - 1) = a.current
  index_le : a.index ≤ stop
  index_lt_length : a.index < tokens.length

namespace Input

variable {input : Input} {s : State}

/-! ## All walks -/

theorem Reads.forward {level : Nat} {rule : Rule Expr}
    (h : ∀ {s : State}, s.current ≤ input.stop → input.Reads level s rule s) :
    RuleForward input.stop rule.run :=
  fun _ hs ↦ (h hs).mono fun _ _ hread ↦ hread.1.moves.forward hread.1.advances

theorem operators_forward {s : State} (hs : s.current ≤ input.stop) (level : Nat) (left : Expr)
    (hpos : 0 < level) (hlevel : level < 5) :
    Ends (input.tokens.operators level left).run s fun _ t ↦ Moves input.stop s t := by
  rw [Tokens.operators]
  have hne := Kind.eof_not_mem_operatorsAt level
  by_cases hkind : (input.token s.current).kind ∈ Kind.operatorsAt level
  · refine .kept hs hne hkind fun t hpasses ↦ ?_
    have hcurrent := hpasses.current_eq
    have hstop := hpasses.le_stop
    refine (binary_reads (level + 1) (Nat.succ_pos level) hlevel hstop).rule ?_ ?_
    · rintro right u ⟨hread, -⟩
      have hadvances := hread.advances right rfl
      have hlast := hread.moves.le_stop
      have hmoves := hpasses.toMoves.trans hread.moves
      exact (operators_forward hlast level _ hpos hlevel).mono fun _ _ hrest ↦ hmoves.trans hrest
    · rintro error u ⟨hread, -⟩
      exact hpasses.toMoves.trans hread.moves
  · exact .left hs hne hkind fun t hpasses ↦ .pure hpasses.toMoves
termination_by input.stop - s.current

/-- A unary operator is refused where only its operand is read. -/
theorem primary_forward : RuleForward input.stop input.tokens.primary.run := by
  intro s hs
  by_cases hkind : (input.token s.current).kind ∈ [.bang, .minus]
  · have hparen : (input.token s.current).kind ≠ .leftParen := by
      intro hparen
      simp [hparen] at hkind
    have hoperand : (input.token s.current).operand? = none := by
      rcases List.mem_pair.mp hkind with hkind | hkind <;> simp [Token.operand?, hkind]
    rw [Tokens.primary]
    refine .walk (peek_ends hs) ?_
    rintro _ t ⟨rfl, hpasses⟩
    rw [if_neg hparen, hoperand]
    exact ⟨_, t, rfl, hpasses.toMoves, by simp⟩
  · exact (primary_reads hs hkind).mono fun _ _ hread ↦ hread.1.moves.forward hread.1.advances

/-- The word in front of a declaration is refused where only a statement is read. -/
theorem statement_forward : RuleForward input.stop input.tokens.statement := by
  intro s hs
  by_cases hkind : (input.token s.current).kind = .keyword .varWord
  · rw [Tokens.statement]
    refine (accept_ends_of_not_mem hs (by simp) (by simp [hkind])).bind ?_
    rintro _ t ⟨rfl, hprint⟩
    have hcurrent := hprint.current_same
    refine (accept_ends_of_not_mem hprint.le_stop (by simp) (by simp [hcurrent, hkind])).bind ?_
    rintro _ u ⟨rfl, hbrace⟩
    have hpasses := hprint.trans hbrace
    refine (ended_ends hbrace.le_stop .expression).mono fun _ v hread ↦ ?_
    refine (hpasses.toMoves.trans hread.moves).forward fun stmt hstmt ↦ ?_
    exact Nat.lt_of_le_of_lt hpasses.le (hread.advances stmt hstmt)
  · exact (statement_ends hs hkind).mono fun _ _ hread ↦ hread.moves.forward hread.advances

theorem allForward (input : Input) : AllForward input.tokens input.stop where
  assignment := Reads.forward assignment_reads
  binary level hpos hlevel := Reads.forward (binary_reads level hpos (Nat.le_of_lt hlevel))
  operators level left hpos hlevel _ hs :=
    (operators_forward hs level left hpos hlevel).mono fun _ _ hmoves ↦ ⟨hmoves, False.elim⟩
  unary := Reads.forward unary_reads
  primary := primary_forward
  ended clause _ hs :=
    (ended_ends hs clause).mono fun _ _ hread ↦ hread.moves.forward hread.advances
  variableDeclaration _ hs :=
    (variableDeclaration_ends hs).mono fun _ _ hread ↦ hread.moves.forward hread.advances
  seekBoundary _ hs := (seekBoundary_ends hs).mono fun _ _ hskips ↦ ⟨hskips.moves, False.elim⟩
  synchronize _ hs := (synchronize_ends hs).mono fun _ _ hskips ↦ ⟨hskips.1.moves, hskips.2⟩
  declaration _ hs := (declaration_ends hs).mono fun _ _ hread ↦ ⟨hread.moves, hread.advances⟩
  statement := statement_forward
  block _ hs := (block_ends hs).mono fun _ _ hread ↦ hread.moves.forward hread.advances
  blockBody body _ hs := (blockBody_ends hs body).mono fun _ _ hread ↦ ⟨hread.moves, False.elim⟩
  declarations body _ hs := (declarations_ends hs body).mono fun _ _ hread ↦
    ⟨hread.moves, fun hlt ↦ hread.stops ▸ hlt⟩

/-! ## The whole run -/

theorem access_within {a : Access} (hcurrent : a.current ≤ input.stop)
    (hindex : a.index ≤ a.current) : a.Within input.tokens input.stop := by
  have hlength := input.stop_lt_length
  exact ⟨hcurrent, by omega, by omega, by omega⟩

/-- The run over all tokens stops at the end of input. -/
theorem exists_run (input : Input) :
    ∃ body s, input.tokens.declarations [] .start = some (body, s) ∧ s.current = input.stop ∧
      (∀ i, i ≤ input.stop ↔ ∃ a ∈ s.accesses, a.current = i) ∧
      (∀ a ∈ s.accesses, a.Within input.tokens input.stop) ∧
      Parsed.ofTokens input.tokens = { program := body.reverse, errors := s.errors.reverse } := by
  obtain ⟨body, s, hrun, hread⟩ := @declarations_ends input .start (Nat.zero_le _) []
  have hstop := hread.stops
  have hnew : ∀ a ∈ s.accesses, a.current ≤ input.stop ∧ a.index ≤ a.current := by
    intro a ha
    exact (hread.moves.new a ha).resolve_left List.not_mem_nil
  refine ⟨body, s, hrun, hstop, fun i ↦ ⟨fun hi ↦ ?_, ?_⟩, ?_, ?_⟩
  · rcases Nat.eq_zero_or_pos i with rfl | hpos
    · exact ⟨_, hread.recorded, rfl⟩
    · exact hread.moves.passed i hpos (hstop ▸ hi)
  · rintro ⟨a, ha, rfl⟩
    exact (hnew a ha).1
  · intro a ha
    exact access_within (hnew a ha).1 (hnew a ha).2
  · rw [← hread.follows, tokens, Parsed.ofTokens_append_end input.body_kind input.ending_kind]
    rfl

end Input

/-! ## All lists of tokens -/

theorem Input.exists_eq (front : List Token) {last : Token} (hlast : last.kind = .eof) :
    ∃ input : Input, input.tokens = front ++ [last] ∧
      input.stop = (front ++ [last]).findIdx Token.isEnd := by
  obtain ⟨body, ending, after, hsplit, hbody, hending⟩ := Parsed.exists_eq_foldl_finish front hlast
  refine ⟨⟨body, ending, after, hbody, hending⟩, hsplit.symm, ?_⟩
  rw [hsplit, findIdx_isEnd hbody hending]
  rfl

theorem terminated_of_eof (front : List Token) {last : Token} (h : last.kind = .eof) :
    terminated (front ++ [last]) = front ++ [last] := by
  simp [terminated, Token.isEnd, h]

theorem terminated_of_ne_eof (front : List Token) {last : Token} (h : last.kind ≠ .eof) :
    terminated (front ++ [last]) = front ++ [last, .endOfInput last.line] := by
  simp [terminated, Token.isEnd, h]

theorem exists_terminated (front : List Token) (last : Token) :
    ∃ body ending, terminated (front ++ [last]) = body ++ [ending] ∧ ending.kind = .eof := by
  by_cases h : last.kind = .eof
  · exact ⟨front, last, terminated_of_eof front h, h⟩
  · refine ⟨front ++ [last], .endOfInput last.line, ?_, rfl⟩
    rw [terminated_of_ne_eof front h, List.append_assoc]
    rfl

theorem parse_concat (front : List Token) (last : Token) :
    parse (front ++ [last]) =
      (Tokens.declarations (terminated (front ++ [last])) [] .start).map fun (body, s) ↦
        { program := body.reverse, errors := s.errors.reverse } :=
  if_neg (by simp)

/-- Descending gives what is read token by token. -/
theorem parse_eq (tokens : List Token) : parse tokens = some (Parsed.ofTokens tokens) := by
  rcases List.eq_nil_or_concat' tokens with rfl | ⟨front, last, rfl⟩
  · rfl
  · obtain ⟨body, ending, hterminated, hending⟩ := exists_terminated front last
    obtain ⟨input, htokens, -⟩ := Input.exists_eq body hending
    obtain ⟨program, s, hrun, -, -, -, hparsed⟩ := input.exists_run
    rw [htokens, ← hterminated] at hrun hparsed
    rw [parse_concat, hrun, ← Parsed.ofTokens_terminated, hparsed]
    rfl

/-- Reading by descent is safe and comes to an end. Up to the first end of input every walk moves
the cursor forward and no further than that end. The run over all tokens stops right there, has
passed each token in front of it, and gives the program that is read token by token. What stands
behind the end of input is not read, and tokens without one are read as if one followed on the line
of the last token. -/
theorem parse_progress (front : List Token) {last : Token} (hlast : last.kind = .eof) :
    let tokens : Tokens := front ++ [last]
    let stop := tokens.findIdx Token.isEnd
    AllForward tokens stop ∧
      (∃ body s, tokens.declarations [] .start = some (body, s) ∧ s.current = stop ∧
        (∀ i, i ≤ stop ↔ ∃ a ∈ s.accesses, a.current = i) ∧
        (∀ a ∈ s.accesses, a.Within tokens stop) ∧
        parse tokens = some { program := body.reverse, errors := s.errors.reverse }) ∧
      (∀ others, parse others = some (Parsed.ofTokens others)) ∧
      (∀ (body rest : List Token) (ending : Token), (∀ token ∈ body, token.kind ≠ .eof) →
        ending.kind = .eof → parse (body ++ ending :: rest) = parse (body ++ [ending])) ∧
      ∀ (body : List Token) (final : Token), final.kind ≠ .eof →
        parse (body ++ [final]) = parse (body ++ [final, .endOfInput final.line]) := by
  intro tokens stop
  obtain ⟨input, htokens, hstop⟩ := Input.exists_eq front hlast
  obtain ⟨body, s, hrun, hcurrent, hpassed, hwithin, hparsed⟩ := input.exists_run
  have hforward := input.allForward
  rw [htokens, hstop] at hforward hwithin
  rw [htokens] at hrun hparsed
  rw [hstop] at hcurrent hpassed
  refine ⟨hforward, ⟨body, s, hrun, hcurrent, hpassed, hwithin, ?_⟩, parse_eq, ?_, ?_⟩
  · rw [parse_eq, hparsed]
  · intro body rest ending hbody hending
    rw [parse_eq, parse_eq, Parsed.ofTokens_append_end hbody hending,
      Parsed.ofTokens_append_end hbody hending]
  · intro body final hfinal
    rw [parse_eq, parse_eq, ← Parsed.ofTokens_terminated, terminated_of_ne_eof body hfinal]

/-- The tokens of `{ class 1`, of which the number carries no value, with a semicolon behind the end
of input that is not read. -/
theorem parse_progress_unclosed :
    (Token.endOfInput 2).kind = .eof ∧
    (∃ body s, Tokens.declarations ([.plain .leftBrace "\x7b" 1,
        .plain (.keyword .classWord) "class" 1, .plain .number "1" 1, .endOfInput 1,
        .plain .semicolon ";" 2] ++ [.endOfInput 2]) [] .start = some (body, s) ∧
      s.current = 3 ∧ ∀ a ∈ s.accesses, a.index ≤ 3) ∧
    parse ([.plain .leftBrace "\x7b" 1, .plain (.keyword .classWord) "class" 1,
        .plain .number "1" 1, .endOfInput 1, .plain .semicolon ";" 2] ++ [.endOfInput 2]) =
      some
        { program := []
          errors := [⟨.plain (.keyword .classWord) "class" 1, .missingOperand⟩,
            ⟨.endOfInput 1, .unclosedBlock⟩] } := by
  have hend : (Token.endOfInput 2).kind = .eof := rfl
  obtain ⟨-, ⟨body, s, hrun, hcurrent, -, hwithin, -⟩, hparse, -, -⟩ := parse_progress
    [.plain .leftBrace "\x7b" 1, .plain (.keyword .classWord) "class" 1, .plain .number "1" 1,
      .endOfInput 1, .plain .semicolon ";" 2] hend
  exact ⟨hend, ⟨body, s, hrun, hcurrent, fun a ha ↦ (hwithin a ha).index_le⟩, hparse _⟩

end Lox.Descent
